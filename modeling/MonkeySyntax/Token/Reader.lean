import MonkeySyntax.Token.Lexing

/-!
# Reading a text step by step

A reader stands somewhere in a text and keeps the line and the column of that place. It can be set
up at any offset, also in front of the text or behind its end; there it sees no text ahead. Every
scanning step works on the text ahead and moves by exactly the characters that it takes, so only
the plain request for the next character can be refused.
-/

namespace MonkeySyntax

structure Reader where
  source : List Char
  offset : Int := 0
  position : Position := .start
deriving DecidableEq, Repr

inductive Reader.Fault where
  | pastEnd (offset line : Int)
  /-- The offset lies further in front of the text than the text is long. -/
  | beforeStart
deriving DecidableEq, Repr

def Reader.Fault.message : Reader.Fault → String
  | .pastEnd offset line =>
    "CharacterStreamError: Attempted to read past end of source at " ++
      s!"position=<{offset}>, line=<{line}>"
  | .beforeStart => "string index out of range"

namespace Reader

variable (r : Reader)

def ofString (source : String) : Reader := { source := source.toList }

def rest : List Char :=
  if r.offset < 0 then [] else r.source.drop r.offset.toNat

def past (cs : List Char) : Reader :=
  { r with offset := r.offset + cs.length, position := r.position.past cs }

def atEnd : Bool := r.source.length ≤ r.offset

/-- The character at a distance from the offset, if the text reaches that far. -/
def peek (distance : Int) : Option Char :=
  let index := r.offset + distance
  if index < 0 then none else r.source[index.toNat]?

/-- Takes the next character. An offset in front of the text counts from the end of the text. -/
def next : Except Fault (Char × Reader) :=
  if r.atEnd then .error (.pastEnd r.offset r.position.line)
  else
    let index := if r.offset < 0 then r.source.length + r.offset else r.offset
    if index < 0 then .error .beforeStart
    else
      match r.source[index.toNat]? with
      | some c => .ok (c, r.past [c])
      | none => .error .beforeStart

def takeRun (p : Char → Bool) : List Char × Reader :=
  (r.rest.takeWhile p, r.past (r.rest.takeWhile p))

def skipLayout : Reader := r.past (r.rest.takeWhile isLayout)

def takeSymbol : Option Token × Reader :=
  match symbol? r.rest with
  | some l => (some ⟨l.kind, String.ofList l.text, r.position⟩, r.past l.text)
  | none => (none, r)

/-- Takes the next token. Where no text is ahead that is the end of the text, however often it is
asked for. -/
def takeToken : Token × Reader :=
  let r := r.skipLayout
  match r.rest with
  | [] => (.finish r.position, r)
  | c :: cs =>
    let l := lexeme c cs
    (⟨l.kind, String.ofList l.text, r.position⟩, r.past l.text)

def lexed : Lexed := lex r.position r.rest

def takeAll : List Token × Reader := (r.lexed.all, r.past r.rest)

inductive Call where
  | next
  | peek (distance : Int)
  | atEnd
  | skipLayout
  | symbol
  | letters
  | digits
  | token
  | all
deriving DecidableEq, Repr

inductive Answer where
  | done
  | flag (b : Bool)
  | character (c : Char)
  | ahead (c : Option Char)
  | run (cs : List Char)
  | symbol (t : Option Token)
  | token (t : Token)
  | tokens (ts : List Token)
  | fault (f : Fault)
deriving DecidableEq, Repr

/-- One step of a session: the answer to a call, and the reader after it. A refused call leaves the
reader where it was. -/
def step : Call → Answer × Reader
  | .next =>
    match r.next with
    | .ok (c, r') => (.character c, r')
    | .error f => (.fault f, r)
  | .peek distance => (.ahead (r.peek distance), r)
  | .atEnd => (.flag r.atEnd, r)
  | .skipLayout => (.done, r.skipLayout)
  | .symbol => let (t, r') := r.takeSymbol; (.symbol t, r')
  | .letters => let (cs, r') := r.takeRun isLetter; (.run cs, r')
  | .digits => let (cs, r') := r.takeRun Char.isDigit; (.run cs, r')
  | .token => let (t, r') := r.takeToken; (.token t, r')
  | .all => let (ts, r') := r.takeAll; (.tokens ts, r')

end Reader

end MonkeySyntax
