import MonkeySyntax.Shell.Listing

namespace MonkeySyntax

def isWhite (c : Char) : Bool :=
  let n := c.toNat
  (0x09 ≤ n && n ≤ 0x0D) || (0x1C ≤ n && n ≤ 0x20) || n == 0x85 || n == 0xA0 || n == 0x1680 ||
    (0x2000 ≤ n && n ≤ 0x200A) || n == 0x2028 || n == 0x2029 || n == 0x202F || n == 0x205F ||
    n == 0x3000

def strip (s : String) : String :=
  let front := s.toList.dropWhile isWhite
  String.ofList (front.reverse.dropWhile isWhite).reverse

example : strip "  a b\t" = "a b" := by decide

inductive Entry where
  | line (text : String)
  | interrupt
deriving DecidableEq, Repr

inductive Order where
  | nothing
  | leave
  | switchTo (mode : Mode)
  | unknown (text : String)
  | list (text : String)
deriving DecidableEq, Repr

/-- What a line asks for, white space at its ends apart: a word of farewell, a colon and the name
of a mode, or a text to be listed. -/
def Order.ofLine (line : String) : Order :=
  let text := strip line
  if text = "" then .nothing
  else if text = "exit" ∨ text = "quit" then .leave
  else
    match text.toList with
    | ':' :: name =>
      match Mode.ofName? (String.ofList name) with
      | some mode => .switchTo mode
      | none => .unknown text
    | _ => .list text

/-- What is written about one entry, and the mode in which the dialogue goes on, if it does. -/
structure Turn where
  written : List Piece
  next : Option Mode
deriving DecidableEq, Repr

/-- The listing of a text. The account of a failure is written behind what was listed before it. -/
def listing (m : Machine) (mode : Mode) (text : String) : List Piece :=
  let o := mode.list m text
  match o.result with
  | .ok () => o.written
  | .error f => o.written ++ [.out s!"[error] >>>\n{m.traceback text f}\n"]

def farewell : String := "Exiting Monkey REPL.\n"

def Order.turn (m : Machine) (mode : Mode) : Order → Turn
  | .nothing => ⟨[], some mode⟩
  | .leave => ⟨[.out farewell], none⟩
  | .switchTo mode => ⟨[.out s!"[mode] >>> {mode.name}\n"], some mode⟩
  | .unknown text => ⟨[.out s!"[error] >>> Unknown command: {text}\n"], some mode⟩
  | .list text => ⟨listing m mode text, some mode⟩

/-- The turn that breaks off a dialogue; the cursor still stands behind the prompt. -/
def Turn.last : Turn := ⟨[.out ("\n" ++ farewell)], none⟩

def Entry.turn (m : Machine) (mode : Mode) : Entry → Turn
  | .line text => (Order.ofLine text).turn m mode
  | .interrupt => .last

/-- The turns of a dialogue that starts in a mode. The last one of them ends it, and entries behind
that are not looked at. -/
def turns (m : Machine) (mode : Mode) : List Entry → List Turn
  | [] => [.last]
  | e :: es =>
    let t := e.turn m mode
    match t.next with
    | none => [t]
    | some mode => t :: turns m mode es

def promptText : String := ">> "

def opening (mode : Mode) : String :=
  s!"Monkey REPL v.0.1 [mode={mode.name}]\nType 'exit' or 'quit' to leave.\n"

def dialogue (m : Machine) (mode : Mode) (entries : List Entry) : Outcome Unit :=
  ⟨.out (opening mode) :: (turns m mode entries).flatMap fun t => .out promptText :: t.written,
    .ok ()⟩

def dialogueIn (m : Machine) (mode : String) (entries : List Entry) : Outcome Unit :=
  match Mode.ofName? mode with
  | some mode => dialogue m mode entries
  | none => Outcome.fail (.unknownMode (some mode))

end MonkeySyntax
