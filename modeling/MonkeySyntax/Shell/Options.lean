import MonkeySyntax.Shell.Listing

/-!
# The words of a command line

A word with a dash in front is an option, written as a letter, as several letters together, of which
the first may be set off by an equals sign, or as a name after two dashes that may be cut short
while only one option starts so. Other words are arguments, and so are a single dash, negative
numbers, everything with a blank in it that is no option, and all words behind two dashes. The first
argument is the source. What has no place is collected and refused at the end, after all options
have had their say.
-/

namespace MonkeySyntax

/-- The code points of the zeros of general category Nd in edition 14 of the Unicode character
database. -/
def decimalZeros : List Nat :=
  [0x30, 0x660, 0x6F0, 0x7C0, 0x966, 0x9E6, 0xA66, 0xAE6,
   0xB66, 0xBE6, 0xC66, 0xCE6, 0xD66, 0xDE6, 0xE50, 0xED0,
   0xF20, 0x1040, 0x1090, 0x17E0, 0x1810, 0x1946, 0x19D0, 0x1A80,
   0x1A90, 0x1B50, 0x1BB0, 0x1C40, 0x1C50, 0xA620, 0xA8D0, 0xA900,
   0xA9D0, 0xA9F0, 0xAA50, 0xABF0, 0xFF10, 0x104A0, 0x10D30, 0x11066,
   0x110F0, 0x11136, 0x111D0, 0x112F0, 0x11450, 0x114D0, 0x11650, 0x116C0,
   0x11730, 0x118E0, 0x11950, 0x11C50, 0x11D50, 0x11DA0, 0x16A60, 0x16AC0,
   0x16B50, 0x1D7CE, 0x1D7D8, 0x1D7E2, 0x1D7EC, 0x1D7F6, 0x1E140, 0x1E2F0,
   0x1E950, 0x1FBF0]

def isDecimal (c : Char) : Bool :=
  decimalZeros.any fun z => z ≤ c.toNat && c.toNat < z + 10

inductive Flag where
  | help
  | string
  | tokens
  | json
  | repl
  | verbose
deriving DecidableEq, Repr

inductive Switch where
  | flag (f : Flag)
  | mode
deriving DecidableEq, Repr

namespace Switch

def all : List Switch :=
  [.flag .help, .flag .string, .flag .tokens, .flag .json, .flag .repl, .mode, .flag .verbose]

def name : Switch → String
  | .flag .help => "--help"
  | .flag .string => "--string"
  | .flag .tokens => "--tokens"
  | .flag .json => "--json"
  | .flag .repl => "--repl"
  | .mode => "--mode"
  | .flag .verbose => "--verbose"

end Switch

namespace Flag

def letter? : Flag → Option Char
  | .help => some 'h'
  | .string => some 's'
  | .tokens => some 't'
  | .json => some 'j'
  | .repl | .verbose => none

def ofLetter? (c : Char) : Option Flag :=
  [help, string, tokens, json].find? (·.letter? == some c)

end Flag

def Switch.label (s : Switch) : String :=
  match s with
  | .flag f =>
    match f.letter? with
    | some c => "-" ++ c.toString ++ "/" ++ s.name
    | none => s.name
  | .mode => s.name

inductive Refusal where
  | ambiguous (word : String) (candidates : List Switch)
  | ignoredValue (s : Switch) (value : String)
  | missingValue (s : Switch)
  | invalidMode (value : String)
  | conflict (later earlier : Flag)
  | unrecognized (words : List String)
deriving DecidableEq, Repr

def Refusal.message : Refusal → String
  | .ambiguous word candidates =>
    let names := ", ".intercalate (candidates.map Switch.name)
    s!"ambiguous option: {word} could match {names}"
  | .ignoredValue s value => s!"argument {s.label}: ignored explicit argument {quoted value}"
  | .missingValue s => s!"argument {s.label}: expected one argument"
  | .invalidMode value =>
    s!"argument {Switch.mode.label}: invalid choice: {quoted value} (choose from 'tokens', 'parse')"
  | .conflict later earlier =>
    let (later, earlier) := (Switch.flag later, Switch.flag earlier)
    s!"argument {later.label}: not allowed with argument {earlier.label}"
  | .unrecognized words => "unrecognized arguments: " ++ " ".intercalate words

inductive Word where
  | argument (text : String)
  | terminator
  /-- A flag by its letter, with the characters that follow in the same word, if there are any. Of
  an equals sign right behind the letter only what follows it counts. -/
  | letter (f : Flag) (attached : Option (List Char))
  | named (s : Switch) (value : Option String)
  | unknown (text : String)
deriving DecidableEq, Repr

namespace Word

/-- Whether the characters behind a dash make it a negative number: digits of any script, with or
without a point that digits follow. One line feed may end the word. -/
def isNumeral (cs : List Char) : Bool :=
  let digits := if cs.getLast? = some '\n' then cs.dropLast else cs
  match digits.dropWhile isDecimal with
  | [] => !digits.isEmpty
  | '.' :: places => !places.isEmpty && places.all isDecimal
  | _ => false

def ofOther (cs : List Char) : Word :=
  let text := String.ofList ('-' :: cs)
  if isNumeral cs || cs.contains ' ' then .argument text else .unknown text

def candidates (cs : List Char) : List Switch :=
  Switch.all.filter fun s => cs.isPrefixOf s.name.toList

def ofName (cs : List Char) : Except Refusal Word :=
  let name := cs.takeWhile (· != '=')
  let value := (cs.dropWhile (· != '=')).tail?.map String.ofList
  match candidates name with
  | [] => .ok (ofOther cs.tail)
  | [s] => .ok (.named s value)
  | several => .error (.ambiguous (String.ofList cs) several)

def attachment : (cs : List Char) → Option (List Char)
  | [] => none
  | '=' :: cs => some cs
  | cs => some cs

def ofText (text : String) : Except Refusal Word :=
  match text.toList with
  | '-' :: '-' :: _ => ofName text.toList
  | '-' :: c :: rest =>
    match Flag.ofLetter? c with
    | some f => .ok (.letter f (attachment rest))
    | none => .ok (ofOther (c :: rest))
  | _ => .ok (.argument text)

/-- All words. Behind a terminator each is an argument, another pair of dashes too. -/
def ofTexts : List String → Except Refusal (List Word)
  | [] => .ok []
  | text :: texts =>
    if text = "--" then .ok (.terminator :: texts.map .argument)
    else do
      let word ← ofText text
      return word :: (← ofTexts texts)

end Word

structure Options where
  source : Option String := none
  inline : Bool := false
  tokens : Bool := false
  json : Bool := false
  repl : Bool := false
  /-- The mode of the prompt. There is none after two dashes in place of its name. -/
  mode : Option Mode := some .tokens
  verbose : Bool := false
deriving DecidableEq, Repr

inductive Detour where
  | help
  | refused (r : Refusal)
deriving DecidableEq, Repr

/-- The flags written together in one word: `f` and those whose letters follow it. Where a character
is the letter of no flag, the rest of the word is a value for a flag that takes none. -/
def lettersFrom (f : Flag) : List Char → Except Detour (List Flag)
  | [] => .ok [f]
  | c :: rest =>
    match Flag.ofLetter? c with
    | none => .error (.refused (.ignoredValue (.flag f) (String.ofList (c :: rest))))
    | some g => do return f :: (← lettersFrom g rest)

/-- The flags of a word that starts with `f`. An equals sign with nothing behind it attaches a value
too, an empty one. -/
def cluster (f : Flag) : (attached : Option (List Char)) → Except Detour (List Flag)
  | none => .ok [f]
  | some [] => .error (.refused (.ignoredValue (.flag f) ""))
  | some cs => lettersFrom f cs

namespace Options

def set (o : Options) : Flag → Except Detour Options
  | .help => .error .help
  | .string => .ok { o with inline := true }
  | .tokens =>
    if o.json then .error (.refused (.conflict .tokens .json)) else .ok { o with tokens := true }
  | .json =>
    if o.tokens then .error (.refused (.conflict .json .tokens)) else .ok { o with json := true }
  | .repl => .ok { o with repl := true }
  | .verbose => .ok { o with verbose := true }

/-- Sets the mode by its name. Two dashes are a terminator here too: they are dropped, and no value
is left that could be refused. -/
def setMode (o : Options) (value : String) : Except Detour Options :=
  if value = "--" then .ok { o with mode := none }
  else
    match Mode.ofName? value with
    | some mode => .ok { o with mode := some mode }
    | none => .error (.refused (.invalidMode value))

/-- Takes one word after the other. Added to the options are the words without a place. A terminator
has its place in front of the source, right behind it, or where there is none. -/
def collect (o : Options) (extra : List String) :
    List Word → Except Detour (Options × List String)
  | [] => .ok (o, extra)
  | .argument text :: .terminator :: ws =>
    if o.source.isNone then collect { o with source := some text } extra ws
    else collect o (extra ++ [text, "--"]) ws
  | .argument text :: ws =>
    if o.source.isNone then collect { o with source := some text } extra ws
    else collect o (extra ++ [text]) ws
  | .terminator :: ws => collect o (if o.source.isNone then extra else extra ++ ["--"]) ws
  | .unknown text :: ws => collect o (extra ++ [text]) ws
  | .letter f attached :: ws => do
    let flags ← cluster f attached
    let o ← flags.foldlM set o
    collect o extra ws
  | .named (.flag f) (some value) :: _ => .error (.refused (.ignoredValue (.flag f) value))
  | .named (.flag f) none :: ws => do
    let o ← o.set f
    collect o extra ws
  | .named .mode (some value) :: ws => do
    let o ← o.setMode value
    collect o extra ws
  | .named .mode none :: .argument value :: ws => do
    let o ← o.setMode value
    collect o extra ws
  | .named .mode none :: _ => .error (.refused (.missingValue .mode))

def ofWords (texts : List String) : Except Detour Options := do
  let words ← (Word.ofTexts texts).mapError Detour.refused
  let (o, extra) ← collect {} [] words
  if extra.isEmpty then return o else .error (.refused (.unrecognized extra))

end Options

def usageText : String :=
  "usage: monkey [-h] [-s] [-t | -j] [--repl] [--mode \x7btokens,parse\x7d] [--verbose]\n" ++
    "              [source]\n"

def helpText : String :=
  usageText ++
    "\n" ++
    "positional arguments:\n" ++
    "  source                Filename or raw source (with -s)\n" ++
    "\n" ++
    "options:\n" ++
    "  -h, --help            show this help message and exit\n" ++
    "  -s, --string          Interpret source as literal string\n" ++
    "  -t, --tokens          Print the token stream\n" ++
    "  -j, --json            Print the AST as JSON\n" ++
    "  --repl                Launch the interactive REPL\n" ++
    "  --mode \x7btokens,parse\x7d\n" ++
    "                        Initial REPL mode (default: tokens)\n" ++
    "  --verbose             Enable debug logging\n"

example : (Options.ofWords ["-st", "a", "--mo", "parse"]).toOption =
    some { source := some "a", inline := true, tokens := true, mode := some .parse } := by
  decide +kernel

end MonkeySyntax
