import MonkeySyntax.Shell.Listing
import MonkeySyntax.Tree.Document

namespace MonkeySyntax

inductive Form where
  | tokens
  | text
  | json
deriving DecidableEq, Repr

def Form.ofFlags (tokens json : Bool) : Form :=
  if tokens then .tokens else if json then .json else .text

/-- The line of a token: its place, its kind and its quoted literal, with tabs between them. -/
def tokenLine (t : Token) : String :=
  s!"{t.position.line}:{t.position.column}\t{t.kind.name}\t{quoted t.literal}"

def presentTokens (source : String) : Outcome Nat := do
  forM (tokenize source) fun t => Outcome.say (tokenLine t)
  return 0

def presentProgram (m : Machine) (render? : Program → Option String) (source : String) :
    Outcome Nat := do
  let run ← readProgram m source
  Outcome.note "monkey_cli"
    s!"parsed {run.statements.length} statement(s), {run.defects.length} error(s)"
  let text ← Outcome.require .tooDeep (render? run.program)
  Outcome.say text
  forM run.defects fun d => Outcome.complain s!"error: {d.text}"
  return if run.defects.isEmpty then 0 else 1

/-- Writes a text in a form. The value is the status, one where there are defects. -/
def present (m : Machine) : Form → String → Outcome Nat
  | .tokens => presentTokens
  | .text => presentProgram m fun p => p.text? m.textDepth
  | .json => presentProgram m fun p => (p.document? m.documentDepth).map Json.pretty

/-- What there is to read: the bytes of a file by its name. -/
abbrev Files := String → Except FileFault (List UInt8)

def sourceEnding : List Char := ".monkey".toList

def readSource (files : Files) (name : String) : Outcome String := do
  unless sourceEnding.isSuffixOf name.toList do Outcome.fail .unsupportedFile
  Outcome.note "monkey_cli" s!"reading {name}"
  if name.toList.contains '\x00' then Outcome.fail .nullInName
  match files name with
  | .error fault => Outcome.fail (.unreadableFile name fault)
  | .ok bytes =>
    match Utf8.decode bytes with
    | .error fault => Outcome.fail (.undecodable fault)
    | .ok cs => return String.ofList (unifyNewlines cs)

structure Request where
  /-- The text itself, or the name of the file that holds it. -/
  source : String
  inline : Bool
  form : Form
deriving DecidableEq, Repr

def Request.run (m : Machine) (files : Files) (r : Request) : Outcome Nat := do
  let text ← if r.inline then pure r.source else readSource files r.source
  present m r.form text

end MonkeySyntax
