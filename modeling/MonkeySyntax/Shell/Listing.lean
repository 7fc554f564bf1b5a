import MonkeySyntax.Grammar.Program
import MonkeySyntax.Shell.Outcome
import MonkeySyntax.Tree.Text

namespace MonkeySyntax

/-- Reads a whole text and notes every defect in it, also where an oversized literal then puts an
end to reading. -/
def readProgram (m : Machine) (source : String) : Outcome Run := do
  let run := parseWithin m.nesting source
  forM run.defects fun d => Outcome.note "monkey_parser" s!"recorded parse error: {d.text}"
  match run.oversized with
  | some digits => Outcome.fail (.oversizedLiteral digits)
  | none => return run

def listTokens (source : String) : Outcome Unit := do
  forM (lex .start source.toList).tokens fun t => Outcome.say t.debug
  Outcome.say "Encountered EOF."

/-- Lists the statements of a text, then its defects. Of the statements in front of one that is too
deep each is listed. -/
def listProgram (m : Machine) (source : String) : Outcome Unit := do
  let run ← readProgram m source
  forM run.statements fun s => do
    let text ← Outcome.require .tooDeep (s.text? m.textDepth)
    Outcome.say text
  unless run.defects.isEmpty do
    Outcome.say "[error] >>> parser errors:"
    forM run.defects fun d => Outcome.say s!"\t{d.text}"

inductive Mode where
  | tokens
  | parse
deriving DecidableEq, Repr

namespace Mode

def name : Mode → String
  | .tokens => "tokens"
  | .parse => "parse"

def ofName? (s : String) : Option Mode :=
  [tokens, parse].find? (·.name == s)

def list (m : Machine) : Mode → String → Outcome Unit
  | .tokens => listTokens
  | .parse => listProgram m

theorem ofName?_name (m : Mode) : ofName? m.name = some m := by
  cases m <;> decide

end Mode

end MonkeySyntax
