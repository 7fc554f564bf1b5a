import MonkeySyntax.Shell.Batch
import MonkeySyntax.Shell.Options
import MonkeySyntax.Shell.Prompt

namespace MonkeySyntax

inductive Task where
  | dialogue (mode : Option Mode)
  | request (r : Request)
deriving DecidableEq, Repr

def Options.task (o : Options) : Task :=
  match o.repl, o.source with
  | false, some source => .request ⟨source, o.inline, .ofFlags o.tokens o.json⟩
  | _, _ => .dialogue o.mode

inductive Finish where
  | status (n : Nat)
  | exit (n : Nat)
deriving DecidableEq, Repr

def Detour.outcome : Detour → Outcome Finish
  | .help => do
    Outcome.write (.out helpText)
    return .exit 0
  | .refused r => do
    Outcome.write (.err usageText)
    Outcome.complain s!"monkey: error: {r.message}"
    return .exit 2

/-- Does a task. The status of a dialogue is always zero. -/
def Task.run (m : Machine) (files : Files) (entries : List Entry) : Task → Outcome Finish
  | .dialogue (some mode) => do
    MonkeySyntax.dialogue m mode entries
    return .status 0
  | .dialogue none => Outcome.fail (.unknownMode none)
  | .request r => do
    let status ← r.run m files
    return .status status

structure Report where
  out : String
  err : String
  result : Except Failure Finish

def Outcome.report (verbose : Bool) (o : Outcome Finish) : Report :=
  ⟨o.out, o.err verbose, o.result⟩

/-- The whole command: what comes of the words of a command line, given what there is to read and
what comes in at the prompt. -/
def command (m : Machine) (files : Files) (entries : List Entry) (words : List String) : Report :=
  match Options.ofWords words with
  | .error d => d.outcome.report false
  | .ok o => (o.task.run m files entries).report o.verbose

end MonkeySyntax
