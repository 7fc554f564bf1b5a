import MonkeySyntax.Shell.Command

namespace MonkeySyntax

/-- A failure without the way to the place where it arose. -/
def Failure.account (f : Failure) : String := s!"Traceback (most recent call last):\n{f.text}\n"

/-- The limits of this program, which are its own choice. -/
def Machine.plain : Machine where
  nesting := 500
  textDepth := 500
  documentDepth := 500
  traceback _ f := f.account

def Piece.print (verbose : Bool) (p : Piece) : IO Unit := do
  let stdout ← IO.getStdout
  stdout.putStr p.toOut
  stdout.flush
  (← IO.getStderr).putStr (p.toErr verbose)

def FileFault.ofError : IO.Error → FileFault
  | .noFileOrDirectory .. => ⟨2, "No such file or directory"⟩
  | .permissionDenied .. => ⟨13, "Permission denied"⟩
  | .inappropriateType .. => ⟨21, "Is a directory"⟩
  | e => ⟨5, toString e⟩

/-- The files of which one is read here, because a command does not read any by itself. -/
def Files.having (name : String) : IO Files := do
  try
    let bytes ← IO.FS.readBinFile name
    return fun _ => .ok bytes.toList
  catch e => return fun _ => .error (.ofError e)

partial def converse (verbose : Bool) (mode : Mode) : IO Unit := do
  Piece.print verbose (.out promptText)
  let line ← (← IO.getStdin).getLine
  let turn := if line.isEmpty then .last else (Entry.line line).turn .plain mode
  forM turn.written (Piece.print verbose)
  match turn.next with
  | some mode => converse verbose mode
  | none => return

def Outcome.print (verbose : Bool) (o : Outcome Finish) : IO UInt32 := do
  forM o.written (Piece.print verbose)
  match o.result with
  | .ok (.status n) | .ok (.exit n) => return n.toUInt32
  | .error f =>
    Piece.print verbose (.err f.account)
    return 1

end MonkeySyntax

open MonkeySyntax in
def main (words : List String) : IO UInt32 := do
  match Options.ofWords words with
  | .error d => d.outcome.print false
  | .ok o =>
    match o.task with
    | .request r =>
      let files ← if r.inline then pure (fun _ => .ok []) else Files.having r.source
      (Task.run .plain files [] (.request r)).print o.verbose
    | .dialogue (some mode) =>
      Piece.print o.verbose (.out (opening mode))
      converse o.verbose mode
      return 0
    | .dialogue none => (Task.run .plain (fun _ => .ok []) [] (.dialogue none)).print o.verbose
