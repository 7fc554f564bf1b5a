import MonkeySyntax.Grammar.Defect
import MonkeySyntax.Text.Utf8

namespace MonkeySyntax

structure FileFault where
  code : Nat
  reason : String
deriving DecidableEq, Repr

inductive Failure where
  | unsupportedFile
  | nullInName
  | unreadableFile (name : String) (fault : FileFault)
  | undecodable (fault : Utf8.Fault)
  | oversizedLiteral (digits : Nat)
  | tooDeep
  | unknownMode (name : Option String)
deriving DecidableEq, Repr

namespace Failure

def sort : Failure → String
  | .unreadableFile _ fault =>
    match fault.code with
    | 2 => "FileNotFoundError"
    | 13 => "PermissionError"
    | 20 => "NotADirectoryError"
    | 21 => "IsADirectoryError"
    | _ => "OSError"
  | .undecodable _ => "UnicodeDecodeError"
  | .tooDeep => "RecursionError"
  | .unsupportedFile | .nullInName | .oversizedLiteral _ | .unknownMode _ => "ValueError"

/-- The wording of a failure; of a tree that is too deep there is nothing more to say. -/
def message? : Failure → Option String
  | .unsupportedFile => some "Only .monkey files are supported."
  | .nullInName => some "embedded null byte"
  | .unreadableFile name fault => some s!"[Errno {fault.code}] {fault.reason}: {quoted name}"
  | .undecodable fault => some fault.message
  | .oversizedLiteral digits => some (oversizedMessage digits)
  | .tooDeep => none
  | .unknownMode name =>
    -- a name that is missing is shown as an empty list
    let shown := (name.map quoted).getD "[]"
    some s!"Unknown REPL mode: {shown} (expected one of ('tokens', 'parse'))"

def text (f : Failure) : String :=
  match f.message? with
  | some message => f.sort ++ ": " ++ message
  | none => f.sort

end Failure

/-- What a command owes to the machine that carries it out: how far the stack reaches, which bounds
reading and each way of writing a tree on its own, and the account of a failure. -/
structure Machine where
  nesting : Nat
  textDepth : Nat
  documentDepth : Nat
  /-- The account of a failure that is met in a text: the way to the place where it arose, and what
  it is. -/
  traceback : String → Failure → String

inductive Piece where
  | out (text : String)
  | err (text : String)
  /-- Goes to standard error if notes are asked for, nowhere otherwise. -/
  | note (text : String)
deriving DecidableEq, Repr

namespace Piece

def toOut : Piece → String
  | .out text => text
  | .err _ | .note _ => ""

def toErr (verbose : Bool) : Piece → String
  | .out _ => ""
  | .err text => text
  | .note text => if verbose then text else ""

end Piece

structure Outcome (α : Type) where
  written : List Piece
  result : Except Failure α

namespace Outcome

/-- One command after another: the second one is only carried out if the first one did not fail. -/
def andThen (o : Outcome α) (f : α → Outcome β) : Outcome β :=
  match o.result with
  | .error e => ⟨o.written, .error e⟩
  | .ok a =>
    let next := f a
    ⟨o.written ++ next.written, next.result⟩

instance : Monad Outcome where
  pure a := ⟨[], .ok a⟩
  bind := andThen

def write (p : Piece) : Outcome Unit := ⟨[p], .ok ()⟩

def say (line : String) : Outcome Unit := write (.out (line ++ "\n"))

def complain (line : String) : Outcome Unit := write (.err (line ++ "\n"))

def note (part line : String) : Outcome Unit :=
  write (.note s!"DEBUG monkey.{part}: {line}\n")

def fail (f : Failure) : Outcome α := ⟨[], .error f⟩

def require (f : Failure) : Option α → Outcome α
  | some a => pure a
  | none => fail f

def out (o : Outcome α) : String := String.join (o.written.map Piece.toOut)

def err (verbose : Bool) (o : Outcome α) : String :=
  String.join (o.written.map (Piece.toErr verbose))

@[simp] theorem written_pure (a : α) : (pure a : Outcome α).written = [] := rfl

@[simp] theorem result_pure (a : α) : (pure a : Outcome α).result = .ok a := rfl

theorem pure_bind (a : α) (f : α → Outcome β) : pure a >>= f = f a := rfl

theorem bind_of_ok {o : Outcome α} {a : α} (h : o.result = .ok a) (f : α → Outcome β) :
    o >>= f = ⟨o.written ++ (f a).written, (f a).result⟩ := by
  change o.andThen f = _
  simp only [andThen, h]

theorem write_bind (p : Piece) (f : Unit → Outcome α) :
    write p >>= f = ⟨p :: (f ()).written, (f ()).result⟩ :=
  bind_of_ok rfl f

/-- One piece written for each element of a list. -/
theorem forM_write (l : List α) (p : α → Piece) :
    (forM l fun a => write (p a)) = ⟨l.map p, .ok ()⟩ := by
  induction l with
  | nil => rfl
  | cons a l ih =>
    rw [List.forM_cons, write_bind, ih]
    rfl

end Outcome

end MonkeySyntax
