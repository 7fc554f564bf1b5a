import MonkeySyntax.Grammar.Expression

/-!
# Programs

A program is read statement by statement. Where a statement has a defect, the defect is recorded
and reading goes on one token behind the place where the statement was given up; where expressions
are nested too deeply, the rest of the statement is dropped first. So one run over a text finds all
its defects, in the order of the text.
-/

namespace MonkeySyntax

structure Run where
  /-- The statements that were read and the defects that were found, in the order of the text. -/
  outcomes : List (Except Defect Node)
  cursor : Cursor
  /-- The number of digits of the literal that put an end to reading, if one did. -/
  oversized : Option Nat

namespace Run

def statements (r : Run) : List Node :=
  r.outcomes.filterMap fun
    | .ok s => some s
    | .error _ => none

def defects (r : Run) : List Defect :=
  r.outcomes.filterMap fun
    | .ok _ => none
    | .error d => some d

def program (r : Run) : Program := ⟨r.statements⟩

/-- Whether no statement was given up because expressions are nested too deeply. -/
def withinLimit (r : Run) : Bool := r.defects.all fun d => !d.isNesting

def clean (r : Run) : Bool := r.defects.isEmpty && r.oversized.isNone

def cons (o : Except Defect Node) (r : Run) : Run := { r with outcomes := o :: r.outcomes }

end Run

/-- One attempt at a statement: the statement or the defect, or the number of digits of an
oversized literal, and the place where reading goes on. -/
def attempt (statement : Production Node) (c : Cursor) : Except Nat (Except Defect Node) × Cursor :=
  match statement c with
  | .ok s c' => (.ok (.ok s), c'.advance)
  | .error (.defect d) c' =>
    let stopped := if d.isNesting then c'.skipStatement else c'
    (.ok (.error d), stopped.advance)
  | .error (.oversizedLiteral n) c' => (.error n, c')

def runFrom (statement : Production Node) (c : Cursor) : Run :=
  if c.current.kind = .eof then ⟨[], c, none⟩
  else
    match attempt statement c with
    | (.error n, c') => ⟨[], c', some n⟩
    | (.ok o, c') =>
      -- an attempt always moves on, so the other branch is never taken
      if c'.remaining < c.remaining then (runFrom statement c').cons o else ⟨[o], c', none⟩
termination_by c.remaining

def Production.statementWithin (rules : Rules) (limit : Nat) : Production Node :=
  statement (expression rules limit)

def parseWithin (limit : Nat) (source : String) : Run :=
  runFrom (Production.statementWithin .standard limit) (.ofString source)

end MonkeySyntax
