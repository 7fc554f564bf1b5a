import MonkeySyntax.Grammar.Defect
import MonkeySyntax.Token.Reader

/-!
# Productions

A production reads part of a text that is cut into tokens. It looks at two tokens, the current one
and the one behind it, and moves forward only. What it answers with is a value or a fault, and in
both cases a place: after a fault, reading goes on from where the production gave up.

All productions are made of four steps (look at the current token, look at the next one, advance,
fail) and two ways to repeat them, `iterate` and `many`.
-/

namespace MonkeySyntax

structure Cursor where
  /-- The tokens from the current one on, without the end of the text. -/
  rest : List Token
  stop : Position
  /-- The number of tokens from the current one on. It is kept at hand because every repetition
  asks for it. -/
  remaining : Nat := rest.length
  remaining_eq : remaining = rest.length := by rfl
deriving DecidableEq, Repr

namespace Cursor

def ofReader (r : Reader) : Cursor := { rest := r.lexed.tokens, stop := r.lexed.stop }

def ofString (source : String) : Cursor := ofReader (.ofString source)

/-- The current token. Behind the last token stands the end of the text, without end. -/
def current (c : Cursor) : Token := c.rest.headD (.finish c.stop)

def peek (c : Cursor) : Token := c.rest.tail.headD (.finish c.stop)

def advance (c : Cursor) : Cursor :=
  ⟨c.rest.tail, c.stop, c.remaining - 1, by simp [c.remaining_eq]⟩

/-- Moves to the nearest semicolon from the current token on, or to the end of the text. -/
def skipStatement (c : Cursor) : Cursor :=
  { rest := c.rest.dropWhile fun t => t.kind ≠ .semicolon && t.kind ≠ .eof, stop := c.stop }

/-- Cursors are equal when the same tokens are ahead and the text ends at the same place. -/
@[ext] theorem ext {c d : Cursor} (hrest : c.rest = d.rest) (hstop : c.stop = d.stop) : c = d := by
  obtain ⟨rest, stop, _, rfl⟩ := c
  obtain ⟨rest', stop', _, rfl⟩ := d
  cases hrest
  cases hstop
  rfl

theorem remaining_advance (c : Cursor) : c.advance.remaining = c.remaining - 1 := rfl

/-- Where a token other than the end of the text is current, there is a token left. -/
theorem remaining_pos {c : Cursor} (h : c.current.kind ≠ .eof) : 0 < c.remaining := by
  obtain ⟨_ | ⟨t, ts⟩, stop, _, rfl⟩ := c
  · exact absurd rfl h
  · exact Nat.succ_pos ts.length

end Cursor

abbrev Production (α : Type) := EStateM Fault Cursor α

namespace Production

def current : Production Token := fun c => .ok c.current c

def peek : Production Token := fun c => .ok c.peek c

def advance : Production Unit := fun c => .ok () c.advance

def fail (d : Defect) : Production α := fun c => .error (.defect d) c

/-- Moves to the next token if it is of the given kind, and stays and fails if not. -/
def expect (k : Kind) : Production Unit := do
  let t ← peek
  if t.kind = k then advance else fail (.unexpected k t)

def allow (k : Kind) : Production Unit := do
  let t ← peek
  if t.kind = k then advance

variable {α : Type}

/-- Takes steps from `a` on until one answers `none`. A step that answers with a value has to use
up tokens; one that does not is the last. -/
def iterate (step : α → Production (Option α)) (a : α) (c : Cursor) :
    EStateM.Result Fault Cursor α :=
  match step a c with
  | .error f c' => .error f c'
  | .ok none c' => .ok a c'
  | .ok (some b) c' => if c'.remaining < c.remaining then iterate step b c' else .ok b c'
termination_by c.remaining

/-- Collects the answers of `item` until it answers `none`. An item that is read has to use up
tokens; one that does not is the last. -/
def many (item : Production (Option α)) (c : Cursor) : EStateM.Result Fault Cursor (List α) :=
  match item c with
  | .error f c' => .error f c'
  | .ok none c' => .ok [] c'
  | .ok (some a) c' =>
    if c'.remaining < c.remaining then
      match many item c' with
      | .error f c'' => .error f c''
      | .ok as c'' => .ok (a :: as) c''
    else .ok [a] c'
termination_by c.remaining

end Production

end MonkeySyntax
