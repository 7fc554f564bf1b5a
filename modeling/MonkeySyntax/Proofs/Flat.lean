import Mathlib.Data.List.TakeWhile
import MonkeySyntax.Proofs.Chain

namespace MonkeySyntax

open Production

/-- A single token with any number of calls behind it that have no arguments. -/
structure Operand.IsFlat (o : Operand) : Prop where
  signs_eq : o.signs = []
  length_body : o.body.length = 1
  inner_eq : ∀ a ∈ o.calls, a.inner = []

theorem Operand.IsFlat.tokens_eq {o : Operand} (h : o.IsFlat) {t : Token} (ht : o.body = [t]) :
    o.tokens = t :: o.calls.flatMap Arguments.tokens := by
  rw [Operand.tokens, h.signs_eq, ht]
  rfl

structure Chain.IsFlat (c : Chain) : Prop where
  first : c.first.IsFlat
  links : ∀ l ∈ c.links, l.operand.IsFlat

/-- What stands in front of the expression of a statement. -/
inductive Opening where
  | plain
  | binding (word name assign : Token) (hword : word.kind = .wordLet) (hname : name.kind = .ident)
      (hassign : assign.kind = .assign)
  | returning (word : Token) (hword : word.kind = .wordReturn)

def Opening.tokens : Opening → List Token
  | .plain => []
  | .binding word name assign .. => [word, name, assign]
  | .returning word _ => [word]

structure Sentence where
  opening : Opening
  chain : Chain
  ending : List Token
  isFlat : chain.IsFlat
  isEnding : ending = [] ∨ ∃ t : Token, t.kind = .semicolon ∧ ending = [t]

def Sentence.words (s : Sentence) : List Token :=
  s.opening.tokens ++ s.chain.tokens

def Sentence.tokens (s : Sentence) : List Token :=
  s.words ++ s.ending

def Chain.head (c : Chain) : Token :=
  c.tokens.headD (.finish .nowhere)

def Sentence.tree (s : Sentence) : Node :=
  match s.opening with
  | .plain => .expressionStatement s.chain.head s.chain.tree
  | .binding word name .. => .letStatement word (.identifier name name.literal) s.chain.tree
  | .returning word _ => .returnStatement word s.chain.tree

theorem Chain.tokens_eq (c : Chain) : c.tokens = c.head :: c.tokens.tail := by
  obtain ⟨k, hspells⟩ := c.spells
  unfold Chain.head
  cases htokens : c.tokens with
  | nil => exact absurd htokens hspells.ne_nil_of_expression
  | cons t ts => rfl

theorem Sentence.spells (s : Sentence) : Spells (.statement s.tree) s.words := by
  obtain ⟨opening, chain, ending, -, -⟩ := s
  obtain ⟨k, hspells⟩ := chain.spells
  cases opening with
  | plain =>
    rw [chain.tokens_eq] at hspells
    have h := Spells.expressionStatement hspells
    rw [← chain.tokens_eq] at h
    exact h
  | binding word name assign hword hname hassign =>
    exact Spells.letStatement hword hname hassign hspells
  | returning word hword => exact Spells.returnStatement hword hspells

def StartsFlat (ts : List Token) : Prop :=
  nextKind ts ∈ [Kind.eof, .ident, .int, .wordTrue, .wordFalse, .wordLet, .wordReturn]

theorem StartsFlat.apart {ts : List Token} (h : StartsFlat ts) : Apart ts := by
  revert h
  unfold StartsFlat Apart
  cases nextKind ts <;> decide

namespace Production

variable {α β : Type} {sub : Nat → Production Node} {level : Nat} {t : Token}
  {ts us vs : List Token}

/-- In front of `ts` the production `x` reads something, and behind its last token there is `us`. -/
def Reads (x : Production α) (ts us : List Token) : Prop :=
  ∀ stop, ∃ a t, x (.before ts stop) = .ok a (.before (t :: us) stop)

/-- Whether a production goes on to read up to `us` from each place in front of `ts`, with any
operand to its left. -/
def ReadsOn (x : Node → Production Node) (ts us : List Token) : Prop :=
  ∀ left t, Reads (x left) (t :: ts) us

theorem Reads.of_step {x y : Production α} (hx : ∀ stop, x (.before ts stop) = y (.before us stop))
    (h : Reads y us vs) : Reads x ts vs := by
  intro stop
  rw [hx stop]
  exact h stop

theorem Reads.bind {x : Production α} {f : α → Production β} (h : Reads x ts us)
    (h' : ∀ a t, Reads (f a) (t :: us) vs) : Reads (x >>= f) ts vs := by
  intro stop
  obtain ⟨a, t, hx⟩ := h stop
  rw [bind_of_ok hx]
  exact h' a t stop

theorem Reads.expect {k : Kind} {f : Unit → Production α} {u : Token} (ht : t.kind = k)
    (h : Reads (f ()) (t :: ts) us) : Reads (expect k >>= f) (u :: t :: ts) us := by
  refine Reads.of_step (fun stop => bind_of_ok ?_) h
  rw [expect_eq]
  exact if_pos ht

theorem Reads.operand {k : Kind} (ht : t.kind = k) (hk : k.StartsExpression)
    (h : Reads (primary sub k) (t :: ts) us) : Reads (operand sub .standard) (t :: ts) us := by
  subst ht
  refine Reads.of_step (fun stop => ?_) h
  rw [operand_eq]
  exact if_pos hk

/-- The repetition takes one operator or call, and goes on behind it. -/
theorem ReadsOn.next {op : Token} (hop : op.kind ∈ Rules.standard.operatorKinds)
    (hlevel : level < op.kind.precedence.level) (hle : us.length ≤ ts.length)
    (h : ∀ left, Reads (if op.kind = .lparen then call sub left else binary sub left) (op :: ts) us)
    (h' : ReadsOn (extend sub .standard level) us vs) :
    ReadsOn (extend sub .standard level) (op :: ts) vs := by
  intro left t stop
  have hsemicolon : op.kind ≠ .semicolon := by
    intro heq
    rw [heq] at hop
    exact absurd hop (by decide)
  obtain ⟨n, u, hn⟩ := h left stop
  have hstep : continuation sub .standard level left (.before (t :: op :: ts) stop) =
      .ok (some n) (.before (u :: us) stop) := by
    rw [continuation_eq]
    exact (if_pos ⟨hsemicolon, hlevel, hop⟩).trans (bind_of_ok hn)
  have hlt : (Cursor.before (u :: us) stop).remaining <
      (Cursor.before (t :: op :: ts) stop).remaining := by
    change us.length + 1 < ts.length + 1 + 1
    omega
  obtain ⟨m, v, hm⟩ := h' n u stop
  exact ⟨m, v, (iterate_of_some hstep hlt).trans hm⟩

end Production

/-- One expression less is too few for operators of all four levels. -/
example : (parseWithin 4 "a == b < c + d * e").defects =
    [.nestedTooDeeply ⟨.ident, "e", ⟨1, 18⟩⟩] := by decide +kernel

end MonkeySyntax
