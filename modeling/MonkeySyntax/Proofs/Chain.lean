import MonkeySyntax.Proofs.Reading
import MonkeySyntax.Tree.Text

/-!
# Chains of operands

An operand is a primary expression with signs in front of it and calls behind it. A chain is a row
of operands with operators between them. The tree of a chain is given by a rule that looks at the
chain as a whole: the last one of its weakest operators splits it in two. Reading finds this tree
from left to right, one operator at a time.
-/

namespace MonkeySyntax

open Production

structure Arguments where
  opening : Token
  trees : List Node
  inner : List Token
  closing : Token
  isOpening : opening.kind = .lparen
  spelled : Spells (.items .argument trees) inner
  isClosing : closing.kind = .rparen

/-- A primary expression with signs in front of it and calls behind it. -/
structure Operand where
  signs : List Token
  primary : Node
  body : List Token
  calls : List Arguments
  areSigns : ∀ t ∈ signs, t.kind = .bang ∨ t.kind = .minus
  spelled : Spells (.expression atomic primary) body

structure Link where
  operator : Token
  operand : Operand
  isBinary : operator.kind.IsBinary

structure Chain where
  first : Operand
  links : List Link

def Arguments.tokens (a : Arguments) : List Token :=
  a.opening :: (a.inner ++ [a.closing])

def Operand.tokens (o : Operand) : List Token :=
  o.signs ++ (o.body ++ o.calls.flatMap Arguments.tokens)

def Link.tokens (l : Link) : List Token :=
  l.operator :: l.operand.tokens

def Chain.tokens (c : Chain) : List Token :=
  c.first.tokens ++ c.links.flatMap Link.tokens

/-- The tree of an operand: the calls apply to the primary expression from left to right, and the
first sign is the outermost one. -/
def Operand.tree (o : Operand) : Node :=
  o.signs.foldr (fun t e => .unary t t.literal e)
    (o.calls.foldl (fun f a => .call a.opening f a.trees) o.primary)

def Link.level (l : Link) : Nat :=
  l.operator.kind.precedence.level

structure Split (ls : List Link) where
  before : List Link
  link : Link
  after : List Link
  eq_append : ls = before ++ link :: after
  weakest : ∀ l ∈ before, link.level ≤ l.level
  last : ∀ l ∈ after, link.level < l.level

theorem Split.link_mem {ls : List Link} (s : Split ls) : s.link ∈ ls := by
  have hmem : s.link ∈ s.before ++ s.link :: s.after :=
    List.mem_append_right _ List.mem_cons_self
  exact s.eq_append.symm.subst hmem

theorem Split.tokens_eq {ls : List Link} (s : Split ls) :
    ls.flatMap Link.tokens =
      s.before.flatMap Link.tokens ++ (s.link.tokens ++ s.after.flatMap Link.tokens) := by
  calc ls.flatMap Link.tokens
      = (s.before ++ s.link :: s.after).flatMap Link.tokens := congrArg _ s.eq_append
    _ = _ := by rw [List.flatMap_append, List.flatMap_cons]

/-- The last one of the weakest operators. -/
def lastWeakest (l : Link) : (ls : List Link) → Split (l :: ls)
  | [] => ⟨[], l, [], rfl, (fun _ h => nomatch h), (fun _ h => nomatch h)⟩
  | m :: ls =>
    let s := lastWeakest m ls
    if h : s.link.level ≤ l.level then
      { s with
        before := l :: s.before
        eq_append := congrArg (l :: ·) s.eq_append
        weakest := List.forall_mem_cons.2 ⟨h, s.weakest⟩ }
    else
      { before := []
        link := l
        after := m :: ls
        eq_append := rfl
        weakest := fun _ h => nomatch h
        last := by
          intro x hx
          rw [s.eq_append, List.mem_append, List.mem_cons] at hx
          -- the new operator is weaker than the weakest of the rest, so than all of the rest
          have hlt : l.level < s.link.level := Nat.lt_of_not_le h
          rcases hx with hx | rfl | hx
          · exact Nat.lt_of_lt_of_le hlt (s.weakest x hx)
          · exact hlt
          · exact Nat.lt_trans hlt (s.last x hx) }

/-- The tree of operands with operators between them: that of the last one of the weakest
operators, with the trees of what stands on either side of it as operands. -/
def treeOf (o : Operand) : List Link → Node
  | [] => o.tree
  | l :: ls =>
    let s := lastWeakest l ls
    .binary s.link.operator (treeOf o s.before) s.link.operator.literal
      (treeOf s.link.operand s.after)
termination_by ls => ls.length
decreasing_by
  all_goals
    have hlength := congrArg List.length (lastWeakest l ls).eq_append
    simp only [List.length_append, List.length_cons] at hlength ⊢
    omega

def Chain.tree (c : Chain) : Node :=
  treeOf c.first c.links

/-- What is called holds together as tightly as a callee has to, also after it was called. -/
theorem Spells.calls {k : Nat} {f : Node} {us : List Token} (hf : Spells (.expression k f) us)
    (hk : Precedence.call.level ≤ k) (as : List Arguments) :
    ∃ m, Precedence.call.level ≤ m ∧
      Spells (.expression m (as.foldl (fun f a => .call a.opening f a.trees) f))
        (us ++ as.flatMap Arguments.tokens) := by
  induction as generalizing k f us with
  | nil =>
    rw [List.flatMap_nil, List.append_nil]
    exact ⟨k, hk, hf⟩
  | cons a as ih =>
    -- the call is the callee of the calls behind it
    have hcall := Spells.call hf hk a.isOpening a.spelled a.isClosing
    rw [List.flatMap_cons, ← List.append_assoc]
    exact ih hcall (Nat.le_refl _)

/-- A sign needs an operand as strong as an operation with a sign, and makes another one. -/
theorem Spells.signs {k : Nat} {e : Node} {us ts : List Token} (he : Spells (.expression k e) us)
    (hk : Precedence.unary.level ≤ k) (hts : ∀ t ∈ ts, t.kind = .bang ∨ t.kind = .minus) :
    ∃ m, Precedence.unary.level ≤ m ∧
      Spells (.expression m (ts.foldr (fun t e => .unary t t.literal e) e)) (ts ++ us) := by
  induction ts with
  | nil => exact ⟨k, hk, he⟩
  | cons t ts ih =>
    obtain ⟨ht, hts'⟩ := List.forall_mem_cons.1 hts
    obtain ⟨m, hm, hspells⟩ := ih hts'
    exact ⟨_, Nat.le_refl _, Spells.unary ht hspells hm⟩

/-- An operand is spelled by its tokens, strong enough to stand beside any operator. -/
theorem Operand.spells (o : Operand) :
    ∃ k, Precedence.unary.level ≤ k ∧ Spells (.expression k o.tree) o.tokens := by
  obtain ⟨k, hk, hcalls⟩ := o.spelled.calls (by decide) o.calls
  exact hcalls.signs (Nat.le_trans (by decide) hk) o.areSigns

theorem Link.level_lt (l : Link) : l.level < Precedence.unary.level :=
  l.isBinary.level_lt

/-- The tree of a chain is as strong as the weakest operator in it. -/
theorem spells_treeOf (o : Operand) (ls : List Link) :
    ∃ k, Spells (.expression k (treeOf o ls)) (o.tokens ++ ls.flatMap Link.tokens) ∧
      ∀ m ≤ Precedence.unary.level, (∀ l ∈ ls, m ≤ l.level) → m ≤ k := by
  fun_induction treeOf o ls with
  | case1 o =>
    obtain ⟨k, hk, hspells⟩ := o.spells
    rw [List.flatMap_nil, List.append_nil]
    exact ⟨k, hspells, fun m hm _ => Nat.le_trans hm hk⟩
  | case2 o l ls s ihbefore ihafter =>
    obtain ⟨k, hleft, hk⟩ := ihbefore
    obtain ⟨m, hright, hm⟩ := ihafter
    have hlt := s.link.level_lt
    -- in front of the operator nothing is weaker than it, and behind it everything is tighter
    have hspells := Spells.binary s.link.isBinary hleft (hk _ (Nat.le_of_lt hlt) s.weakest)
      hright (hm _ hlt s.last)
    refine ⟨s.link.level, ?_, fun n _ hn => hn _ s.link_mem⟩
    rw [s.tokens_eq, ← List.append_assoc]
    exact hspells

/-- A chain is spelled by its tokens, whatever the levels of its operators are. -/
theorem Chain.spells (c : Chain) : ∃ k, Spells (.expression k c.tree) c.tokens := by
  obtain ⟨k, hspells, -⟩ := spells_treeOf c.first c.links
  exact ⟨k, hspells⟩

def Operand.name (t : Token) (ht : t.kind = .ident) : Operand :=
  ⟨[], .identifier t t.literal, [t], [], (fun _ h => nomatch h), Spells.identifier ht⟩

end MonkeySyntax
