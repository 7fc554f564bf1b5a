import Mathlib.Algebra.GroupWithZero.Nat
import MonkeySyntax.Proofs.Printing

namespace MonkeySyntax

namespace Node

mutual

@[simp] def parts (n : Node) : List Node :=
  n :: match n with
    | .identifier .. | .integer .. | .boolean .. | .placeholder .. => []
    | .unary _ _ e => e.parts
    | .binary _ l _ r => l.parts ++ r.parts
    | .conditional _ c b none => c.parts ++ b.parts
    | .conditional _ c b (some a) => c.parts ++ (b.parts ++ a.parts)
    | .function _ ps b => partsAll ps ++ b.parts
    | .call _ f as => f.parts ++ partsAll as
    | .letStatement _ x v => x.parts ++ v.parts
    | .returnStatement _ v | .expressionStatement _ v => v.parts
    | .block _ ss => partsAll ss

@[simp] def partsAll : List Node → List Node
  | [] => []
  | n :: ns => n.parts ++ partsAll ns

end

@[simp] def isCall : Node → Bool
  | .call .. => true
  | _ => false

/-- How many statements take in the next one. -/
def takings : List Node → Nat
  | s :: t :: ss => (if takesIn s t then 1 else 0) + takings (t :: ss)
  | _ => 0

@[simp] def ownTakings : Node → Nat
  | .block _ ss => takings ss
  | _ => 0

def total (ns : List Node) : Nat :=
  ns.countP isCall + (ns.map ownTakings).sum

@[simp] theorem total_cons (n : Node) (ns : List Node) :
    total (n :: ns) = (if n.isCall then 1 else 0) + n.ownTakings + total ns := by
  unfold total
  rw [List.countP_cons, List.map_cons, List.sum_cons]
  omega

@[simp] theorem total_append (ns ms : List Node) : total (ns ++ ms) = total ns + total ms := by
  unfold total
  rw [List.countP_append, List.map_append, List.sum_append]
  omega

/-- Statements are apart just where there is nothing to count between them. -/
theorem separate_iff (ss : List Node) : separate ss = true ↔ takings ss = 0 := by
  fun_induction takings ss with
  | case1 s t ss ih =>
    rw [separate, Bool.and_eq_true_iff, ih]
    cases takesIn s t <;> simp
  | case2 ss hss =>
    rw [separate]
    · exact iff_of_true rfl rfl
    · exact hss

theorem isCall_bare (n : Node) : n.bare.isCall = n.isCall := by
  cases n with
  | conditional t c b a => cases a <;> rfl
  | _ => rfl

mutual

theorem parts_bare : (n : Node) → n.bare.parts = n.parts.map bare
  | .identifier .. | .integer .. | .boolean .. | .placeholder .. => rfl
  | .unary _ _ e | .returnStatement _ e | .expressionStatement _ e => by
    simp only [bare, parts, parts_bare e, List.map_cons]
  | .binary _ l _ r | .letStatement _ l r | .conditional _ l r none => by
    simp only [bare, parts, parts_bare l, parts_bare r, List.map_cons, List.map_append]
  | .conditional _ c b (some a) => by
    simp only [bare, parts, parts_bare c, parts_bare b, parts_bare a, List.map_cons,
      List.map_append]
  | .function _ ps b => by
    simp only [bare, parts, partsAll_bareAll ps, parts_bare b, List.map_cons, List.map_append]
  | .call _ f as => by
    simp only [bare, parts, partsAll_bareAll as, parts_bare f, List.map_cons, List.map_append]
  | .block _ ss => by simp only [bare, parts, partsAll_bareAll ss, List.map_cons]

theorem partsAll_bareAll : (ns : List Node) → partsAll (bareAll ns) = (partsAll ns).map bare
  | [] => rfl
  | n :: ns => by simp only [bareAll, partsAll, parts_bare n, partsAll_bareAll ns, List.map_append]

end

/-- Trees that are alike have as many calls. -/
theorem countP_isCall_of_bareAll {ns ms : List Node} (h : bareAll ns = bareAll ms) :
    (partsAll ns).countP isCall = (partsAll ms).countP isCall := by
  have hbare (ns : List Node) :
      (partsAll (bareAll ns)).countP isCall = (partsAll ns).countP isCall := by
    rw [partsAll_bareAll, List.countP_map]
    exact congrArg (fun p => List.countP p _) (funext isCall_bare)
  rw [← hbare ns, h, hbare ms]

end Node

def applies (k k' : Kind) : Nat :=
  if k.EndsExpression ∧ k' = .lparen then 1 else 0

/-- How often a parenthesis opens behind the end of an expression. -/
def applications : List Token → Nat
  | [] => 0
  | t :: ts => applies t.kind (nextKind ts) + applications ts

theorem applies_of_not_ends {k k' : Kind} (h : ¬k.EndsExpression) : applies k k' = 0 :=
  if_neg fun hk => h hk.1

theorem applies_of_ne {k k' : Kind} (h : k' ≠ .lparen) : applies k k' = 0 :=
  if_neg fun hk => h hk.2

theorem applies_of_ends {k : Kind} (h : k.EndsExpression) : applies k .lparen = 1 :=
  if_pos ⟨h, rfl⟩

@[simp] theorem applications_nil : applications [] = 0 := rfl

@[simp] theorem applications_cons (t : Token) (ts : List Token) :
    applications (t :: ts) = applies t.kind (nextKind ts) + applications ts := rfl

/-- Rows one behind the other have the places of both, and perhaps one where they meet. -/
@[simp] theorem applications_append (us vs : List Token) :
    applications (us ++ vs) =
      applications us + (applies (lastKind us) (nextKind vs) + applications vs) := by
  induction us with
  | nil =>
    have hnothing : applies (lastKind []) (nextKind vs) = 0 := applies_of_not_ends (by decide)
    rw [List.nil_append, hnothing, applications_nil, Nat.zero_add, Nat.zero_add]
  | cons t us ih =>
    cases us with
    | nil =>
      have hnothing : applies t.kind (nextKind []) = 0 := applies_of_ne (by decide)
      rw [List.singleton_append, applications_cons, applications_cons, lastKind_singleton,
        hnothing, applications_nil, Nat.zero_add]
    | cons u us =>
      rw [lastKind_cons (List.cons_ne_nil u us), List.cons_append, applications_cons, ih,
        applications_cons t, List.cons_append, nextKind_cons, nextKind_cons, Nat.add_assoc]

theorem applications_map_bare (us : List Token) :
    applications (us.map Token.bare) = applications us := by
  induction us with
  | nil => rfl
  | cons t us ih =>
    rw [List.map_cons, applications_cons, applications_cons, ih, nextKind_map_bare, Token.kind_bare]

theorem nextKind_append_of_lbrace {us : List Token} (h : nextKind us = .lbrace)
    (vs : List Token) : nextKind (us ++ vs) = .lbrace := by
  rw [nextKind_append us vs (by rw [h]; decide), h]

theorem Kind.IsBinary.not_endsExpression {k : Kind} (h : k.IsBinary) : ¬k.EndsExpression := by
  revert h
  cases k <;> decide

@[simp] def Phrase.parts : Phrase → List Node
  | .expression _ n | .item _ n | .statement n | .block n => n.parts
  | .further _ ns | .items _ ns | .statements ns => Node.partsAll ns

/-- What is spelled has a call for each place where a parenthesis opens behind an expression. -/
theorem Spells.applications_eq {φ : Phrase} {us : List Token} (h : Spells φ us) :
    applications us = φ.parts.countP Node.isCall := by
  -- tokens of the constructs themselves either end no expression or open no parenthesis; it is
  -- left to see what parts meet
  induction h with
  | identifier | integer | boolean | parameter => exact applies_of_ne (by decide)
  | grouped hl he hr ih | block hl he hr ih =>
    simp (disch := decide) only [applications_cons, applications_append, applications_nil,
      nextKind_cons, hl, hr, applies_of_ne, applies_of_not_ends, ih, Nat.zero_add, Nat.add_zero]
    rfl
  | conditional ht hl hc hr hb ihc ihb =>
    have hblock : nextKind _ = .lbrace := hb.startsWith
    simp (disch := decide) [applies_of_ne, applies_of_not_ends, ht, hl, hr, hblock, ihc, ihb,
      List.countP_cons]
  | choice ht hl hc hr hb ho ha ihc ihb iha =>
    have hblock := nextKind_append_of_lbrace hb.startsWith
    simp (disch := decide) [applies_of_ne, applies_of_not_ends, ht, hl, hr, ho, hblock, ihc, ihb,
      iha, List.countP_cons]
  | function ht hl hps hr hb ihps ihb =>
    have hblock : nextKind _ = .lbrace := hb.startsWith
    simp (disch := decide) [applies_of_ne, applies_of_not_ends, ht, hl, hr, hblock, ihps, ihb,
      List.countP_cons]
  | call hf hk hl has hr ihf ihas =>
    -- the callee has ended where the parenthesis opens
    have hcallee := applies_of_ends hf.endsWith
    simp (disch := decide) [applies_of_ne, applies_of_not_ends, hcallee, hl, hr, ihf, ihas,
      List.countP_cons]
    omega
  | @unary t k e us ht he hk ih =>
    have hsign : ¬t.kind.EndsExpression := by
      rcases ht with ht | ht <;> rw [ht] <;> decide
    simp [applies_of_not_ends hsign, ih]
  | binary ht hl hk hr hm ihl ihr =>
    simp [applies_of_ne ht.2, applies_of_not_ends ht.not_endsExpression, ihl, ihr]
  | argument he ih => exact ih
  | expressionStatement he ih => simp [ih]
  | noFurther | noItems | noStatements => rfl
  | further ht hn hns ihn ihns =>
    have hnext : nextKind _ ≠ .lparen := fun h => by
      rcases hns.startsWith with hk | hk <;> rw [hk] at h <;> cases h
    simp (disch := decide) [applies_of_ne hnext, applies_of_not_ends, ht, ihn, ihns]
  | items hn hns ihn ihns =>
    have hnext : nextKind _ ≠ .lparen := fun h => by
      rcases hns.startsWith with hk | hk <;> rw [hk] at h <;> cases h
    simp [applies_of_ne hnext, ihn, ihns]
  | letStatement ht hx ha he ih =>
    simp (disch := decide) [applies_of_ne, applies_of_not_ends, ht, hx, ha, ih, List.countP_cons]
  | returnStatement ht he ih =>
    simp (disch := decide) [applies_of_not_ends, ht, ih, List.countP_cons]
  | terminated hs ht hss ihs ihss =>
    simp (disch := decide) [applies_of_ne, applies_of_not_ends, ht, ihs, ihss]
  -- what follows a statement without a semicolon does not open a parenthesis
  | apart hs hss hvs ihs ihss => simp [applies_of_ne hvs.2, ihs, ihss]

/-- The row of a tree ends as an expression does, but for that of a statement with a semicolon. -/
theorem WellFormed.lastKind_row {l : Place} {n : Node} (h : WellFormed l n)
    (hl : l ≠ .statement) : (lastKind n.row).EndsExpression := by
  have hword {t : Token} {k : Kind} (ht : t.Is k) (hk : k.EndsExpression) :
      (lastKind [t.bare]).EndsExpression := by
    rw [lastKind_singleton, Token.kind_bare, ht.kind_eq]
    exact hk
  induction h with
  | identifier ht | integer ht | name ht => exact hword ht (by decide)
  | boolean ht => rcases ht with ht | ht <;> exact hword ht (by decide)
  | unary =>
    exact endsExpression_cons (endsExpression_cons (endsExpression_append (by decide)))
  | binary =>
    exact endsExpression_cons (endsExpression_append (endsExpression_cons
      (endsExpression_append (by decide))))
  | conditional ht hc hb ihc ihb =>
    exact endsExpression_cons (endsExpression_append (ihb (by decide)))
  | choice ht hc hb ha ihc ihb iha =>
    exact endsExpression_cons (endsExpression_append (endsExpression_append
      (endsExpression_cons (iha (by decide)))))
  | function ht hps hb ihps ihb =>
    exact endsExpression_cons (endsExpression_cons (endsExpression_append
      (endsExpression_cons (ihb (by decide)))))
  | call =>
    exact endsExpression_append (endsExpression_cons (endsExpression_append (by decide)))
  | block => exact endsExpression_cons (endsExpression_append (by decide))
  | letStatement | returnStatement | expressionStatement => exact absurd rfl hl

theorem nextKind_furtherRow (ns : List Node) : nextKind (Node.furtherRow ns) ≠ .lparen := by
  cases ns <;> exact nofun

theorem applications_furtherRow {ns : List Node}
    (hns : ∀ n ∈ ns, applications n.row = Node.total n.parts) :
    applications (Node.furtherRow ns) = Node.total (Node.partsAll ns) := by
  induction ns with
  | nil => rfl
  | cons n ns ih =>
    obtain ⟨hn, hns⟩ := List.forall_mem_cons.1 hns
    simp (disch := decide) [Node.furtherRow, applies_of_not_ends,
      applies_of_ne (nextKind_furtherRow ns), hn, ih hns]

theorem applications_itemRow {ns : List Node}
    (hns : ∀ n ∈ ns, applications n.row = Node.total n.parts) :
    applications (Node.itemRow ns) = Node.total (Node.partsAll ns) := by
  cases ns with
  | nil => rfl
  | cons n ns =>
    obtain ⟨hn, hns⟩ := List.forall_mem_cons.1 hns
    simp [Node.itemRow, applies_of_ne (nextKind_furtherRow ns), hn, applications_furtherRow hns]

/-- A statement takes in the next one where a parenthesis opens behind its expression. -/
theorem takings_cons {s : Node} {ss : List Node} (hs : WellFormed .statement s)
    (hss : ∀ s' ∈ ss, WellFormed .statement s') :
    Node.takings (s :: ss) =
      applies (lastKind s.row) (nextKind (Node.rows ss)) + Node.takings ss := by
  cases ss with
  | nil => exact (applies_of_ne (by decide)).symm
  | cons s' ss =>
    rw [Node.takings]
    congr 1
    cases hs with
    -- a semicolon stands between the two
    | @letStatement t x v =>
      have hlast : lastKind (Node.letStatement t x v).row = .semicolon := by
        simp [Node.row, lastKind]
      rw [hlast, applies_of_not_ends (by decide)]
      rfl
    | @returnStatement t v =>
      have hlast : lastKind (Node.returnStatement t v).row = .semicolon := by
        simp [Node.row, lastKind]
      rw [hlast, applies_of_not_ends (by decide)]
      rfl
    | @expressionStatement t e he =>
      obtain ⟨hparen, -⟩ := (hss s' List.mem_cons_self).nextKind_rows (t := t) (e := e) ss
      have hends : (lastKind e.row).EndsExpression := he.lastKind_row (by decide)
      by_cases htakes : Node.takesIn (.expressionStatement t e) s' = true
      · rw [if_pos htakes, hparen.2 htakes]
        exact (applies_of_ends hends).symm
      · rw [if_neg htakes, applies_of_ne fun h => htakes (hparen.1 h)]

/-- In a row of statements a parenthesis opens behind an expression inside one of them, or between
two of which the first takes in the second. -/
theorem applications_rows {ss : List Node} (hss : ∀ s ∈ ss, WellFormed .statement s)
    (hcount : ∀ s ∈ ss, applications s.row = Node.total s.parts) :
    applications (Node.rows ss) = Node.takings ss + Node.total (Node.partsAll ss) := by
  induction ss with
  | nil => rfl
  | cons s ss ih =>
    obtain ⟨hs, hss⟩ := List.forall_mem_cons.1 hss
    obtain ⟨hcount, hcounts⟩ := List.forall_mem_cons.1 hcount
    simp [Node.rows, hcount, ih hss hcounts, takings_cons hs hss]
    omega

/-- The row of a tree has a place where a parenthesis opens behind an expression for each call and
for each statement that takes in the next one. -/
theorem WellFormed.applications_row {l : Place} {n : Node} (h : WellFormed l n) :
    applications n.row = Node.total n.parts := by
  induction h with
  | identifier | integer | boolean | name => exact applies_of_ne (by decide)
  | @unary t e ht he ih =>
    have hsign : ¬t.kind.EndsExpression := by
      rcases ht with ht | ht <;> rw [ht.kind_eq] <;> decide
    simp (disch := decide) [Node.row, applies_of_ne, applies_of_not_ends,
      applies_of_not_ends hsign, ih]
  | binary ht ht' hl hr ihl ihr =>
    simp (disch := decide) [Node.row, applies_of_ne, applies_of_not_ends, applies_of_ne ht.2,
      applies_of_not_ends ht.not_endsExpression, ihl, ihr]
  | conditional ht hc hb ihc ihb =>
    simp (disch := decide) [Node.row, applies_of_ne, applies_of_not_ends, ht.kind_eq,
      hb.nextKind_block, ihc, ihb]
  | choice ht hc hb ha ihc ihb iha =>
    have hblock := nextKind_append_of_lbrace hb.nextKind_block
    simp (disch := decide) [Node.row, applies_of_ne, applies_of_not_ends, ht.kind_eq, hblock, ihc,
      ihb, iha]
  | function ht hps hb ihps ihb =>
    simp (disch := decide) [Node.row, applies_of_ne, applies_of_not_ends, ht.kind_eq,
      hb.nextKind_block, applications_itemRow ihps, ihb]
  | call ht hf has ihf ihas =>
    have hcallee := applies_of_ends (hf.lastKind_row (by decide))
    simp (disch := decide) [Node.row, applies_of_ne, applies_of_not_ends, ht.kind_eq, hcallee,
      applications_itemRow ihas, ihf]
    omega
  | letStatement ht hx hv ihx ih =>
    simp (disch := decide) [Node.row, applies_of_ne, applies_of_not_ends, ht.kind_eq, ihx, ih]
  | returnStatement ht hv ih =>
    simp (disch := decide) [Node.row, applies_of_ne, applies_of_not_ends, ht.kind_eq, ih]
  | expressionStatement hv ih => simp [Node.row, ih]
  | block ht hss ih =>
    simp (disch := decide) [Node.row, applies_of_ne, applies_of_not_ends, ht.kind_eq,
      applications_rows hss ih]

end MonkeySyntax
