import MonkeySyntax.Proofs.Calls

/-!
# Where expressions end in canonical text

Nothing marks where an expression ends in the row of a tree, but only a call can make it longer. A
parenthesis behind an expression opens the arguments of a call unless an operator stands in it:
operators stand in parentheses of their own, so those of an operation hold one and those around
arguments do not.
-/

namespace MonkeySyntax

structure Application where
  token : Token
  arguments : List Node

namespace Application

structure IsWellFormed (a : Application) : Prop where
  isToken : a.token.Is .lparen
  arguments : ∀ n ∈ a.arguments, WellFormed .expression n

def row (a : Application) : List Token :=
  a.token.bare :: (Node.itemRow a.arguments ++ [⟨.rparen, ")", .nowhere⟩])

end Application

def Node.applied (f : Node) (as : List Application) : Node :=
  as.foldl (fun f a => .call a.token f a.arguments) f

theorem Node.applied_concat (f : Node) (as : List Application) (a : Application) :
    f.applied (as ++ [a]) = .call a.token (f.applied as) a.arguments := by
  unfold applied
  rw [List.foldl_append]
  rfl

theorem Node.row_applied (f : Node) (as : List Application) :
    (f.applied as).row = f.row ++ as.flatMap Application.row := by
  induction as generalizing f with
  | nil => exact (List.append_nil _).symm
  | cons a as ih =>
    calc (f.applied (a :: as)).row
        = (Node.call a.token f a.arguments).row ++ as.flatMap Application.row := ih _
      _ = f.row ++ (a :: as).flatMap Application.row := by
          rw [List.flatMap_cons, ← List.append_assoc]
          rfl

theorem Node.bare_applied {f g : Node} (h : f.bare = g.bare) (as : List Application) :
    (f.applied as).bare = (g.applied as).bare := by
  induction as generalizing f g with
  | nil => exact h
  | cons a as ih => exact ih (by simp only [bare, h])

/-- Every expression is one that is no call, called some number of times. -/
theorem WellFormed.exists_applied {l : Place} {e : Node} (h : WellFormed l e)
    (hl : l = .expression) :
    ∃ g as, e = g.applied as ∧ WellFormed .expression g ∧ g.isCall = false ∧
      ∀ a ∈ as, a.IsWellFormed := by
  have hnone {g : Node} (hg : WellFormed .expression g) (hcall : g.isCall = false) :
      ∃ h as, g = h.applied as ∧ WellFormed .expression h ∧ h.isCall = false ∧
        ∀ a ∈ as, a.IsWellFormed :=
    ⟨g, [], rfl, hg, hcall, fun _ ha => nomatch ha⟩
  -- only the callee is followed down: the arguments stay as they are
  induction h with
  | @call t f as ht hf has ih =>
    obtain ⟨g, bs, rfl, hg, hcall, hbs⟩ := ih rfl
    refine ⟨g, bs ++ [⟨t, as⟩], (g.applied_concat bs ⟨t, as⟩).symm, hg, hcall, ?_⟩
    exact List.forall_mem_append.2 ⟨hbs, List.forall_mem_singleton.2 ⟨ht, has⟩⟩
  | identifier ht => exact hnone (.identifier ht) rfl
  | integer ht hd hv => exact hnone (.integer ht hd hv) rfl
  | boolean ht => exact hnone (.boolean ht) rfl
  | unary ht he => exact hnone (.unary ht he) rfl
  | binary ht ht' hl' hr => exact hnone (.binary ht ht' hl' hr) rfl
  | conditional ht hc hb => exact hnone (.conditional ht hc hb) rfl
  | choice ht hc hb ha => exact hnone (.choice ht hc hb ha) rfl
  | function ht hps hb => exact hnone (.function ht hps hb) rfl
  | name | letStatement | returnStatement | expressionStatement | block => cases hl

def Kind.isOperator (k : Kind) : Bool :=
  k == .bang || decide k.IsBinary

/-- Whether an operator stands in front of the parenthesis that closes what is open, where `depth`
more parentheses are open that do not count. -/
def marked : (depth : Nat) → List Token → Bool
  | _, [] => false
  | depth, t :: ts =>
    if t.kind = .lparen then marked (depth + 1) ts
    else if t.kind = .rparen then depth != 0 && marked (depth - 1) ts
    else depth == 0 && t.kind.isOperator || marked depth ts

section

variable {t : Token} {ts : List Token}

theorem marked_lparen (ht : t.kind = .lparen) (d : Nat) :
    marked d (t :: ts) = marked (d + 1) ts := by
  rw [marked, if_pos ht]

theorem marked_rparen (ht : t.kind = .rparen) (d : Nat) :
    marked (d + 1) (t :: ts) = marked d ts := by
  rw [marked, if_neg (by rw [ht]; decide), if_pos ht]
  rfl

theorem marked_rparen_zero (ht : t.kind = .rparen) : marked 0 (t :: ts) = false := by
  rw [marked, if_neg (by rw [ht]; decide), if_pos ht]
  rfl

theorem marked_skip (ht : t.kind ≠ .lparen ∧ t.kind ≠ .rparen) {d : Nat}
    (hd : d ≠ 0 ∨ t.kind.isOperator = false) : marked d (t :: ts) = marked d ts := by
  have hcount : (d == 0 && t.kind.isOperator) = false := by
    rcases hd with hd | hd
    · rw [beq_eq_false_iff_ne.2 hd, Bool.false_and]
    · rw [hd, Bool.and_false]
  rw [marked, if_neg ht.1, if_neg ht.2, hcount, Bool.false_or]

theorem marked_operator (ht : t.kind ≠ .lparen ∧ t.kind ≠ .rparen)
    (hoperator : t.kind.isOperator = true) : marked 0 (t :: ts) = true := by
  rw [marked, if_neg ht.1, if_neg ht.2, hoperator]
  rfl

end

theorem marked_word {t : Token} {k : Kind} (ht : t.Is k) (hk : k ≠ .lparen ∧ k ≠ .rparen)
    (hoperator : k.isOperator = false) (d : Nat) (ts : List Token) :
    marked d (t.bare :: ts) = marked d ts := by
  have hkind : t.bare.kind = k := ht.kind_eq
  exact marked_skip (by rw [hkind]; exact hk) (Or.inr (by rw [hkind]; exact hoperator))

theorem Kind.IsBinary.isOperator {k : Kind} (h : k.IsBinary) :
    k.isOperator = true ∧ k ≠ .lparen ∧ k ≠ .rparen := by
  revert h
  cases k <;> decide

/-- Whether the operators of a row stand in parentheses of their own. -/
def Node.HidesOperators (n : Node) : Prop :=
  ∀ d us, marked d (n.row ++ us) = marked d us

theorem marked_furtherRow {ns : List Node} (h : ∀ n ∈ ns, n.HidesOperators) (d : Nat)
    (us : List Token) : marked d (Node.furtherRow ns ++ us) = marked d us := by
  induction ns with
  | nil => rfl
  | cons n ns ih =>
    obtain ⟨hn, hns⟩ := List.forall_mem_cons.1 h
    rw [Node.furtherRow, List.cons_append, List.append_assoc,
      marked_skip (by decide) (Or.inr (by decide)), hn, ih hns]

theorem marked_itemRow {ns : List Node} (h : ∀ n ∈ ns, n.HidesOperators) (d : Nat)
    (us : List Token) : marked d (Node.itemRow ns ++ us) = marked d us := by
  cases ns with
  | nil => rfl
  | cons n ns =>
    obtain ⟨hn, hns⟩ := List.forall_mem_cons.1 h
    rw [Node.itemRow, List.append_assoc, hn, marked_furtherRow hns]

theorem marked_rows {ns : List Node} (h : ∀ n ∈ ns, n.HidesOperators) (d : Nat) (us : List Token) :
    marked d (Node.rows ns ++ us) = marked d us := by
  induction ns with
  | nil => rfl
  | cons n ns ih =>
    obtain ⟨hn, hns⟩ := List.forall_mem_cons.1 h
    rw [Node.rows, List.append_assoc, hn, ih hns]

/-- A well-formed tree shows no operator: each of them stands in parentheses of its own. -/
theorem WellFormed.hidesOperators {l : Place} {n : Node} (h : WellFormed l n) :
    n.HidesOperators := by
  induction h with
  | identifier ht | integer ht | name ht =>
    exact fun d us => marked_word ht (by decide) (by decide) d us
  | boolean ht =>
    intro d us
    rcases ht with ht | ht <;> exact marked_word ht (by decide) (by decide) d us
  | @unary t e ht he ih =>
    intro d us
    have hsign : t.kind ≠ .lparen ∧ t.kind ≠ .rparen := by
      rcases ht with ht | ht <;> rw [ht.kind_eq] <;> decide
    simp only [Node.row, List.cons_append, List.append_assoc, List.nil_append]
    -- inside the parenthesis that the row opens no sign counts
    rw [marked_lparen rfl, marked_skip (t := t.bare) hsign (Or.inl d.succ_ne_zero), ih,
      marked_rparen rfl]
  | @binary t l r ht ht' hl hr ihl ihr =>
    intro d us
    simp only [Node.row, List.cons_append, List.append_assoc, List.nil_append]
    rw [marked_lparen rfl, ihl, marked_skip (t := t.bare) ht.isOperator.2 (Or.inl d.succ_ne_zero),
      ihr, marked_rparen rfl]
  | conditional ht hc hb ihc ihb =>
    intro d us
    simp only [Node.row, List.cons_append, List.append_assoc]
    rw [marked_word ht (by decide) (by decide), ihc, ihb]
  | choice ht hc hb ha ihc ihb iha =>
    intro d us
    simp only [Node.row, List.cons_append, List.append_assoc]
    rw [marked_word ht (by decide) (by decide), ihc, ihb,
      marked_skip (by decide) (Or.inr (by decide)), iha]
  | function ht hps hb ihps ihb =>
    intro d us
    simp only [Node.row, List.cons_append, List.append_assoc]
    rw [marked_word ht (by decide) (by decide), marked_lparen rfl, marked_itemRow ihps,
      marked_rparen rfl, ihb]
  | @call t f as ht hf has ihf ihas =>
    intro d us
    simp only [Node.row, List.cons_append, List.append_assoc, List.nil_append]
    rw [ihf, marked_lparen (t := t.bare) ht.kind_eq, marked_itemRow ihas, marked_rparen rfl]
  | letStatement ht hx hv ihx ihv =>
    intro d us
    simp only [Node.row, List.cons_append, List.append_assoc, List.nil_append]
    rw [marked_word ht (by decide) (by decide), ihx, marked_skip (by decide) (Or.inr (by decide)),
      ihv, marked_skip (by decide) (Or.inr (by decide))]
  | returnStatement ht hv ih =>
    intro d us
    simp only [Node.row, List.cons_append, List.append_assoc, List.nil_append]
    rw [marked_word ht (by decide) (by decide), ih, marked_skip (by decide) (Or.inr (by decide))]
  | expressionStatement hv ih => exact ih
  | block ht hss ih =>
    intro d us
    simp only [Node.row, List.cons_append, List.append_assoc, List.nil_append]
    rw [marked_word ht (by decide) (by decide), marked_rows ih,
      marked_skip (by decide) (Or.inr (by decide))]

/-- No operator stands in the parentheses around the arguments of a call. -/
theorem Application.IsWellFormed.marked_row {a : Application} (h : a.IsWellFormed)
    (us : List Token) : marked 0 (a.row ++ us).tail = false := by
  have htail : (a.row ++ us).tail =
      Node.itemRow a.arguments ++ ⟨.rparen, ")", .nowhere⟩ :: us := by
    unfold Application.row
    rw [List.cons_append, List.append_assoc]
    rfl
  rw [htail, marked_itemRow fun n hn => (h.arguments n hn).hidesOperators, marked_rparen_zero rfl]

/-- In the parentheses of an operation there is one. -/
theorem WellFormed.marked_row {l : Place} {e : Node} (h : WellFormed l e) (hl : l = .expression)
    (hoperation : e.leftmost.isOperation = true) (us : List Token) :
    marked 0 (e.row ++ us).tail = true := by
  -- the parenthesis in front belongs to the leftmost expression, however often that is called
  induction h generalizing us with
  | @unary t e ht he ih =>
    have hsign : (t.kind ≠ .lparen ∧ t.kind ≠ .rparen) ∧ t.kind.isOperator = true := by
      rcases ht with ht | ht <;> rw [ht.kind_eq] <;> decide
    exact marked_operator hsign.1 hsign.2
  | @binary t l r ht ht' hl' hr ihl ihr =>
    have htail : ((Node.binary t l t.literal r).row ++ us).tail =
        l.row ++ t.bare :: (r.row ++ ⟨.rparen, ")", .nowhere⟩ :: us) := by
      simp [Node.row]
    -- the left operand hides its operators, so that the first one that counts is this one
    rw [htail, hl'.hidesOperators]
    exact marked_operator ht.isOperator.2 ht.isOperator.1
  | call ht hf has ih =>
    rw [Node.row, List.append_assoc]
    exact ih rfl hoperation _
  | name | letStatement | returnStatement | expressionStatement | block => cases hl
  | _ => cases hoperation

/-- Whether what stands behind an expression neither belongs to a choice nor calls the
expression. -/
structure Ends (us : List Token) : Prop where
  noElse : nextKind us ≠ .wordElse
  noCall : nextKind us = .lparen → marked 0 us.tail = true

theorem ends_of_ne {us : List Token} (h : nextKind us ≠ .lparen ∧ nextKind us ≠ .wordElse) :
    Ends us :=
  ⟨h.2, fun hparen => absurd hparen h.1⟩

theorem ends_cons {t : Token} (ht : t.kind ≠ .lparen ∧ t.kind ≠ .wordElse) (us : List Token) :
    Ends (t :: us) :=
  ends_of_ne ht

theorem ends_operator {t : Token} (ht : t.kind.IsBinary) (us : List Token) : Ends (t.bare :: us) :=
  ends_cons (t := t.bare) ⟨ht.2, ht.ne (by decide)⟩ us

theorem ends_furtherRow (ns : List Node) (us : List Token) :
    Ends (Node.furtherRow ns ++ ⟨.rparen, ")", .nowhere⟩ :: us) := by
  cases ns <;> exact ends_cons (by decide) _

theorem ends_block {b : Node} (hb : WellFormed .block b) (us : List Token) :
    Ends (b.row ++ us) := by
  refine ends_of_ne ?_
  rw [nextKind_append_of_lbrace hb.nextKind_block]
  decide

/-- Arguments hide their operators, so the parenthesis in front of them opens a call. -/
theorem Application.IsWellFormed.not_ends {a : Application} (h : a.IsWellFormed)
    (us : List Token) : ¬Ends (a.row ++ us) := by
  intro hends
  have hmarked := hends.noCall h.isToken.kind_eq
  rw [h.marked_row us] at hmarked
  cases hmarked

/-- Statements end the expression in front of them: what starts with a parenthesis is an
operation. -/
theorem ends_rows {ss : List Node} (hss : ∀ s ∈ ss, WellFormed .statement s) {us : List Token}
    (hus : nextKind us ≠ .lparen ∧ nextKind us ≠ .wordElse) : Ends (Node.rows ss ++ us) := by
  cases ss with
  | nil => exact ends_of_ne hus
  | cons s ss =>
    have hs := hss s List.mem_cons_self
    have hkind := hs.nextKind_row (Node.rows ss ++ us)
    rw [Node.rows, List.append_assoc]
    cases hs with
    | letStatement | returnStatement =>
      refine ends_of_ne ?_
      rw [hkind, Node.opening]
      decide
    | expressionStatement hv =>
      obtain ⟨hmem, hparen⟩ := hv.opening_of_expression rfl
      refine ⟨fun helse => ?_, fun hopen => ?_⟩
      · have hopening : Node.opening _ = .wordElse := hkind.symm.trans helse
        rw [Node.opening] at hopening
        rw [hopening] at hmem
        exact absurd hmem (by decide)
      · exact hv.marked_row rfl (hparen.1 (hkind.symm.trans hopen)) _

end MonkeySyntax
