import MonkeySyntax.Proofs.Traversal

/-!
# How deep trees get

The depth of a tree counts every node on the way down. Its nesting leaves out what is read in a row:
the left operand of an operator and the callee of a call are read before what continues them, and
not inside it. The nesting limit bounds the nesting of all that is read. The depth is bounded by
nothing but the length of the text.
-/

namespace MonkeySyntax

namespace Node

mutual

/-- The number of expressions inside each other, as far as the tree shows them. -/
def nesting : Node → Nat
  | .identifier .. | .integer .. | .boolean .. | .placeholder .. => 1
  | .unary _ _ e => e.nesting + 1
  | .binary _ l _ r => max l.nesting (r.nesting + 1)
  | .conditional _ c b none => max c.nesting b.nesting + 1
  | .conditional _ c b (some a) => max (max c.nesting b.nesting) a.nesting + 1
  | .function _ _ b => b.nesting + 1
  | .call _ f as => max f.nesting (nestingOfAll as + 1)
  | .letStatement _ _ v | .returnStatement _ v | .expressionStatement _ v => v.nesting
  | .block _ ss => nestingOfAll ss

def nestingOfAll : List Node → Nat
  | [] => 0
  | n :: ns => max n.nesting (nestingOfAll ns)

end

theorem nestingOfAll_le_iff {ns : List Node} {k : Nat} :
    nestingOfAll ns ≤ k ↔ ∀ n ∈ ns, n.nesting ≤ k := by
  induction ns with
  | nil => exact iff_of_true (Nat.zero_le k) fun n hn => nomatch hn
  | cons n ns ih => rw [nestingOfAll, Nat.max_le, ih, List.forall_mem_cons]

theorem depthOfAll_le_iff {ns : List Node} {k : Nat} :
    depthOfAll ns ≤ k ↔ ∀ n ∈ ns, n.depth ≤ k := by
  induction ns with
  | nil => exact iff_of_true (Nat.zero_le k) fun n hn => nomatch hn
  | cons n ns ih => rw [depthOfAll, Nat.max_le, ih, List.forall_mem_cons]

end Node

/-- Whether a phrase is no deeper than its tokens are many. A statement has a node of its own and no
token for it. -/
def Phrase.IsShallow : Phrase → List Token → Prop
  | .expression _ n, us | .item _ n, us | .block n, us => n.depth ≤ us.length
  | .further _ ns, us | .items _ ns, us => Node.depthOfAll ns ≤ us.length
  | .statement s, us => s.depth ≤ us.length + 1
  | .statements ss, us => Node.depthOfAll ss ≤ us.length + 1

/-- Every construct has a token of its own, so no phrase is deeper than it is long. -/
theorem Spells.isShallow {φ : Phrase} {us : List Token} (h : Spells φ us) : φ.IsShallow us := by
  induction h with
  | identifier | integer | boolean | parameter => exact Nat.le_refl 1
  | noFurther | noItems | noStatements => exact Nat.zero_le _
  | argument he ih => exact ih
  | _ =>
    -- every other node but a statement's own stands for a token of its own
    simp only [Phrase.IsShallow, Node.depth, Node.depthOfAll, List.length_append, List.length_cons,
      List.length_nil] at *
    omega

/-- Whatever is read is no deeper than the text has tokens, with or without defects. -/
theorem depth_le_length (limit : Nat) (source : String) :
    (parseWithin limit source).program.depth ≤ (tokenize source).length := by
  have hstand : StandIn (parseWithin limit source).statements (Cursor.ofString source).rest :=
    standIn_of_runFrom limit (.ofString source)
  have hlength : (tokenize source).length = (Cursor.ofString source).rest.length + 1 :=
    List.length_append
  refine Node.depthOfAll_le_iff.2 fun s hs => ?_
  obtain ⟨us, hrow, hspells⟩ := hstand.exists_spelled hs
  have hshallow : s.depth ≤ us.length + 1 := hspells.isShallow
  have hle := hrow.length_le
  omega

namespace Production

variable {α β : Type}

def Gives (P : α → Prop) (x : Production α) : Prop :=
  ∀ c d a, x c = .ok a d → P a

section

variable {P : α → Prop} {Q : β → Prop}

theorem gives_pure {a : α} (ha : P a) : Gives P (pure a) := by
  intro c d b h
  cases h
  exact ha

theorem gives_fail (e : Defect) : Gives P (fail e) := by
  intro c d a h
  cases h

theorem Gives.bind {x : Production α} {f : α → Production β} (hx : Gives P x)
    (hf : ∀ a, P a → Gives Q (f a)) : Gives Q (x >>= f) := by
  intro c d b h
  obtain ⟨a, c', ha, hb⟩ := bind_eq_ok.1 h
  exact hf a (hx c c' a ha) c' d b hb

/-- What is read first need not matter. -/
theorem Gives.behind {x : Production α} {f : α → Production β} (hf : ∀ a, Gives Q (f a)) :
    Gives Q (x >>= f) := by
  have hx : Gives (fun _ : α => True) x := fun _ _ _ _ => trivial
  exact hx.bind fun a _ => hf a

theorem Gives.ite {p : Prop} [Decidable p] {x y : Production α} (hx : Gives P x)
    (hy : Gives P y) : Gives P (if p then x else y) := by
  split
  · exact hx
  · exact hy

theorem Gives.many {item : Production (Option α)} (hitem : Gives (fun o => ∀ a ∈ o, P a) item) :
    Gives (fun as => ∀ a ∈ as, P a) (Production.many item) := by
  intro c d as h
  fun_induction Production.many item c generalizing d as with
  | case1 c f c' hc | case3 c a c' hc hlt f c'' hmany ih => cases h
  | case2 c c' hc =>
    cases h
    intro a ha
    cases ha
  | case4 c a c' hc hlt as c'' hmany ih =>
    cases h
    exact List.forall_mem_cons.2 ⟨hitem c c' _ hc a rfl, ih c'' as hmany⟩
  | case5 c a c' hc hlt =>
    cases h
    exact List.forall_mem_singleton.2 (hitem c c' _ hc a rfl)

theorem Gives.iterate {step : α → Production (Option α)}
    (hstep : ∀ a, P a → Gives (fun o => ∀ b ∈ o, P b) (step a)) {a : α} (ha : P a) :
    Gives P (Production.iterate step a) := by
  intro c d b h
  fun_induction Production.iterate step a c with
  | case1 a c f c' hc => cases h
  | case2 a c c' hc =>
    cases h
    exact ha
  | case3 a c b' c' hc hlt ih => exact ih (hstep a ha c c' _ hc b' rfl) h
  | case4 a c b' c' hc hlt =>
    cases h
    exact hstep a ha c d _ hc b rfl

end

section

variable {sub : Nat → Production Node} {k : Nat}
  (hsub : ∀ level, Gives (fun n => n.nesting ≤ k) (sub level))

include hsub

theorem gives_nextExpression : Gives (fun n => n.nesting ≤ k) (nextExpression sub) :=
  Gives.behind fun _ => hsub _

theorem gives_arguments :
    Gives (fun ns => ∀ n ∈ ns, n.nesting ≤ k) (arguments sub) := by
  have hfurther :
      Gives (fun ns => ∀ n ∈ ns, n.nesting ≤ k) (furtherItems (nextExpression sub)) := by
    refine Gives.many (Gives.behind fun _ => Gives.ite ?_ (gives_pure fun _ h => nomatch h))
    refine Gives.behind fun _ => (gives_nextExpression hsub).bind fun n hn => gives_pure ?_
    rintro m ⟨⟩
    exact hn
  refine Gives.behind fun _ => Gives.ite ?_ ?_
  · exact Gives.behind fun _ => gives_pure fun _ h => nomatch h
  · exact (gives_nextExpression hsub).bind fun n hn => hfurther.bind fun ns hns =>
      Gives.behind fun _ => gives_pure (List.forall_mem_cons.2 ⟨hn, hns⟩)

theorem gives_statement : Gives (fun n => n.nesting ≤ k) (statement sub) := by
  have hallow {n : Node} (hn : n.nesting ≤ k) :
      Gives (fun n => n.nesting ≤ k) (do allow .semicolon; return n) :=
    Gives.behind fun _ => gives_pure hn
  refine Gives.behind fun t => ?_
  split
  · exact Gives.behind fun _ => Gives.behind fun _ => Gives.behind fun _ => Gives.behind fun _ =>
      (gives_nextExpression hsub).bind fun _ hv => hallow hv
  · exact Gives.behind fun _ => (gives_nextExpression hsub).bind fun _ hv => hallow hv
  · exact Gives.behind fun _ => (hsub _).bind fun _ hv => hallow hv

theorem gives_block : Gives (fun n => n.nesting ≤ k) (block sub) := by
  have hstatements (brace : Token) :
      Gives (fun ss => ∀ s ∈ ss, s.nesting ≤ k) (blockStatements sub brace) := by
    refine Gives.many (Gives.behind fun _ => Gives.ite (gives_pure fun _ h => nomatch h) ?_)
    refine (gives_fail _).ite ((gives_statement hsub).bind fun s hs => Gives.behind fun _ => ?_)
    refine gives_pure ?_
    rintro m ⟨⟩
    exact hs
  exact Gives.behind fun _ => Gives.behind fun _ => (hstatements _).bind fun ss hss =>
    gives_pure (Node.nestingOfAll_le_iff.2 hss)

theorem gives_conditional : Gives (fun n => n.nesting ≤ k + 1) (conditional sub) := by
  refine Gives.behind fun t => Gives.behind fun _ => (gives_nextExpression hsub).bind fun c hc => ?_
  refine Gives.behind fun _ => Gives.behind fun _ => (gives_block hsub).bind fun b hb => ?_
  have hfront : max c.nesting b.nesting ≤ k := Nat.max_le.2 ⟨hc, hb⟩
  refine Gives.behind fun _ => Gives.ite ?_ (gives_pure (Nat.succ_le_succ hfront))
  exact Gives.behind fun _ => Gives.behind fun _ => (gives_block hsub).bind fun a ha =>
    gives_pure (Nat.succ_le_succ (Nat.max_le.2 ⟨hfront, ha⟩))

/-- An operand puts at most one level around the expressions inside it. -/
theorem gives_operand (rules : Rules) :
    Gives (fun n => n.nesting ≤ k + 1) (operand sub rules) := by
  have hone : 1 ≤ k + 1 := Nat.le_add_left 1 k
  have hinteger : Gives (fun n => n.nesting ≤ k + 1) integer := by
    intro c d n h
    rw [(integer_of_ok h).2.2.2]
    exact hone
  refine Gives.behind fun t => Gives.ite ?_ (gives_fail _)
  split
  · exact Gives.behind fun _ => gives_pure hone
  · exact hinteger
  · exact Gives.behind fun _ => gives_pure hone
  · exact Gives.behind fun _ => gives_pure hone
  · exact Gives.behind fun _ => Gives.behind fun _ => (hsub _).bind fun e he =>
      gives_pure (Nat.succ_le_succ he)
  · exact Gives.behind fun _ => Gives.behind fun _ => (hsub _).bind fun e he =>
      gives_pure (Nat.succ_le_succ he)
  · -- parentheses leave no trace
    exact (gives_nextExpression hsub).bind fun e he => Gives.behind fun _ =>
      gives_pure (Nat.le_succ_of_le he)
  · exact gives_conditional hsub
  · exact Gives.behind fun _ => Gives.behind fun _ => Gives.behind fun _ => Gives.behind fun _ =>
      (gives_block hsub).bind fun b hb => gives_pure (Nat.succ_le_succ hb)
  · exact gives_fail _

/-- However often an operand is continued, its nesting stays below the same bound. -/
theorem gives_extend (rules : Rules) (level : Nat) {left : Node} (hleft : left.nesting ≤ k + 1) :
    Gives (fun n => n.nesting ≤ k + 1) (extend sub rules level left) := by
  refine Gives.iterate (fun n hn => ?_) hleft
  have hcall : Gives (fun m => m.nesting ≤ k + 1) (call sub n) :=
    Gives.behind fun _ => (gives_arguments hsub).bind fun as has => gives_pure
      (Nat.max_le.2 ⟨hn, Nat.succ_le_succ (Node.nestingOfAll_le_iff.2 has)⟩)
  have hbinary : Gives (fun m => m.nesting ≤ k + 1) (binary sub n) :=
    Gives.behind fun _ => Gives.behind fun _ => (hsub _).bind fun r hr => gives_pure
      (Nat.max_le.2 ⟨hn, Nat.succ_le_succ hr⟩)
  have hsome {x : Production Node} (hx : Gives (fun m => m.nesting ≤ k + 1) x) :
      Gives (fun o => ∀ m ∈ o, m.nesting ≤ k + 1) (do return some (← x)) := by
    refine hx.bind fun m hm => gives_pure ?_
    rintro m' ⟨⟩
    exact hm
  refine Gives.behind fun t => Gives.ite ?_ (gives_pure fun _ h => nomatch h)
  exact Gives.behind fun _ => (hsome hcall).ite (hsome hbinary)

end

/-- Nothing is read whose nesting exceeds the limit. -/
theorem gives_expression (rules : Rules) (limit level : Nat) :
    Gives (fun n => n.nesting ≤ limit) (expression rules limit level) := by
  -- the expressions inside an operand are nested less deeply
  induction limit generalizing level with
  | zero => exact Gives.behind fun _ => gives_fail _
  | succ limit ih =>
    exact (gives_operand ih rules).bind fun left hleft => gives_extend ih rules level hleft

end Production

/-- What holds of every statement that is read holds of all statements of a run. -/
theorem forall_statements_of_gives {statement : Production Node} {P : Node → Prop}
    (hstatement : Production.Forward statement) (h : Production.Gives P statement) (c : Cursor) :
    ∀ s ∈ (runFrom statement c).statements, P s := by
  intro s hs
  obtain ⟨o, ho, hos⟩ := List.mem_filterMap.1 hs
  cases o with
  | error e => cases hos
  | ok s' =>
    cases hos
    obtain ⟨b, c', -, hattempt⟩ := exists_attempt_of_mem hstatement ho
    obtain ⟨d, hread, -⟩ := attempt_ok hattempt
    exact h b d s hread

/-- Whatever is read stays within the nesting limit, with or without defects. -/
theorem nesting_le_limit (limit : Nat) (source : String) :
    Node.nestingOfAll (parseWithin limit source).statements ≤ limit :=
  Node.nestingOfAll_le_iff.2 (forall_statements_of_gives
    (Production.forward_statementWithin .standard limit)
    (Production.gives_statement (Production.gives_expression .standard limit)) _)

end MonkeySyntax
