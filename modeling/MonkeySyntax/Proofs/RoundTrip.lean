import MonkeySyntax.Proofs.Printing
import MonkeySyntax.Proofs.Soundness
import MonkeySyntax.Proofs.Writing

namespace MonkeySyntax

open Production

theorem Token.kind_of_bare_eq {u : Token} {k : Kind} {s : String}
    (h : u.bare = ⟨k, s, .nowhere⟩) : u.kind = k := by
  have hkind := congrArg Token.kind h
  exact hkind

section

variable {s : Slot}

theorem written_further {ns : List Node}
    (hns : ∀ n ∈ ns, ∀ us : List Token, us.map Token.bare = n.row → Written (.item s n) us)
    (us : List Token) (hus : us.map Token.bare = Node.furtherRow ns) :
    Written (.further s ns) us := by
  induction ns generalizing us with
  | nil =>
    rw [Node.furtherRow, List.map_eq_nil_iff] at hus
    rw [hus]
    exact Written.noFurther
  | cons n ns ih =>
    obtain ⟨hn, hns⟩ := List.forall_mem_cons.1 hns
    simp only [Node.furtherRow, List.map_eq_cons_iff, List.map_eq_append_iff] at hus
    obtain ⟨u, _, rfl, hu, vs, ws, rfl, hvs, hws⟩ := hus
    exact Written.further (Token.kind_of_bare_eq hu) (hn vs hvs) (ih hns ws hws)

theorem written_items {ns : List Node}
    (hns : ∀ n ∈ ns, ∀ us : List Token, us.map Token.bare = n.row → Written (.item s n) us)
    (us : List Token) (hus : us.map Token.bare = Node.itemRow ns) : Written (.items s ns) us := by
  cases ns with
  | nil =>
    rw [Node.itemRow, List.map_eq_nil_iff] at hus
    rw [hus]
    exact Written.noItems
  | cons n ns =>
    obtain ⟨hn, hns⟩ := List.forall_mem_cons.1 hns
    rw [Node.itemRow, List.map_eq_append_iff] at hus
    obtain ⟨vs, ws, rfl, hvs, hws⟩ := hus
    exact Written.items (hn vs hvs) (written_further hns ws hws)

end

def WrittenEnded (s : Node) (us : List Token) : Prop :=
  (∃ vs t, us = vs ++ [t] ∧ t.kind = .semicolon ∧ Written (.statement s) vs) ∨
    (∃ t e, s = .expressionStatement t e) ∧ Written (.statement s) us

/-- Statements one behind the other are written out if none takes in the next one. -/
theorem written_statements {ss : List Node} (hss : ∀ s ∈ ss, WellFormed .statement s)
    (hwritten : ∀ s ∈ ss, ∀ us : List Token, us.map Token.bare = s.row → WrittenEnded s us)
    (hseparate : Node.separate ss = true) (us : List Token)
    (hus : us.map Token.bare = Node.rows ss) : Written (.statements ss) us := by
  induction ss generalizing us with
  | nil =>
    rw [Node.rows, List.map_eq_nil_iff] at hus
    rw [hus]
    exact Written.noStatements
  | cons s ss ih =>
    have hwf := (List.forall_mem_cons.1 hss).2
    obtain ⟨hwritten, hwrittens⟩ := List.forall_mem_cons.1 hwritten
    rw [Node.rows, List.map_eq_append_iff] at hus
    obtain ⟨us, vs, rfl, hus, hvs⟩ := hus
    have hbehind : Written (.statements ss) vs := by
      refine ih hwf hwrittens ?_ vs hvs
      cases ss with
      | nil => rfl
      | cons s' ss => exact (Bool.and_eq_true_iff.1 hseparate).2
    rcases hwritten us hus with ⟨ws, t, rfl, ht, hws⟩ | ⟨⟨t, e, rfl⟩, hwritten⟩
    · rw [List.append_assoc]
      exact Written.terminated hws ht hbehind
    · -- without a semicolon the next statement must not go on with the expression
      refine Written.apart hwritten hbehind ?_
      unfold Apart
      rw [← nextKind_map_bare, hvs]
      cases ss with
      | nil => exact ⟨by decide, by decide⟩
      | cons s' ss =>
        obtain ⟨hparen, hminus⟩ :=
          (hwf s' List.mem_cons_self).nextKind_rows (t := t) (e := e) ss
        have htakes : Node.takesIn (.expressionStatement t e) s' = false := by
          simpa using (Bool.and_eq_true_iff.1 hseparate).1
        refine ⟨hminus, fun h => ?_⟩
        rw [hparen, htakes] at h
        cases h

/-- Whether tokens have an expression written out wherever it may stand. -/
def WrittenTight (e : Node) (us : List Token) : Prop :=
  ∀ m ≤ Precedence.call.level, Written (.expression m e) us

/-- Both operands are written so tightly that they stand on either side of any operator. -/
theorem WrittenTight.binary {t u : Token} {l r : Node} {us vs : List Token} (ht : t.kind.IsBinary)
    (hl : WrittenTight l us) (hr : WrittenTight r vs) (hu : u.bare = t.bare) :
    Written (.expression Precedence.lowest.level (.binary t l t.literal r)) (us ++ u :: vs) := by
  have hlt : t.kind.precedence.level < Precedence.unary.level := ht.level_lt
  have hle : t.kind.precedence.level + 1 ≤ Precedence.call.level := Nat.le_trans hlt (by decide)
  exact Written.binary (Nat.le_of_lt ht.1) (hl _ (Nat.le_of_succ_le hle)) hu (hr _ hle)

/-- An operation that has to be as strong as a callee is in parentheses. -/
theorem Written.exists_parentheses {c : Node} {us : List Token} (hc : WellFormed .expression c)
    (hop : c.isOperation = true) (h : Written (.expression Precedence.call.level c) us) :
    ∃ l r vs, us = l :: (vs ++ [r]) ∧ l.kind = .lparen ∧ r.kind = .rparen ∧
      Written (.expression Precedence.lowest.level c) vs := by
  cases hc with
  | unary =>
    cases h with
    | grouped hl he hr => exact ⟨_, _, _, rfl, hl, hr, he⟩
    | unary hm => exact absurd hm (by decide)
  | binary ht =>
    cases h with
    | grouped hl he hr => exact ⟨_, _, _, rfl, hl, hr, he⟩
    | binary hm =>
      have hlt := Nat.lt_of_le_of_lt hm ht.level_lt
      exact absurd hlt (by decide)
  | _ => cases hop

def Place.IsWritten : Place → Node → List Token → Prop
  | .expression, e, us => e.legible = true → WrittenTight e us
  | .name, n, us => Written (.item .parameter n) us
  | .statement, s, us => s.legible = true → WrittenEnded s us
  | .block, b, us => b.legible = true → Written (.block b) us

/-- Whether every row of tokens that a node has up to places has the node written out. -/
def Place.RowsWritten (l : Place) (n : Node) : Prop :=
  ∀ us : List Token, us.map Token.bare = n.row → l.IsWritten n us

section

variable {t : Token} {e c b a f l r : Node} {ps as ss : List Node}

theorem rowsWritten_unary (he : Place.expression.RowsWritten e) :
    Place.expression.RowsWritten (.unary t t.literal e) := by
  intro us hus hlegible m _
  simp only [Node.row, List.map_eq_cons_iff, List.map_eq_append_iff, List.map_eq_nil_iff] at hus
  obtain ⟨l, _, rfl, hl, u, _, rfl, hu, us, _, rfl, hus, r, _, rfl, hr, rfl⟩ := hus
  have hunary : Written (.expression Precedence.lowest.level (.unary t t.literal e)) (u :: us) :=
    Written.unary (by decide) hu (he us hus hlegible _ (by decide))
  exact Written.grouped (Token.kind_of_bare_eq hl) hunary (Token.kind_of_bare_eq hr)

theorem rowsWritten_binary (ht : t.kind.IsBinary) (hl : Place.expression.RowsWritten l)
    (hr : Place.expression.RowsWritten r) :
    Place.expression.RowsWritten (.binary t l t.literal r) := by
  intro us hus hlegible m _
  obtain ⟨hl', hr'⟩ := Bool.and_eq_true_iff.1 hlegible
  simp only [Node.row, List.map_eq_cons_iff, List.map_eq_append_iff, List.map_eq_nil_iff] at hus
  obtain ⟨lp, _, rfl, hlp, us, _, rfl, hus, u, _, rfl, hu, vs, _, rfl, hvs, rp, _, rfl, hrp,
    rfl⟩ := hus
  have hbinary := WrittenTight.binary ht (hl us hus hl') (hr vs hvs hr') hu
  have hgrouped := Written.grouped (m := m) (Token.kind_of_bare_eq hlp) hbinary
    (Token.kind_of_bare_eq hrp)
  rw [List.append_assoc] at hgrouped
  exact hgrouped

theorem rowsWritten_conditional (hwf : WellFormed .expression c)
    (hc : Place.expression.RowsWritten c) (hb : Place.block.RowsWritten b) :
    Place.expression.RowsWritten (.conditional t c b none) := by
  intro us hus hlegible m _
  obtain ⟨hop, hlegible⟩ := Bool.and_eq_true_iff.1 hlegible
  obtain ⟨hc', hb'⟩ := Bool.and_eq_true_iff.1 hlegible
  simp only [Node.row, List.map_eq_cons_iff, List.map_eq_append_iff] at hus
  obtain ⟨u, _, rfl, hu, us, vs, rfl, hus, hvs⟩ := hus
  -- the parentheses that the grammar wants around the condition are those of the operation
  obtain ⟨l, r, ws, rfl, hl, hr, hws⟩ :=
    Written.exists_parentheses hwf hop (hc us hus hc' _ (Nat.le_refl _))
  simp only [List.cons_append, List.append_assoc, List.nil_append]
  exact Written.conditional hu hl hws hr (hb vs hvs hb')

theorem rowsWritten_choice (hwf : WellFormed .expression c)
    (hc : Place.expression.RowsWritten c) (hb : Place.block.RowsWritten b)
    (ha : Place.block.RowsWritten a) :
    Place.expression.RowsWritten (.conditional t c b (some a)) := by
  intro us hus hlegible m _
  obtain ⟨hop, hlegible⟩ := Bool.and_eq_true_iff.1 hlegible
  obtain ⟨hc', hlegible⟩ := Bool.and_eq_true_iff.1 hlegible
  obtain ⟨hb', ha'⟩ := Bool.and_eq_true_iff.1 hlegible
  simp only [Node.row, List.map_eq_cons_iff, List.map_eq_append_iff] at hus
  obtain ⟨u, _, rfl, hu, us, _, rfl, hus, vs, _, rfl, hvs, o, ys, rfl, ho, hys⟩ := hus
  obtain ⟨l, r, ws, rfl, hl, hr, hws⟩ :=
    Written.exists_parentheses hwf hop (hc us hus hc' _ (Nat.le_refl _))
  simp only [List.cons_append, List.append_assoc, List.nil_append]
  exact Written.choice hu hl hws hr (hb vs hvs hb') (Token.kind_of_bare_eq ho) (ha ys hys ha')

theorem rowsWritten_function (hps : ∀ p ∈ ps, Place.name.RowsWritten p)
    (hb : Place.block.RowsWritten b) : Place.expression.RowsWritten (.function t ps b) := by
  intro us hus hlegible m _
  simp only [Node.row, List.map_eq_cons_iff, List.map_eq_append_iff] at hus
  obtain ⟨u, _, rfl, hu, l, _, rfl, hl, us, _, rfl, hus, r, vs, rfl, hr, hvs⟩ := hus
  exact Written.function hu (Token.kind_of_bare_eq hl) (written_items hps us hus)
    (Token.kind_of_bare_eq hr) (hb vs hvs hlegible)

theorem rowsWritten_call (hf : Place.expression.RowsWritten f)
    (has : ∀ a ∈ as, Place.expression.RowsWritten a) :
    Place.expression.RowsWritten (.call t f as) := by
  intro us hus hlegible m hm
  obtain ⟨hf', has'⟩ := Bool.and_eq_true_iff.1 hlegible
  simp only [Node.row, List.map_eq_cons_iff, List.map_eq_append_iff, List.map_eq_nil_iff] at hus
  obtain ⟨us, _, rfl, hus, u, _, rfl, hu, vs, _, rfl, hvs, r, _, rfl, hr, rfl⟩ := hus
  have harguments : Written (.items .argument as) vs := by
    refine written_items (fun a ha ws hws => ?_) vs hvs
    exact Written.argument (has a ha ws hws (Node.legible_of_mem has' a ha) _ (by decide))
  exact Written.call hm (hf us hus hf' _ (Nat.le_refl _)) hu harguments (Token.kind_of_bare_eq hr)

theorem rowsWritten_letStatement {x : Token} (he : Place.expression.RowsWritten e) :
    Place.statement.RowsWritten (.letStatement t (.identifier x x.literal) e) := by
  intro us hus hlegible
  simp only [Node.row, List.map_eq_cons_iff, List.map_eq_append_iff, List.map_eq_nil_iff] at hus
  obtain ⟨u, _, rfl, hu, _, _, rfl, ⟨y, _, rfl, hy, rfl⟩, a, _, rfl, ha, us, _, rfl, hus, r, _,
    rfl, hr, rfl⟩ := hus
  have hlet := Written.letStatement (n := x.literal) hu hy (Token.kind_of_bare_eq ha)
    (he us hus hlegible _ (by decide))
  exact Or.inl ⟨u :: y :: a :: us, r, rfl, Token.kind_of_bare_eq hr, hlet⟩

theorem rowsWritten_returnStatement (he : Place.expression.RowsWritten e) :
    Place.statement.RowsWritten (.returnStatement t e) := by
  intro us hus hlegible
  simp only [Node.row, List.map_eq_cons_iff, List.map_eq_append_iff, List.map_eq_nil_iff] at hus
  obtain ⟨u, _, rfl, hu, us, _, rfl, hus, r, _, rfl, hr, rfl⟩ := hus
  have hreturn := Written.returnStatement hu (he us hus hlegible _ (by decide))
  exact Or.inl ⟨u :: us, r, rfl, Token.kind_of_bare_eq hr, hreturn⟩

theorem rowsWritten_block (hwf : ∀ s ∈ ss, WellFormed .statement s)
    (hss : ∀ s ∈ ss, Place.statement.RowsWritten s) : Place.block.RowsWritten (.block t ss) := by
  intro us hus hlegible
  obtain ⟨hseparate, hlegible⟩ := Bool.and_eq_true_iff.1 hlegible
  simp only [Node.row, List.map_eq_cons_iff, List.map_eq_append_iff, List.map_eq_nil_iff] at hus
  obtain ⟨u, _, rfl, hu, us, _, rfl, hus, r, _, rfl, hr, rfl⟩ := hus
  have hstatements := written_statements hwf
    (fun s hs vs hvs => hss s hs vs hvs (Node.legible_of_mem hlegible s hs)) hseparate us hus
  exact Written.block hu hstatements (Token.kind_of_bare_eq hr)

end

/-- The row of a legible tree has the tree written out. -/
theorem rowsWritten_of_wellFormed {l : Place} {n : Node} (h : WellFormed l n) :
    l.RowsWritten n := by
  induction h with
  | identifier ht =>
    intro us hus
    obtain ⟨u, rfl, hu⟩ := List.map_eq_singleton_iff.1 hus
    exact fun _ m _ => Written.identifier hu
  | integer ht =>
    intro us hus
    obtain ⟨u, rfl, hu⟩ := List.map_eq_singleton_iff.1 hus
    exact fun _ m _ => Written.integer hu
  | boolean ht =>
    intro us hus
    obtain ⟨u, rfl, hu⟩ := List.map_eq_singleton_iff.1 hus
    exact fun _ m _ => Written.boolean hu
  | name ht =>
    intro us hus
    obtain ⟨u, rfl, hu⟩ := List.map_eq_singleton_iff.1 hus
    exact Written.parameter hu
  -- what holds other nodes is written out around them
  | unary ht he ih => exact rowsWritten_unary ih
  | binary ht ht' hl hr ihl ihr => exact rowsWritten_binary ht ihl ihr
  | conditional ht hc hb ihc ihb => exact rowsWritten_conditional hc ihc ihb
  | choice ht hc hb ha ihc ihb iha => exact rowsWritten_choice hc ihc ihb iha
  | function ht hps hb ihps ihb => exact rowsWritten_function ihps ihb
  | call ht hf has ihf ihas => exact rowsWritten_call ihf ihas
  | letStatement ht hx hv ihx ih =>
    cases hx with
    | name hx => exact rowsWritten_letStatement ih
  | returnStatement ht hv ih => exact rowsWritten_returnStatement ih
  | expressionStatement hv ih =>
    intro us hus hlegible
    exact Or.inr ⟨⟨_, _, rfl⟩, Written.expressionStatement (ih us hus hlegible _ (by decide))⟩
  | block ht hss ih => exact rowsWritten_block hss ih

theorem Run.clean_iff {r : Run} : r.clean = true ↔ r.defects = [] ∧ r.oversized = none := by
  unfold clean
  rw [Bool.and_eq_true_iff, List.isEmpty_iff, Option.isNone_iff_eq_none]

/-- What is read from a text without a defect is well-formed. -/
theorem wellFormed_of_clean {limit : Nat} {source : String}
    (h : (parseWithin limit source).clean = true) :
    ∀ s ∈ (parseWithin limit source).statements, WellFormed .statement s := by
  obtain ⟨hdefects, hoversized⟩ := Run.clean_iff.1 h
  exact (spells_of_parse hdefects hoversized).wellFormed fun t ht => isLexical_of_mem_lex ht

/-- The tokens of the text of a legible program have the program written out. -/
theorem written_of_legible {p : Program} (hp : ∀ s ∈ p.statements, WellFormed .statement s)
    (hlegible : p.legible = true) :
    Written (.statements p.statements) (Cursor.ofString p.text).rest := by
  obtain ⟨hseparate, hlegible⟩ := Bool.and_eq_true_iff.1 hlegible
  refine written_statements hp (fun s hs us hus => ?_) hseparate _ (map_bare_rest_text hp)
  exact rowsWritten_of_wellFormed (hp s hs) us hus (Node.legible_of_mem hlegible s hs)

/-- The text of a legible program is read as this program, places apart. -/
theorem clean_and_alike_of_legible {p : Program} {limit : Nat}
    (hp : ∀ s ∈ p.statements, WellFormed .statement s) (hlegible : p.legible = true)
    (hdeep : (parseWithin limit p.text).withinLimit) :
    (parseWithin limit p.text).clean = true ∧
      Node.bareAll (parseWithin limit p.text).program.statements = Node.bareAll p.statements := by
  obtain ⟨ss, hbare, hspells⟩ := isSpelledAlike_of_written (written_of_legible hp hlegible) hp
  have hrun : parseWithin limit p.text =
      ⟨ss.map .ok, .before [] (Cursor.ofString p.text).stop, none⟩ := hspells.read limit hdeep
  have hstatements : (parseWithin limit p.text).program.statements = ss := by
    rw [hrun]
    exact Run.statements_map_ok ss _
  refine ⟨?_, ?_⟩
  · rw [hrun]
    exact Run.clean_iff.2 ⟨Run.defects_map_ok ss _, rfl⟩
  · rw [hstatements]
    exact hbare

/-- The text of a legible program is read as this program again. -/
theorem reparse_of_legible (limit limit' : Nat) (source : String)
    (hclean : (parseWithin limit source).clean = true)
    (hlegible : (parseWithin limit source).program.legible = true)
    (hdeep : (parseWithin limit' (parseWithin limit source).program.text).withinLimit) :
    let p := (parseWithin limit source).program
    let again := parseWithin limit' p.text
    again.clean = true ∧ Node.bareAll again.program.statements = Node.bareAll p.statements ∧
      again.program.text = p.text := by
  intro p again
  have hp : ∀ s ∈ p.statements, WellFormed .statement s := wellFormed_of_clean hclean
  obtain ⟨hagain, hbare⟩ := clean_and_alike_of_legible hp hlegible hdeep
  refine ⟨hagain, hbare, ?_⟩
  unfold Program.text
  rw [Node.texts_eq_of_bareAll hbare]

theorem reparse_of_legible_function :
    let source := "let f = fn(x, y) \x7b if (x < y) \x7b return -x \x7d else \x7b y; f(x) \x7d \x7d; f(1, 2) * 3"
    let p := (parseWithin 20 source).program
    let again := parseWithin 20 p.text
    (parseWithin 20 source).clean = true ∧ p.legible = true ∧
      again.withinLimit ∧ again.clean = true ∧
      Node.bareAll again.program.statements = Node.bareAll p.statements := by
  intro source p again
  have hclean : (parseWithin 20 source).clean = true := by decide +kernel
  have hlegible : p.legible = true := by decide +kernel
  have hdeep : again.withinLimit := by decide +kernel
  obtain ⟨hclean', hbare, -⟩ := reparse_of_legible 20 20 source hclean hlegible hdeep
  exact ⟨hclean, hlegible, hdeep, hclean', hbare⟩

/-- The text of a choice without parentheses around the condition is no program, and that of an
expression in front of a parenthesis is another one. -/
theorem reparse_fails :
    (parseWithin 500 "if (x) \x7b y \x7d").clean = true ∧
      (parseWithin 500 (parseWithin 500 "if (x) \x7b y \x7d").program.text).withinLimit ∧
      (parseWithin 500 (parseWithin 500 "if (x) \x7b y \x7d").program.text).clean = false ∧
      (parseWithin 500 "a; (-b)").clean = true ∧
      (parseWithin 500 (parseWithin 500 "a; (-b)").program.text).withinLimit ∧
      (parseWithin 500 "a; (-b)").program.statements.length = 2 ∧
      (parseWithin 500 (parseWithin 500 "a; (-b)").program.text).program.statements.length = 1 := by
  refine ⟨?_, ?_, ?_, ?_, ?_, ?_, ?_⟩ <;> decide +kernel

end MonkeySyntax
