import MonkeySyntax.Proofs.Lexemes
import MonkeySyntax.Proofs.Reading

/-!
# What is read is spelled

Whatever a production reads is spelled by the tokens it takes. For an expression that is asked for
at some level this includes that it is strong enough for that level and that the next token does
not bind tighter. The loop that continues an operand keeps one more fact: the next token does not
bind tighter than what is read so far, or else the operand in front of it would have taken it.
-/

namespace MonkeySyntax

open Production

/-- What it means that expressions are read soundly. -/
def SoundAt (sub : Nat → Production Node) : Prop :=
  ∀ {level : Nat} {c d : Cursor} {e : Node}, Precedence.lowest.level ≤ level →
    level ≤ Precedence.unary.level → sub level c = .ok e d →
    ∃ k us, c.rest = us ++ d.rest.tail ∧ Spells (.expression k e) us ∧
      (level < k ∨ Precedence.unary.level ≤ k) ∧
      (nextKind d.rest.tail).precedence.level ≤ level

section

variable {sub : Nat → Production Node} {c d : Cursor}

theorem nextExpression_sound (hsub : SoundAt sub) {e : Node}
    (h : nextExpression sub c = .ok e d) :
    ∃ k us, c.rest.tail = us ++ d.rest.tail ∧ Spells (.expression k e) us ∧
      (nextKind d.rest.tail).precedence.level ≤ Precedence.lowest.level := by
  unfold nextExpression at h
  rw [advance_bind] at h
  obtain ⟨k, us, hrest, hspells, -, hnext⟩ := hsub (by decide) (by decide) h
  exact ⟨k, us, hrest, hspells, hnext⟩

theorem grouped_sound (hsub : SoundAt sub) {e : Node} (ht : c.current.kind = .lparen)
    (h : grouped sub c = .ok e d) :
    ∃ us, c.rest = us ++ d.rest.tail ∧ Spells (.expression atomic e) us := by
  unfold grouped at h
  obtain ⟨e', c₁, he, h⟩ := bind_eq_ok.1 h
  obtain ⟨_, c₂, hexpect, h⟩ := bind_eq_ok.1 h
  cases h
  obtain ⟨k, us, hrest, hspells, -⟩ := nextExpression_sound hsub he
  obtain ⟨hr, hrest'⟩ := expect_ok (by decide) hexpect
  refine ⟨c.current :: (us ++ [d.current]), ?_, Spells.grouped ht hspells hr⟩
  rw [rest_eq_cons (by rw [ht]; decide), hrest, hrest']
  simp only [List.cons_append, List.append_assoc, List.nil_append]

theorem unary_sound (hsub : SoundAt sub) {e : Node}
    (ht : c.current.kind = .bang ∨ c.current.kind = .minus) (h : unary sub c = .ok e d) :
    ∃ us, c.rest = us ++ d.rest.tail ∧ Spells (.expression Precedence.unary.level e) us ∧
      (nextKind d.rest.tail).precedence.level ≤ Precedence.unary.level := by
  unfold unary at h
  rw [current_bind, advance_bind] at h
  obtain ⟨e', c₁, he, h⟩ := bind_eq_ok.1 h
  cases h
  obtain ⟨k, us, hrest, hspells, hk, hnext⟩ := hsub (by decide) (by decide) he
  refine ⟨c.current :: us, ?_, Spells.unary ht hspells (by omega), hnext⟩
  rw [rest_eq_cons (by rcases ht with ht | ht <;> rw [ht] <;> decide)]
  exact congrArg (c.current :: ·) hrest

theorem slot_sound (hsub : SoundAt sub) {s : Slot} {n : Node}
    (h : s.production sub c = .ok n d) :
    ∃ us, c.rest.tail = us ++ d.rest.tail ∧ Spells (.item s n) us := by
  cases s with
  | parameter =>
    obtain ⟨_, c₁, hexpect, h⟩ := bind_eq_ok.1 h
    cases h
    obtain ⟨hx, hrest⟩ := expect_ok (by decide) hexpect
    exact ⟨[d.current], hrest, Spells.parameter hx⟩
  | argument =>
    obtain ⟨k, us, hrest, hspells, -⟩ := nextExpression_sound hsub h
    exact ⟨us, hrest, Spells.argument hspells⟩

/-- Each item of a list is spelled with the comma in front of it. -/
theorem furtherItems_sound (hsub : SoundAt sub) {s : Slot} {ns : List Node}
    (h : furtherItems (s.production sub) c = .ok ns d) :
    ∃ us, c.rest.tail = us ++ d.rest.tail ∧ Spells (.further s ns) us := by
  refine many_ok (fun c ns d => ∃ us, c.rest.tail = us ++ d.rest.tail ∧
    Spells (.further s ns) us) ?_ ?_ h
  · intro c d hstop
    rw [peek_bind] at hstop
    split at hstop
    · rw [advance_bind] at hstop
      obtain ⟨n, c₁, -, hnone⟩ := bind_eq_ok.1 hstop
      cases hnone
    · cases hstop
      exact ⟨[], rfl, Spells.noFurther⟩
  · intro c n d hnext
    rw [peek_bind] at hnext
    split at hnext
    · next hpeek =>
      rw [advance_bind] at hnext
      obtain ⟨n', c₁, hitem, hsome⟩ := bind_eq_ok.1 hnext
      cases hsome
      obtain ⟨hcomma, htail⟩ := tail_eq_cons hpeek (by decide)
      obtain ⟨us, hrest, hspells⟩ := slot_sound hsub hitem
      have htail' : c.rest.tail = (c.advance.current :: us) ++ d.rest.tail :=
        htail.trans (congrArg _ hrest)
      refine ⟨remaining_lt_of_tail htail' (List.cons_ne_nil _ _), ?_⟩
      rintro ns' d' ⟨vs, hrest', hspells'⟩
      refine ⟨c.advance.current :: (us ++ vs), ?_, Spells.further hcomma hspells hspells'⟩
      rw [htail', hrest', List.cons_append, List.cons_append, List.append_assoc]
    · cases hnext

/-- A list is spelled by the tokens between its parentheses. -/
theorem list_sound (hsub : SoundAt sub) {s : Slot} {ns : List Node}
    (h : s.list sub c = .ok ns d) :
    ∃ us, c.rest.tail = us ++ d.current :: d.rest.tail ∧ d.current.kind = .rparen ∧
      Spells (.items s ns) us := by
  rw [list_eq, peek_bind] at h
  split at h
  · next hpeek =>
    cases h
    obtain ⟨hr, htail⟩ := tail_eq_cons hpeek (by decide)
    exact ⟨[], htail, hr, Spells.noItems⟩
  · obtain ⟨n, c₁, hitem, h⟩ := bind_eq_ok.1 h
    obtain ⟨ns', c₂, hfurther, h⟩ := bind_eq_ok.1 h
    obtain ⟨_, c₃, hexpect, h⟩ := bind_eq_ok.1 h
    cases h
    obtain ⟨us, hrest, hspells⟩ := slot_sound hsub hitem
    obtain ⟨vs, hrest', hspells'⟩ := furtherItems_sound hsub hfurther
    obtain ⟨hr, hrest''⟩ := expect_ok (by decide) hexpect
    refine ⟨us ++ vs, ?_, hr, Spells.items hspells hspells'⟩
    rw [hrest, hrest', hrest'', List.append_assoc]

/-- What it means that the tokens `us` in front of `rest` spell a statement with its semicolon, if
it has one. -/
def SpellsEnded (s : Node) (us rest : List Token) : Prop :=
  (∃ vs t, us = vs ++ [t] ∧ t.kind = .semicolon ∧ Spells (.statement s) vs) ∨
    Spells (.statement s) us ∧ (nextKind rest).precedence.level ≤ Precedence.lowest.level

theorem SpellsEnded.ne_nil {s : Node} {us rest : List Token} (h : SpellsEnded s us rest) :
    us ≠ [] := by
  rcases h with ⟨vs, t, rfl, -, -⟩ | ⟨h, -⟩
  · exact List.append_ne_nil_of_right_ne_nil vs (List.cons_ne_nil t [])
  · exact h.ne_nil_of_statement

theorem SpellsEnded.cons {s : Node} {ss : List Node} {us vs rest : List Token}
    (h : SpellsEnded s us (vs ++ rest)) (hss : Spells (.statements ss) vs) :
    Spells (.statements (s :: ss)) (us ++ vs) := by
  rcases h with ⟨ws, t, rfl, ht, hs⟩ | ⟨hs, hnext⟩
  · rw [List.append_assoc]
    exact Spells.terminated hs ht hss
  · refine Spells.apart hs hss ?_
    -- a minus or a parenthesis would bind tighter than the end of a statement allows
    cases vs with
    | nil => exact ⟨by decide, by decide⟩
    | cons t vs =>
      change t.kind.precedence.level ≤ _ at hnext
      change t.kind ≠ _ ∧ t.kind ≠ _
      revert hnext
      cases t.kind <;> decide

theorem allow_semicolon_sound {s : Node} (us : List Token) {u : Unit}
    (hrest : c.rest = us ++ d.rest.tail) (hs : Spells (.statement s) us)
    (hnext : (nextKind d.rest.tail).precedence.level ≤ Precedence.lowest.level) {d' : Cursor}
    (h : allow .semicolon d = .ok u d') :
    ∃ vs, c.rest = vs ++ d'.rest.tail ∧ SpellsEnded s vs d'.rest.tail := by
  rw [allow_eq] at h
  split at h
  · next hpeek =>
    cases h
    obtain ⟨ht, htail⟩ := tail_eq_cons hpeek (by decide)
    refine ⟨us ++ [d.advance.current], ?_, Or.inl ⟨us, _, rfl, ht, hs⟩⟩
    rw [hrest, htail, List.append_assoc]
    rfl
  · cases h
    exact ⟨us, hrest, Or.inr ⟨hs, hnext⟩⟩

theorem letStatement_sound (hsub : SoundAt sub) {s : Node} (ht : c.current.kind = .wordLet)
    (h : letStatement sub c = .ok s d) :
    ∃ us, c.rest = us ++ d.rest.tail ∧ SpellsEnded s us d.rest.tail := by
  unfold letStatement at h
  rw [current_bind] at h
  obtain ⟨_, c₁, hname, h⟩ := bind_eq_ok.1 h
  obtain ⟨x, c₂, hx, h⟩ := bind_eq_ok.1 h
  cases hx
  obtain ⟨_, c₃, hassign, h⟩ := bind_eq_ok.1 h
  obtain ⟨e, c₄, he, h⟩ := bind_eq_ok.1 h
  obtain ⟨_, c₅, hallow, h⟩ := bind_eq_ok.1 h
  cases h
  obtain ⟨hx, hrest⟩ := expect_ok (by decide) hname
  obtain ⟨ha, hrest'⟩ := expect_ok (by decide) hassign
  obtain ⟨k, us, hrest'', hspells, hnext⟩ := nextExpression_sound hsub he
  refine allow_semicolon_sound (c.current :: c₁.current :: c₃.current :: us) ?_
    (Spells.letStatement ht hx ha hspells) hnext hallow
  rw [rest_eq_cons (by rw [ht]; decide), hrest, hrest', hrest'']
  rfl

theorem returnStatement_sound (hsub : SoundAt sub) {s : Node}
    (ht : c.current.kind = .wordReturn) (h : returnStatement sub c = .ok s d) :
    ∃ us, c.rest = us ++ d.rest.tail ∧ SpellsEnded s us d.rest.tail := by
  unfold returnStatement at h
  rw [current_bind] at h
  obtain ⟨e, c₁, he, h⟩ := bind_eq_ok.1 h
  obtain ⟨_, c₂, hallow, h⟩ := bind_eq_ok.1 h
  cases h
  obtain ⟨k, us, hrest, hspells, hnext⟩ := nextExpression_sound hsub he
  refine allow_semicolon_sound (c.current :: us) ?_
    (Spells.returnStatement ht hspells) hnext hallow
  rw [rest_eq_cons (by rw [ht]; decide), hrest]
  rfl

theorem expressionStatement_sound (hsub : SoundAt sub) {s : Node}
    (h : expressionStatement sub c = .ok s d) :
    ∃ us, c.rest = us ++ d.rest.tail ∧ SpellsEnded s us d.rest.tail := by
  unfold expressionStatement at h
  rw [current_bind] at h
  obtain ⟨e, c₁, he, h⟩ := bind_eq_ok.1 h
  obtain ⟨_, c₂, hallow, h⟩ := bind_eq_ok.1 h
  cases h
  obtain ⟨k, us, hrest, hspells, -, hnext⟩ := hsub (by decide) (by decide) he
  -- the statement holds the first token of its expression
  cases us with
  | nil => exact absurd rfl hspells.ne_nil_of_expression
  | cons t us =>
    have ht : c.current = t := by
      unfold Cursor.current
      rw [hrest]
      rfl
    rw [ht]
    exact allow_semicolon_sound (t :: us) hrest (Spells.expressionStatement hspells) hnext hallow

theorem statement_sound (hsub : SoundAt sub) {s : Node} (h : statement sub c = .ok s d) :
    ∃ us, c.rest = us ++ d.rest.tail ∧ SpellsEnded s us d.rest.tail := by
  by_cases hlet : c.current.kind = .wordLet
  · rw [statement_of_let hlet] at h
    exact letStatement_sound hsub hlet h
  by_cases hreturn : c.current.kind = .wordReturn
  · rw [statement_of_return hreturn] at h
    exact returnStatement_sound hsub hreturn h
  · rw [statement_of_expression hlet hreturn] at h
    exact expressionStatement_sound hsub h

theorem blockStatements_sound (hsub : SoundAt sub) {brace : Token} {ss : List Node}
    (h : blockStatements sub brace c = .ok ss d) :
    ∃ us, c.rest = us ++ d.rest ∧ d.current.kind = .rbrace ∧ Spells (.statements ss) us := by
  refine blockStatements_ok (fun c ss d => ∃ us, c.rest = us ++ d.rest ∧ d.current.kind = .rbrace ∧
    Spells (.statements ss) us) (fun c hbrace => ⟨[], rfl, hbrace, Spells.noStatements⟩) ?_ h
  intro c s c₁ _ hs
  obtain ⟨us, hrest, hended⟩ := statement_sound hsub hs
  refine ⟨remaining_advance_lt hrest hended.ne_nil, ?_⟩
  rintro ss' d' ⟨vs, hrest', hbrace, hss⟩
  change c₁.rest.tail = _ at hrest'
  rw [hrest'] at hrest hended
  refine ⟨us ++ vs, ?_, hbrace, hended.cons hss⟩
  rw [hrest, List.append_assoc]

theorem block_sound (hsub : SoundAt sub) {b : Node} (ht : c.current.kind = .lbrace)
    (h : block sub c = .ok b d) :
    ∃ us, c.rest = us ++ d.rest.tail ∧ Spells (.block b) us := by
  unfold block at h
  rw [current_bind, advance_bind] at h
  obtain ⟨ss, c₁, hss, h⟩ := bind_eq_ok.1 h
  cases h
  obtain ⟨us, hrest, hr, hspells⟩ := blockStatements_sound hsub hss
  refine ⟨c.current :: (us ++ [d.current]), ?_, Spells.block ht hspells hr⟩
  change c.rest.tail = _ at hrest
  rw [rest_eq_cons (c := c) (by rw [ht]; decide), hrest,
    rest_eq_cons (c := d) (by rw [hr]; decide)]
  simp only [List.cons_append, List.append_assoc, List.nil_append, List.tail_cons]

theorem expect_block_sound (hsub : SoundAt sub) {b : Node} {u : Unit} {c' : Cursor}
    (hexpect : expect .lbrace c = .ok u c') (h : block sub c' = .ok b d) :
    ∃ us, c.rest.tail = us ++ d.rest.tail ∧ Spells (.block b) us := by
  obtain ⟨hl, hrest⟩ := expect_ok (by decide) hexpect
  obtain ⟨us, hrest', hspells⟩ := block_sound hsub hl h
  rw [rest_eq_cons (by rw [hl]; decide)] at hrest'
  exact ⟨us, hrest.trans hrest', hspells⟩

theorem conditional_sound (hsub : SoundAt sub) {n : Node} (ht : c.current.kind = .wordIf)
    (h : conditional sub c = .ok n d) :
    ∃ us, c.rest = us ++ d.rest.tail ∧ Spells (.expression atomic n) us := by
  unfold conditional at h
  rw [current_bind] at h
  obtain ⟨_, c₁, hopen, h⟩ := bind_eq_ok.1 h
  obtain ⟨e, c₂, he, h⟩ := bind_eq_ok.1 h
  obtain ⟨_, c₃, hclose, h⟩ := bind_eq_ok.1 h
  obtain ⟨_, c₄, hbrace, h⟩ := bind_eq_ok.1 h
  obtain ⟨b, c₅, hb, h⟩ := bind_eq_ok.1 h
  obtain ⟨hl, hrest⟩ := expect_ok (by decide) hopen
  obtain ⟨k, us, hrest', hspells, -⟩ := nextExpression_sound hsub he
  obtain ⟨hr, hrest''⟩ := expect_ok (by decide) hclose
  obtain ⟨vs, hvs, hblock⟩ := expect_block_sound hsub hbrace hb
  have hfront : c.rest = c.current :: c₁.current :: (us ++ c₃.current :: (vs ++ c₅.rest.tail)) := by
    rw [rest_eq_cons (by rw [ht]; decide), hrest, hrest', hrest'', hvs]
  -- what is read up to here is the same with an else behind it and without
  rw [peek_bind] at h
  split at h
  · next hpeek =>
    rw [advance_bind] at h
    obtain ⟨_, c₆, hbrace', h⟩ := bind_eq_ok.1 h
    obtain ⟨a, c₇, ha, h⟩ := bind_eq_ok.1 h
    cases h
    obtain ⟨ho, htail⟩ := tail_eq_cons hpeek (by decide)
    obtain ⟨ws, hws, hblock'⟩ := expect_block_sound hsub hbrace' ha
    refine ⟨_, ?_, Spells.choice ht hl hspells hr hblock ho hblock'⟩
    rw [hfront, htail, hws]
    simp only [List.cons_append, List.append_assoc]
  · cases h
    refine ⟨_, ?_, Spells.conditional ht hl hspells hr hblock⟩
    rw [hfront]
    simp only [List.cons_append, List.append_assoc]

theorem functionLiteral_sound (hsub : SoundAt sub) {n : Node} (ht : c.current.kind = .wordFn)
    (h : functionLiteral sub c = .ok n d) :
    ∃ us, c.rest = us ++ d.rest.tail ∧ Spells (.expression atomic n) us := by
  unfold functionLiteral at h
  rw [current_bind] at h
  obtain ⟨_, c₁, hopen, h⟩ := bind_eq_ok.1 h
  obtain ⟨ps, c₂, hps, h⟩ := bind_eq_ok.1 h
  obtain ⟨_, c₃, hbrace, h⟩ := bind_eq_ok.1 h
  obtain ⟨b, c₄, hb, h⟩ := bind_eq_ok.1 h
  cases h
  obtain ⟨hl, hrest⟩ := expect_ok (by decide) hopen
  have hlist : Slot.parameter.list sub c₁ = .ok ps c₂ := hps
  obtain ⟨us, hrest', hr, hspells⟩ := list_sound hsub hlist
  obtain ⟨vs, hvs, hblock⟩ := expect_block_sound hsub hbrace hb
  refine ⟨_, ?_, Spells.function ht hl hspells hr hblock⟩
  rw [rest_eq_cons (by rw [ht]; decide), hrest, hrest', hvs]
  simp only [List.cons_append, List.append_assoc]

/-- An operand is at least as strong as an operator in front of it, and the next token does not
bind tighter than it. -/
theorem operand_sound (hsub : SoundAt sub) {n : Node} (h : operand sub .standard c = .ok n d) :
    ∃ k us, c.rest = us ++ d.rest.tail ∧ Spells (.expression k n) us ∧
      Precedence.unary.level ≤ k ∧ (nextKind d.rest.tail).precedence.level ≤ k := by
  -- no token binds tighter than a call, and a primary expression is stronger still
  have hatomic : (nextKind d.rest.tail).precedence.level ≤ atomic := by
    cases (nextKind d.rest.tail).precedence <;> decide
  have hstrong (h : ∃ us, c.rest = us ++ d.rest.tail ∧ Spells (.expression atomic n) us) :
      ∃ k us, c.rest = us ++ d.rest.tail ∧ Spells (.expression k n) us ∧
        Precedence.unary.level ≤ k ∧ (nextKind d.rest.tail).precedence.level ≤ k := by
    obtain ⟨us, hrest, hspells⟩ := h
    exact ⟨atomic, us, hrest, hspells, by decide, hatomic⟩
  rw [operand_eq] at h
  split at h
  · have hrest (hk : c.current.kind ≠ .eof) : c.rest = [c.current] ++ c.rest.tail :=
      rest_eq_cons hk
    cases hk : c.current.kind with
    | ident =>
      rw [hk] at h
      cases h
      exact hstrong ⟨_, hrest (by rw [hk]; decide), Spells.identifier hk⟩
    | int =>
      rw [hk] at h
      obtain ⟨rfl, hd, hv, rfl⟩ := integer_of_ok h
      exact hstrong ⟨_, hrest (by rw [hk]; decide), Spells.integer hk hd hv⟩
    | wordTrue =>
      rw [hk] at h
      cases h
      exact hstrong ⟨_, hrest (by rw [hk]; decide), Spells.boolean (Or.inl hk)⟩
    | wordFalse =>
      rw [hk] at h
      cases h
      exact hstrong ⟨_, hrest (by rw [hk]; decide), Spells.boolean (Or.inr hk)⟩
    | bang =>
      rw [hk] at h
      obtain ⟨us, hus, hspells, hnext⟩ := unary_sound hsub (Or.inl hk) h
      exact ⟨_, us, hus, hspells, Nat.le_refl _, hnext⟩
    | minus =>
      rw [hk] at h
      obtain ⟨us, hus, hspells, hnext⟩ := unary_sound hsub (Or.inr hk) h
      exact ⟨_, us, hus, hspells, Nat.le_refl _, hnext⟩
    | lparen => exact hstrong (grouped_sound hsub hk (by rw [hk] at h; exact h))
    | wordIf => exact hstrong (conditional_sound hsub hk (by rw [hk] at h; exact h))
    | wordFn => exact hstrong (functionLiteral_sound hsub hk (by rw [hk] at h; exact h))
    | _ =>
      rw [hk] at h
      cases h
  · cases h

theorem call_sound (hsub : SoundAt sub) {k : Nat} {f n : Node} {us : List Token}
    (hl : c.current.kind = .lparen) (hf : Spells (.expression k f) us)
    (hk : Precedence.call.level ≤ k) (h : call sub f c = .ok n d) :
    ∃ vs, c.rest = vs ++ d.rest.tail ∧ vs ≠ [] ∧
      Spells (.expression Precedence.call.level n) (us ++ vs) := by
  unfold call at h
  rw [current_bind] at h
  obtain ⟨as, c₁, has, h⟩ := bind_eq_ok.1 h
  cases h
  have hlist : Slot.argument.list sub c = .ok as d := has
  obtain ⟨vs, hrest, hr, hspells⟩ := list_sound hsub hlist
  refine ⟨c.current :: (vs ++ [d.current]), ?_, List.cons_ne_nil _ _,
    Spells.call hf hk hl hspells hr⟩
  rw [rest_eq_cons (by rw [hl]; decide), hrest]
  simp only [List.cons_append, List.append_assoc, List.nil_append]

/-- The right operand is read at the level of the operator, so what follows binds no tighter. -/
theorem binary_sound (hsub : SoundAt sub) {k : Nat} {l n : Node} {us : List Token}
    (hbinary : c.current.kind.IsBinary) (hl : Spells (.expression k l) us)
    (hk : c.current.kind.precedence.level ≤ k) (h : binary sub l c = .ok n d) :
    ∃ vs, c.rest = vs ++ d.rest.tail ∧ vs ≠ [] ∧
      Spells (.expression c.current.kind.precedence.level n) (us ++ vs) ∧
      (nextKind d.rest.tail).precedence.level ≤ c.current.kind.precedence.level := by
  unfold binary at h
  rw [current_bind, advance_bind] at h
  obtain ⟨r, c₁, hr, h⟩ := bind_eq_ok.1 h
  cases h
  have hlow := hbinary.1
  have hunary := hbinary.level_lt
  obtain ⟨m, vs, hrest, hspells, hm, hnext⟩ := hsub (by omega) (by omega) hr
  refine ⟨c.current :: vs, ?_, List.cons_ne_nil _ _,
    Spells.binary hbinary hl hk hspells (by omega), hnext⟩
  rw [rest_eq_cons (hbinary.ne (by decide))]
  exact congrArg (c.current :: ·) hrest

/-- What continues an operand binds tighter than the level, so the longer operand is strong enough
as well. -/
theorem continuation_sound (hsub : SoundAt sub) {level k : Nat} {left n : Node}
    {us : List Token} (hlevel : Precedence.lowest.level ≤ level)
    (hleft : Spells (.expression k left) us)
    (hnext : (nextKind c.rest.tail).precedence.level ≤ k)
    (h : continuation sub .standard level left c = .ok (some n) d) :
    ∃ k' vs, c.rest.tail = vs ++ d.rest.tail ∧ vs ≠ [] ∧ Spells (.expression k' n) (us ++ vs) ∧
      level < k' ∧ (nextKind d.rest.tail).precedence.level ≤ k' := by
  rw [continuation_eq] at h
  split at h
  · next hcond =>
    obtain ⟨hsemicolon, hlt, hmem⟩ := hcond
    obtain ⟨n', c₁, hn, h⟩ := bind_eq_ok.1 h
    cases h
    -- the token behind the operand becomes the current one
    have hcurrent : c.advance.current.kind = c.peek.kind := by
      rw [kind_current, kind_peek]
      rfl
    have hnext' : c.advance.current.kind.precedence.level ≤ k := by
      rw [kind_current]
      exact hnext
    rw [← hcurrent] at hlt
    split at hn
    · next hparen =>
      rw [← hcurrent] at hparen
      rw [hparen] at hlt hnext'
      obtain ⟨vs, hrest, hvs, hspells⟩ := call_sound hsub hparen hleft hnext' hn
      refine ⟨_, vs, hrest, hvs, hspells, hlt, ?_⟩
      -- nothing binds tighter than a call
      cases (nextKind d.rest.tail).precedence <;> decide
    · next hparen =>
      rw [← hcurrent] at hparen
      have hbinary : c.advance.current.kind.IsBinary := ⟨by omega, hparen⟩
      obtain ⟨vs, hrest, hvs, hspells, hbound⟩ := binary_sound hsub hbinary hleft hnext' hn
      exact ⟨_, vs, hrest, hvs, hspells, hlt, hbound⟩
  · cases h

/-- Where an operand is not continued, the next token does not bind tighter than the level. -/
theorem continuation_stop {level : Nat} {left : Node} (hlevel : Precedence.lowest.level ≤ level)
    (h : continuation sub .standard level left c = .ok none d) :
    d = c ∧ (nextKind c.rest.tail).precedence.level ≤ level := by
  obtain ⟨hd, hpeek⟩ := continuation_of_none h
  refine ⟨hd, ?_⟩
  rw [kind_peek] at hpeek
  -- a semicolon and what continues nothing bind as weakly as can be
  have hlowest : nextKind c.rest.tail = .semicolon ∨
      nextKind c.rest.tail ∉ Rules.standard.operatorKinds →
        (nextKind c.rest.tail).precedence.level ≤ Precedence.lowest.level := by
    cases nextKind c.rest.tail <;> decide
  rcases hpeek with hsemicolon | hle | hmem
  · exact Nat.le_trans (hlowest (Or.inl hsemicolon)) hlevel
  · exact hle
  · exact Nat.le_trans (hlowest (Or.inr hmem)) hlevel

/-- What the loop that continues an operand keeps: the tokens taken since `start` spell what is read
so far, which is as strong as the level asks for, and the next token does not bind tighter. -/
def IsReadSoFar (start : Cursor) (level : Nat) (c : Cursor) (n : Node) : Prop :=
  ∃ k us, start.rest = us ++ c.rest.tail ∧ Spells (.expression k n) us ∧
    (level < k ∨ Precedence.unary.level ≤ k) ∧ (nextKind c.rest.tail).precedence.level ≤ k

theorem IsReadSoFar.next (hsub : SoundAt sub) {start : Cursor} {level : Nat} {n m : Node}
    (hlevel : Precedence.lowest.level ≤ level) (h : IsReadSoFar start level c n)
    (hstep : continuation sub .standard level n c = .ok (some m) d) :
    d.remaining < c.remaining ∧ IsReadSoFar start level d m := by
  obtain ⟨k, us, hrest, hspells, -, hnext⟩ := h
  obtain ⟨k', vs, htail, hvs, hspells', hk', hnext'⟩ :=
    continuation_sound hsub hlevel hspells hnext hstep
  refine ⟨remaining_lt_of_tail htail hvs, k', us ++ vs, ?_, hspells', Or.inl hk', hnext'⟩
  rw [hrest, htail, List.append_assoc]

/-- Whatever is read as an expression is spelled by the tokens taken, by induction on the limit. -/
theorem expression_sound (limit : Nat) : SoundAt (within limit) := by
  -- by induction on how many expressions may stand inside each other
  induction limit with
  | zero =>
    intro level c d e _ _ h
    cases h
  | succ limit ih =>
    intro level c d e hlow hhigh h
    obtain ⟨left, c₁, hleft, h⟩ := bind_eq_ok.1 h
    obtain ⟨k, us, hrest, hspells, hk, hnext⟩ := operand_sound ih hleft
    have hstart : IsReadSoFar c level c₁ left := ⟨k, us, hrest, hspells, Or.inr hk, hnext⟩
    obtain ⟨c₂, ⟨m, vs, hrest', hspells', hm, -⟩, hstop⟩ :=
      iterate_ok (IsReadSoFar c level) (fun _ _ _ _ hc hstep => hc.next ih hlow hstep) hstart h
    obtain ⟨rfl, hnext'⟩ := continuation_stop hlow hstop
    exact ⟨m, vs, hrest', hspells', hm, hnext'⟩

end

def LandsAt (sub : Nat → Production Node) : Prop :=
  ∀ {level : Nat} {c d : Cursor} {e : Node}, Precedence.lowest.level ≤ level →
    level ≤ Precedence.unary.level → sub level c = .ok e d → d.current.kind.EndsExpression

section

variable {sub : Nat → Production Node} {c d : Cursor}

theorem block_lands (hsub : SoundAt sub) {b : Node} (h : block sub c = .ok b d) :
    d.current.kind = .rbrace := by
  unfold block at h
  rw [current_bind, advance_bind] at h
  obtain ⟨ss, c₁, hss, h⟩ := bind_eq_ok.1 h
  cases h
  obtain ⟨us, -, hr, -⟩ := blockStatements_sound hsub hss
  exact hr

theorem conditional_lands (hsub : SoundAt sub) {n : Node} (h : conditional sub c = .ok n d) :
    d.current.kind = .rbrace := by
  unfold conditional at h
  rw [current_bind] at h
  obtain ⟨_, c₁, -, h⟩ := bind_eq_ok.1 h
  obtain ⟨e, c₂, -, h⟩ := bind_eq_ok.1 h
  obtain ⟨_, c₃, -, h⟩ := bind_eq_ok.1 h
  obtain ⟨_, c₄, -, h⟩ := bind_eq_ok.1 h
  obtain ⟨b, c₅, hb, h⟩ := bind_eq_ok.1 h
  rw [peek_bind] at h
  split at h
  · rw [advance_bind] at h
    obtain ⟨_, c₆, -, h⟩ := bind_eq_ok.1 h
    obtain ⟨a, c₇, ha, h⟩ := bind_eq_ok.1 h
    cases h
    exact block_lands hsub ha
  · cases h
    exact block_lands hsub hb

theorem functionLiteral_lands (hsub : SoundAt sub) {n : Node}
    (h : functionLiteral sub c = .ok n d) : d.current.kind = .rbrace := by
  unfold functionLiteral at h
  rw [current_bind] at h
  obtain ⟨_, c₁, -, h⟩ := bind_eq_ok.1 h
  obtain ⟨ps, c₂, -, h⟩ := bind_eq_ok.1 h
  obtain ⟨_, c₃, -, h⟩ := bind_eq_ok.1 h
  obtain ⟨b, c₄, hb, h⟩ := bind_eq_ok.1 h
  cases h
  exact block_lands hsub hb

/-- An operand ends at a token that can end an expression. -/
theorem operand_lands (hsub : SoundAt sub) (hlands : LandsAt sub) {n : Node}
    (h : operand sub .standard c = .ok n d) : d.current.kind.EndsExpression := by
  have hunary (h : unary sub c = .ok n d) : d.current.kind.EndsExpression := by
    unfold unary at h
    rw [current_bind, advance_bind] at h
    obtain ⟨e, c₁, he, h⟩ := bind_eq_ok.1 h
    cases h
    exact hlands (by decide) (by decide) he
  have hgrouped (h : grouped sub c = .ok n d) : d.current.kind.EndsExpression := by
    obtain ⟨e, c₁, -, h⟩ := bind_eq_ok.1 h
    obtain ⟨_, c₂, hexpect, h⟩ := bind_eq_ok.1 h
    cases h
    rw [(expect_ok (by decide) hexpect).1]
    decide
  rw [operand_eq] at h
  split at h
  · cases hk : c.current.kind with
    | ident | wordTrue | wordFalse =>
      rw [hk] at h
      cases h
      rw [hk]
      decide
    | int =>
      rw [hk] at h
      rw [(integer_of_ok h).1, hk]
      decide
    | bang | minus =>
      rw [hk] at h
      exact hunary h
    | lparen =>
      rw [hk] at h
      exact hgrouped h
    | wordIf =>
      rw [hk] at h
      rw [conditional_lands hsub h]
      decide
    | wordFn =>
      rw [hk] at h
      rw [functionLiteral_lands hsub h]
      decide
    | _ =>
      rw [hk] at h
      cases h
  · cases h

theorem continuation_lands (hsub : SoundAt sub) (hlands : LandsAt sub) {level : Nat}
    {left n : Node} (hlevel : Precedence.lowest.level ≤ level)
    (h : continuation sub .standard level left c = .ok (some n) d) :
    d.current.kind.EndsExpression := by
  rw [continuation_eq] at h
  split at h
  · next hcond =>
    obtain ⟨n', c₁, hn, h⟩ := bind_eq_ok.1 h
    cases h
    split at hn
    · unfold call at hn
      rw [current_bind] at hn
      obtain ⟨as, c₂, has, hn⟩ := bind_eq_ok.1 hn
      cases hn
      have hlist : Slot.argument.list sub c.advance = .ok as d := has
      obtain ⟨us, -, hr, -⟩ := list_sound hsub hlist
      rw [hr]
      decide
    · next hparen =>
      unfold binary at hn
      rw [current_bind, advance_bind] at hn
      obtain ⟨r, c₂, hr, hn⟩ := bind_eq_ok.1 hn
      cases hn
      have hcurrent : c.advance.current.kind = c.peek.kind := by
        rw [kind_current, kind_peek]
        rfl
      have hbinary : c.peek.kind.IsBinary := ⟨Nat.lt_of_le_of_lt hlevel hcond.2.1, hparen⟩
      rw [hcurrent] at hr
      exact hlands (Nat.le_of_lt hbinary.1) (Nat.le_of_lt hbinary.level_lt) hr
  · cases h

end

theorem expression_lands (limit : Nat) : LandsAt (within limit) := by
  induction limit with
  | zero =>
    intro level c d e _ _ h
    cases h
  | succ limit ih =>
    intro level c d e hlow _ h
    have hsound : SoundAt (within limit) := expression_sound limit
    obtain ⟨left, c₁, hleft, h⟩ := bind_eq_ok.1 h
    obtain ⟨k, us, hrest, hspells, hk, hnext⟩ := operand_sound hsound hleft
    have hstart : IsReadSoFar c level c₁ left := ⟨k, us, hrest, hspells, Or.inr hk, hnext⟩
    -- beside the last token the loop has to keep what makes it move on
    obtain ⟨c₂, ⟨-, hends⟩, hstop⟩ := iterate_ok
      (fun c' n => IsReadSoFar c level c' n ∧ c'.current.kind.EndsExpression)
      (fun _ _ _ _ hc hstep => ⟨(hc.1.next hsound hlow hstep).1, (hc.1.next hsound hlow hstep).2,
        continuation_lands hsound ih hlow hstep⟩)
      ⟨hstart, operand_lands hsound ih hleft⟩ h
    obtain ⟨rfl, -⟩ := continuation_stop hlow hstop
    exact hends

theorem nextExpression_lands {limit : Nat} {c d : Cursor} {e : Node}
    (h : nextExpression (within limit) c = .ok e d) : d.current.kind.EndsExpression := by
  unfold nextExpression at h
  rw [advance_bind] at h
  exact expression_lands limit (by decide) (by decide) h

theorem allow_semicolon_lands {c d : Cursor} {u : Unit} (hc : c.current.kind.EndsExpression)
    (h : allow .semicolon c = .ok u d) :
    d.current.kind.EndsExpression ∨ d.current.kind = .semicolon := by
  rw [allow_eq] at h
  split at h
  · next hpeek =>
    cases h
    exact Or.inr (tail_eq_cons hpeek (by decide)).1
  · cases h
    exact Or.inl hc

/-- A statement ends where an expression does, or at its semicolon. -/
theorem statement_lands {limit : Nat} {c d : Cursor} {s : Node}
    (h : statementWithin .standard limit c = .ok s d) :
    d.current.kind.EndsExpression ∨ d.current.kind = .semicolon := by
  change statement (within limit) c = .ok s d at h
  by_cases hlet : c.current.kind = .wordLet
  · rw [statement_of_let hlet] at h
    obtain ⟨_, c₁, -, h⟩ := bind_eq_ok.1 h
    obtain ⟨_, c₂, -, h⟩ := bind_eq_ok.1 h
    obtain ⟨x, c₃, -, h⟩ := bind_eq_ok.1 h
    obtain ⟨_, c₄, -, h⟩ := bind_eq_ok.1 h
    obtain ⟨v, c₅, hv, h⟩ := bind_eq_ok.1 h
    obtain ⟨_, c₆, hallow, h⟩ := bind_eq_ok.1 h
    cases h
    exact allow_semicolon_lands (nextExpression_lands hv) hallow
  by_cases hreturn : c.current.kind = .wordReturn
  · rw [statement_of_return hreturn] at h
    obtain ⟨_, c₁, -, h⟩ := bind_eq_ok.1 h
    obtain ⟨v, c₂, hv, h⟩ := bind_eq_ok.1 h
    obtain ⟨_, c₃, hallow, h⟩ := bind_eq_ok.1 h
    cases h
    exact allow_semicolon_lands (nextExpression_lands hv) hallow
  · rw [statement_of_expression hlet hreturn] at h
    obtain ⟨_, c₁, -, h⟩ := bind_eq_ok.1 h
    obtain ⟨v, c₂, hv, h⟩ := bind_eq_ok.1 h
    obtain ⟨_, c₃, hallow, h⟩ := bind_eq_ok.1 h
    cases h
    exact allow_semicolon_lands (expression_lands limit (by decide) (by decide) hv) hallow

/-- The statements of a run without a defect are spelled by all tokens that were ahead. -/
theorem spells_of_runFrom {limit : Nat} {c : Cursor} (hc : ∀ t ∈ c.rest, t.kind ≠ .eof)
    (hdefects : (runFrom (statementWithin .standard limit) c).defects = [])
    (hoversized : (runFrom (statementWithin .standard limit) c).oversized = none) :
    Spells (.statements (runFrom (statementWithin .standard limit) c).statements) c.rest := by
  fun_induction runFrom (statementWithin .standard limit) c with
  | case1 c heof =>
    have hnil : c.rest = [] := by
      rw [kind_current] at heof
      cases hrest : c.rest with
      | nil => rfl
      | cons t ts =>
        rw [hrest] at heof
        exact absurd heof (hc t (hrest ▸ List.mem_cons_self))
    rw [hnil]
    exact Spells.noStatements
  -- a run that stops at an oversized literal is ruled out
  | case2 c heof n c' hattempt => cases hoversized
  | case3 c heof o c' hattempt hlt ih =>
    cases o with
    | error e => cases hdefects
    | ok s =>
      obtain ⟨d, hs, rfl⟩ := attempt_ok hattempt
      obtain ⟨us, hrest, hended⟩ := statement_sound (expression_sound limit) hs
      have hspells :=
        ih (fun t ht => hc t (hrest ▸ List.mem_append_right us ht)) hdefects hoversized
      have hended' : SpellsEnded s us (d.rest.tail ++ []) := by
        rw [List.append_nil]
        exact hended
      rw [hrest]
      exact hended'.cons hspells
  | case4 c heof o c' hattempt hlt =>
    cases o with
    | error e => cases hdefects
    | ok s =>
      obtain ⟨d, hs, rfl⟩ := attempt_ok hattempt
      obtain ⟨us, hrest, hended⟩ := statement_sound (expression_sound limit) hs
      -- a statement takes at least one token, so reading moves on
      exact absurd (remaining_advance_lt hrest hended.ne_nil) hlt

/-- A text that is read without a defect spells the statements that are read. -/
theorem spells_of_parse {limit : Nat} {source : String}
    (hdefects : (parseWithin limit source).defects = [])
    (hoversized : (parseWithin limit source).oversized = none) :
    Spells (.statements (parseWithin limit source).statements) (Cursor.ofString source).rest := by
  refine spells_of_runFrom (fun t ht => ?_) hdefects hoversized
  exact (isLexical_of_mem_lex ht).kind_ne_eof

end MonkeySyntax
