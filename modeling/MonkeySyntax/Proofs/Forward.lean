import MonkeySyntax.Proofs.Productions

namespace MonkeySyntax

structure Cursor.Reaches (c d : Cursor) : Prop where
  suffix : d.rest <:+ c.rest
  stop : d.stop = c.stop

theorem Cursor.Reaches.refl (c : Cursor) : c.Reaches c :=
  ⟨List.suffix_rfl, rfl⟩

theorem Cursor.Reaches.trans {c d e : Cursor} (h : c.Reaches d) (h' : d.Reaches e) :
    c.Reaches e :=
  ⟨h'.suffix.trans h.suffix, h'.stop.trans h.stop⟩

theorem Cursor.reaches_advance (c : Cursor) : c.Reaches c.advance :=
  ⟨List.tail_suffix c.rest, rfl⟩

theorem Cursor.Reaches.remaining_le {c d : Cursor} (h : c.Reaches d) :
    d.remaining ≤ c.remaining := by
  rw [c.remaining_eq, d.remaining_eq]
  exact h.suffix.length_le

/-- A step behind a place that is reached leaves less to read. -/
theorem Cursor.Reaches.advance_lt {c d : Cursor} (h : c.Reaches d) (hc : c.current.kind ≠ .eof) :
    d.advance.remaining < c.remaining := by
  have hpos := Cursor.remaining_pos hc
  have hle := h.remaining_le
  rw [Cursor.remaining_advance]
  omega

def Fault.IsAhead (f : Fault) (c : Cursor) : Prop :=
  ∀ n, f = .oversizedLiteral n →
    ∃ t ∈ c.rest, t.kind = .int ∧ t.literal.toList.length = n ∧ maxDigits < n

theorem Fault.isAhead_defect (d : Defect) (c : Cursor) : (Fault.defect d).IsAhead c := by
  intro n h
  cases h

theorem Fault.IsAhead.of_reaches {f : Fault} {c d : Cursor} (h : f.IsAhead d)
    (hcd : c.Reaches d) : f.IsAhead c := by
  intro n hn
  obtain ⟨t, ht, hkind⟩ := h n hn
  exact ⟨t, hcd.suffix.mem ht, hkind⟩

namespace Production

variable {α β : Type}

/-- Whether a production moves forward only, and meets only faults that are ahead. -/
structure Forward (x : Production α) : Prop where
  ok : ∀ {c d a}, x c = .ok a d → c.Reaches d
  error : ∀ {c d f}, x c = .error f d → c.Reaches d ∧ f.IsAhead c

theorem forward_pure (a : α) : Forward (pure a : Production α) := by
  refine ⟨fun {c d b} h => ?_, fun {c d f} h => ?_⟩
  · cases h
    exact Cursor.Reaches.refl c
  · cases h

theorem forward_fail (e : Defect) : Forward (fail e : Production α) := by
  refine ⟨fun {c d b} h => ?_, fun {c d f} h => ?_⟩
  · cases h
  · cases h
    exact ⟨Cursor.Reaches.refl c, Fault.isAhead_defect e c⟩

theorem forward_current : Forward current := by
  refine ⟨fun {c d b} h => ?_, fun {c d f} h => ?_⟩
  · cases h
    exact Cursor.Reaches.refl c
  · cases h

theorem forward_peek : Forward peek := by
  refine ⟨fun {c d b} h => ?_, fun {c d f} h => ?_⟩
  · cases h
    exact Cursor.Reaches.refl c
  · cases h

theorem forward_advance : Forward advance := by
  refine ⟨fun {c d b} h => ?_, fun {c d f} h => ?_⟩
  · cases h
    exact c.reaches_advance
  · cases h

theorem Forward.bind {x : Production α} {f : α → Production β} (hx : Forward x)
    (hf : ∀ a, Forward (f a)) : Forward (x >>= f) := by
  refine ⟨fun {c d b} h => ?_, fun {c d e} h => ?_⟩
  · obtain ⟨a, c', ha, hb⟩ := bind_eq_ok.1 h
    exact (hx.ok ha).trans ((hf a).ok hb)
  · cases ha : x c with
    | ok a c' =>
      rw [bind_of_ok ha] at h
      obtain ⟨hreach, hahead⟩ := (hf a).error h
      exact ⟨(hx.ok ha).trans hreach, hahead.of_reaches (hx.ok ha)⟩
    | error e' c' =>
      rw [bind_of_error ha] at h
      cases h
      exact hx.error ha

theorem Forward.ite {p : Prop} [Decidable p] {x y : Production α} (hx : Forward x)
    (hy : Forward y) : Forward (if p then x else y) := by
  split
  · exact hx
  · exact hy

theorem forward_expect (k : Kind) : Forward (expect k) :=
  forward_peek.bind fun _ => forward_advance.ite (forward_fail _)

theorem forward_allow (k : Kind) : Forward (allow k) :=
  forward_peek.bind fun _ => forward_advance.ite (forward_pure _)

/-- A repetition moves forward as its rounds do, by induction on the tokens that are left. -/
theorem Forward.many {item : Production (Option α)} (hitem : Forward item) :
    Forward (Production.many item) := by
  have hok {c c' : Cursor} {o : Option α} (h : item c = .ok o c') : c.Reaches c' := hitem.ok h
  refine ⟨fun {c d as} h => ?_, fun {c d f} h => ?_⟩
  · fun_induction Production.many item c generalizing as d with
    | case1 c f c' hc => cases h
    | case2 c c' hc =>
      cases h
      exact hok hc
    | case3 c a c' hc hlt f c'' hmany ih => cases h
    -- the places a repetition passes are reached one from the other
    | case4 c a c' hc hlt as c'' hmany ih =>
      cases h
      exact (hok hc).trans (ih hmany)
    | case5 c a c' hc hlt =>
      cases h
      exact hok hc
  · fun_induction Production.many item c generalizing f d with
    | case1 c e c' hc =>
      cases h
      exact hitem.error hc
    | case2 c c' hc => cases h
    | case3 c a c' hc hlt e c'' hmany ih =>
      cases h
      obtain ⟨hreach, hahead⟩ := ih hmany
      exact ⟨(hok hc).trans hreach, hahead.of_reaches (hok hc)⟩
    | case4 c a c' hc hlt as c'' hmany ih => cases h
    | case5 c a c' hc hlt => cases h

theorem Forward.iterate {step : α → Production (Option α)} (hstep : ∀ a, Forward (step a))
    (a : α) : Forward (Production.iterate step a) := by
  refine ⟨fun {c d b} h => ?_, fun {c d f} h => ?_⟩
  · fun_induction Production.iterate step a c with
    | case1 a c f c' hc => cases h
    | case2 a c c' hc =>
      cases h
      exact (hstep _).ok hc
    | case3 a c b' c' hc hlt ih => exact ((hstep _).ok hc).trans (ih h)
    | case4 a c b' c' hc hlt =>
      cases h
      exact (hstep _).ok hc
  · fun_induction Production.iterate step a c with
    | case1 a c e c' hc =>
      cases h
      exact (hstep _).error hc
    | case2 a c c' hc => cases h
    | case3 a c b' c' hc hlt ih =>
      obtain ⟨hreach, hahead⟩ := ih h
      exact ⟨((hstep _).ok hc).trans hreach, hahead.of_reaches ((hstep _).ok hc)⟩
    | case4 a c b' c' hc hlt => cases h

theorem forward_identifier : Forward identifier :=
  forward_current.bind fun _ => forward_pure _

theorem forward_boolean : Forward boolean :=
  forward_current.bind fun _ => forward_pure _

section

variable {sub : Nat → Production Node} (hsub : ∀ level, Forward (sub level))

include hsub

theorem forward_nextExpression : Forward (nextExpression sub) :=
  forward_advance.bind fun _ => hsub _

theorem forward_slot (s : Slot) : Forward (s.production sub) := by
  cases s with
  | parameter =>
    exact (forward_expect _).bind fun _ => forward_identifier
  | argument => exact forward_nextExpression hsub

theorem forward_list (s : Slot) : Forward (s.list sub) := by
  have hfurther : Forward (furtherItems (s.production sub)) :=
    (forward_peek.bind fun _ => (forward_advance.bind fun _ =>
      (forward_slot hsub s).bind fun _ => forward_pure _).ite (forward_pure _)).many
  rw [list_eq]
  refine forward_peek.bind fun _ => Forward.ite ?_ ?_
  · exact forward_advance.bind fun _ => forward_pure _
  · exact (forward_slot hsub s).bind fun _ => hfurther.bind fun _ =>
      (forward_expect _).bind fun _ => forward_pure _

theorem forward_letStatement : Forward (letStatement sub) :=
  forward_current.bind fun _ => (forward_expect _).bind fun _ => forward_identifier.bind fun _ =>
    (forward_expect _).bind fun _ => (forward_nextExpression hsub).bind fun _ =>
      (forward_allow _).bind fun _ => forward_pure _

theorem forward_returnStatement : Forward (returnStatement sub) :=
  forward_current.bind fun _ => (forward_nextExpression hsub).bind fun _ =>
    (forward_allow _).bind fun _ => forward_pure _

theorem forward_expressionStatement : Forward (expressionStatement sub) :=
  forward_current.bind fun _ => (hsub _).bind fun _ => (forward_allow _).bind fun _ =>
    forward_pure _

theorem forward_statement : Forward (statement sub) := by
  unfold statement
  refine forward_current.bind fun t => ?_
  split
  · exact forward_letStatement hsub
  · exact forward_returnStatement hsub
  · exact forward_expressionStatement hsub

theorem forward_block : Forward (block sub) := by
  have hstatements (brace : Token) : Forward (blockStatements sub brace) :=
    (forward_current.bind fun _ => (forward_pure _).ite ((forward_fail _).ite
      ((forward_statement hsub).bind fun _ => forward_advance.bind fun _ => forward_pure _))).many
  exact forward_current.bind fun _ => forward_advance.bind fun _ =>
    (hstatements _).bind fun _ => forward_pure _

theorem forward_conditional : Forward (conditional sub) := by
  have hexpect (k : Kind) {f : Unit → Production Node} (hf : ∀ u, Forward (f u)) :
      Forward (expect k >>= f) := (forward_expect k).bind hf
  refine forward_current.bind fun _ => hexpect _ fun _ => ?_
  refine (forward_nextExpression hsub).bind fun _ => hexpect _ fun _ => hexpect _ fun _ => ?_
  refine (forward_block hsub).bind fun _ => forward_peek.bind fun _ => Forward.ite ?_ ?_
  · exact forward_advance.bind fun _ => hexpect _ fun _ =>
      (forward_block hsub).bind fun _ => forward_pure _
  · exact forward_pure _

theorem forward_functionLiteral : Forward (functionLiteral sub) :=
  forward_current.bind fun _ => (forward_expect _).bind fun _ =>
    Forward.bind (forward_list hsub .parameter) fun _ => (forward_expect _).bind fun _ =>
      (forward_block hsub).bind fun _ => forward_pure _

theorem forward_unary : Forward (unary sub) :=
  forward_current.bind fun _ => forward_advance.bind fun _ => (hsub _).bind fun _ => forward_pure _

theorem forward_grouped : Forward (grouped sub) :=
  (forward_nextExpression hsub).bind fun _ => (forward_expect _).bind fun _ => forward_pure _

theorem forward_primary {k : Kind} (hk : k ≠ .int) : Forward (primary sub k) := by
  cases k with
  | int => exact absurd rfl hk
  | ident => exact forward_identifier
  | wordTrue | wordFalse => exact forward_boolean
  | bang | minus => exact forward_unary hsub
  | lparen => exact forward_grouped hsub
  | wordIf => exact forward_conditional hsub
  | wordFn => exact forward_functionLiteral hsub
  | _ => exact forward_current.bind fun _ => forward_fail _

/-- Of all operands only an integer can meet a literal that is too long, and that one is current. -/
theorem forward_operand (rules : Rules) : Forward (operand sub rules) := by
  refine ⟨fun {c d n} h => ?_, fun {c d f} h => ?_⟩
  · rw [operand_eq] at h
    split at h
    · by_cases hk : c.current.kind = .int
      · rw [hk] at h
        rw [(integer_of_ok h).1]
        exact Cursor.Reaches.refl c
      · exact (forward_primary hsub hk).ok h
    · cases h
  · rw [operand_eq] at h
    split at h
    -- an integer is the only operand that can be an oversized literal
    · by_cases hk : c.current.kind = .int
      · rw [hk] at h
        have hmem : c.current ∈ c.rest := current_mem_rest (by rw [hk]; decide)
        obtain ⟨rfl, ⟨rfl, -⟩ | ⟨rfl, hlength⟩ | ⟨rfl, -⟩⟩ := integer_of_error h
        · exact ⟨Cursor.Reaches.refl d, Fault.isAhead_defect _ d⟩
        · refine ⟨Cursor.Reaches.refl d, fun n hn => ?_⟩
          cases hn
          exact ⟨d.current, hmem, hk, rfl, hlength⟩
        · exact ⟨Cursor.Reaches.refl d, Fault.isAhead_defect _ d⟩
      · exact (forward_primary hsub hk).error h
    · cases h
      exact ⟨Cursor.Reaches.refl c, Fault.isAhead_defect _ c⟩

theorem forward_call (callee : Node) : Forward (call sub callee) :=
  forward_current.bind fun _ => Forward.bind (forward_list hsub .argument) fun _ => forward_pure _

theorem forward_binary (left : Node) : Forward (binary sub left) :=
  forward_current.bind fun _ => forward_advance.bind fun _ => (hsub _).bind fun _ => forward_pure _

theorem forward_extend (rules : Rules) (level : Nat) (left : Node) :
    Forward (extend sub rules level left) := by
  refine Forward.iterate (fun n => ?_) left
  refine forward_peek.bind fun t => Forward.ite ?_ (forward_pure _)
  refine forward_advance.bind fun _ => Forward.ite ?_ ?_
  · exact (forward_call hsub n).bind fun _ => forward_pure _
  · exact (forward_binary hsub n).bind fun _ => forward_pure _

end

/-- Expressions move forward under all rules and limits. -/
theorem forward_expression (rules : Rules) (limit level : Nat) :
    Forward (expression rules limit level) := by
  -- the expressions inside an operand are nested less deeply
  induction limit generalizing level with
  | zero => exact forward_current.bind fun _ => forward_fail _
  | succ limit ih =>
    exact (forward_operand ih rules).bind fun left => forward_extend ih rules level left

theorem forward_statementWithin (rules : Rules) (limit : Nat) :
    Forward (statementWithin rules limit) :=
  forward_statement (forward_expression rules limit)

end Production

theorem Cursor.reaches_skipStatement (c : Cursor) : c.Reaches c.skipStatement :=
  ⟨List.dropWhile_suffix _, rfl⟩

section

variable {statement : Production Node} (hstatement : Production.Forward statement)

include hstatement

theorem reaches_of_attempt {c c' : Cursor} {o : Except Nat (Except Defect Node)}
    (h : attempt statement c = (o, c')) : c.Reaches c' := by
  rcases o with n | e | s
  · exact (hstatement.error (attempt_oversized h)).1
  · obtain ⟨d, hs, rfl⟩ := attempt_error h
    refine (hstatement.error hs).1.trans (Cursor.Reaches.trans ?_ (Cursor.reaches_advance _))
    split
    · exact d.reaches_skipStatement
    · exact Cursor.Reaches.refl d
  · obtain ⟨d, hs, rfl⟩ := attempt_ok h
    exact (hstatement.ok hs).trans d.reaches_advance

/-- An attempt moves on. -/
theorem attempt_lt {c c' : Cursor} {o : Except Defect Node} (hc : c.current.kind ≠ .eof)
    (h : attempt statement c = (.ok o, c')) : c'.remaining < c.remaining := by
  cases o with
  | ok s =>
    obtain ⟨d, hs, rfl⟩ := attempt_ok h
    exact (hstatement.ok hs).advance_lt hc
  | error e =>
    obtain ⟨d, hs, rfl⟩ := attempt_error h
    refine Cursor.Reaches.advance_lt ?_ hc
    split
    · exact (hstatement.error hs).1.trans d.reaches_skipStatement
    · exact (hstatement.error hs).1

/-- Every outcome of a run is that of an attempt on the way. -/
theorem exists_attempt_of_mem {c : Cursor} {o : Except Defect Node}
    (ho : o ∈ (runFrom statement c).outcomes) :
    ∃ b d, c.Reaches b ∧ attempt statement b = (.ok o, d) := by
  fun_induction runFrom statement c with
  | case1 c heof | case2 c heof n c' hattempt => cases ho
  | case3 c heof o' c' hattempt hlt ih =>
    rcases List.mem_cons.1 ho with rfl | hlater
    · exact ⟨c, c', Cursor.Reaches.refl c, hattempt⟩
    · -- what is reached later is reached from here
      obtain ⟨b, d, hreach, hb⟩ := ih hlater
      exact ⟨b, d, (reaches_of_attempt hstatement hattempt).trans hreach, hb⟩
  | case4 c heof o' c' hattempt hlt =>
    obtain rfl := List.mem_singleton.1 ho
    exact ⟨c, c', Cursor.Reaches.refl c, hattempt⟩

/-- A defect of a run is the fault of a statement that was attempted on the way. -/
theorem exists_fault_of_mem_defects {c : Cursor} {e : Defect}
    (he : e ∈ (runFrom statement c).defects) :
    ∃ b d, c.Reaches b ∧ statement b = .error (.defect e) d := by
  obtain ⟨o, ho, hoe⟩ := List.mem_filterMap.1 he
  cases o with
  | ok s => cases hoe
  | error e' =>
    cases hoe
    obtain ⟨b, c', hreach, hattempt⟩ := exists_attempt_of_mem hstatement ho
    obtain ⟨d, hfault, -⟩ := attempt_error hattempt
    exact ⟨b, d, hreach, hfault⟩

/-- What puts an end to reading is a literal ahead that is too long to be converted. -/
theorem isAhead_of_oversized {c : Cursor} {n : Nat}
    (h : (runFrom statement c).oversized = some n) : (Fault.oversizedLiteral n).IsAhead c := by
  fun_induction runFrom statement c with
  | case1 c heof => cases h
  | case2 c heof m c' hattempt =>
    cases h
    exact (hstatement.error (attempt_oversized hattempt)).2
  | case3 c heof o c' hattempt hlt ih =>
    -- what is ahead later is ahead now
    exact (ih h).of_reaches (reaches_of_attempt hstatement hattempt)
  | case4 c heof o c' hattempt hlt => cases h

theorem reaches_runFrom (c : Cursor) : c.Reaches (runFrom statement c).cursor := by
  fun_induction runFrom statement c with
  | case1 c heof => exact Cursor.Reaches.refl c
  | case2 c heof m c' hattempt => exact reaches_of_attempt hstatement hattempt
  | case3 c heof o c' hattempt hlt ih =>
    exact (reaches_of_attempt hstatement hattempt).trans ih
  | case4 c heof o c' hattempt hlt => exact reaches_of_attempt hstatement hattempt

/-- Reading that nothing puts an end to ends where the text ends. -/
theorem eof_of_oversized_eq_none {c : Cursor} (h : (runFrom statement c).oversized = none) :
    (runFrom statement c).cursor.current.kind = .eof := by
  fun_induction runFrom statement c with
  | case1 c heof => exact heof
  | case2 c heof m c' hattempt => cases h
  | case3 c heof o c' hattempt hlt ih => exact ih h
  | case4 c heof o c' hattempt hlt => exact absurd (attempt_lt hstatement heof hattempt) hlt

end

/-- Reading stops short only at a literal that is too long to be converted. -/
theorem oversized_eq_none {rules : Rules} {limit : Nat} {c : Cursor}
    (hc : ∀ t ∈ c.rest, t.kind = .int → t.literal.toList.length ≤ maxDigits) :
    (runFrom (Production.statementWithin rules limit) c).oversized = none := by
  refine Option.eq_none_iff_forall_ne_some.2 fun n h => ?_
  obtain ⟨t, ht, hkind, hlength, hlt⟩ :=
    isAhead_of_oversized (Production.forward_statementWithin rules limit) h n rfl
  have hle := hc t ht hkind
  omega

end MonkeySyntax
