import MonkeySyntax.Proofs.Spelling

namespace MonkeySyntax

theorem kind_current (c : Cursor) : c.current.kind = nextKind c.rest := by
  obtain ⟨_ | ⟨t, ts⟩, stop, _, rfl⟩ := c <;> rfl

theorem kind_peek (c : Cursor) : c.peek.kind = nextKind c.rest.tail := by
  obtain ⟨_ | ⟨t, _ | ⟨u, ts⟩⟩, stop, _, rfl⟩ := c <;> rfl

theorem rest_eq_cons {c : Cursor} (h : c.current.kind ≠ .eof) :
    c.rest = c.current :: c.rest.tail := by
  obtain ⟨_ | ⟨t, ts⟩, stop, _, rfl⟩ := c
  · exact absurd rfl h
  · rfl

theorem current_mem_rest {c : Cursor} (h : c.current.kind ≠ .eof) : c.current ∈ c.rest := by
  rw [rest_eq_cons h]
  exact List.mem_cons_self

theorem current_eq_eof_iff {c : Cursor} (hc : ∀ t ∈ c.rest, t.kind ≠ .eof) :
    c.current.kind = .eof ↔ c.rest = [] := by
  rw [kind_current]
  cases hrest : c.rest with
  | nil => exact ⟨fun _ => rfl, fun _ => rfl⟩
  | cons t ts =>
    have ht : t.kind ≠ .eof := hc t (by rw [hrest]; exact List.mem_cons_self)
    exact ⟨fun heof => absurd heof ht, fun hnil => nomatch hnil⟩

/-- A token ahead that is not the end of the text is the current one after a step. -/
theorem tail_eq_cons {c : Cursor} {k : Kind} (h : c.peek.kind = k) (hk : k ≠ .eof) :
    c.advance.current.kind = k ∧ c.rest.tail = c.advance.current :: c.advance.rest.tail := by
  have hcurrent : c.advance.current.kind = k := by
    rw [kind_current]
    rw [kind_peek] at h
    exact h
  exact ⟨hcurrent, rest_eq_cons (by rw [hcurrent]; exact hk)⟩

theorem remaining_lt_of_tail {c d : Cursor} {us : List Token}
    (h : c.rest.tail = us ++ d.rest.tail) (hus : us ≠ []) : d.remaining < c.remaining := by
  have hlength := congrArg List.length h
  have hpos : 0 < us.length := List.length_pos_iff.2 hus
  rw [List.length_append, List.length_tail, List.length_tail] at hlength
  rw [c.remaining_eq, d.remaining_eq]
  omega

theorem remaining_advance_lt {c d : Cursor} {us : List Token}
    (h : c.rest = us ++ d.rest.tail) (hus : us ≠ []) : d.advance.remaining < c.remaining := by
  have hlength := congrArg List.length h
  have hpos : 0 < us.length := List.length_pos_iff.2 hus
  rw [List.length_append] at hlength
  rw [c.remaining_eq, d.advance.remaining_eq]
  change d.rest.tail.length < _
  omega

def Slot.production (sub : Nat → Production Node) : Slot → Production Node
  | .parameter => Production.parameter
  | .argument => Production.nextExpression sub

def Slot.list (sub : Nat → Production Node) : Slot → Production (List Node)
  | .parameter => Production.parameters
  | .argument => Production.arguments sub

namespace Production

variable {α β : Type}

theorem bind_of_ok {x : Production α} {f : α → Production β} {c d : Cursor} {a : α}
    (h : x c = .ok a d) : (x >>= f) c = f a d := by
  simp only [bind, EStateM.bind, h]

theorem bind_of_error {x : Production α} {f : α → Production β} {c d : Cursor} {e : Fault}
    (h : x c = .error e d) : (x >>= f) c = .error e d := by
  simp only [bind, EStateM.bind, h]

theorem current_bind (f : Token → Production α) (c : Cursor) :
    (current >>= f) c = f c.current c := rfl

theorem peek_bind (f : Token → Production α) (c : Cursor) :
    (peek >>= f) c = f c.peek c := rfl

theorem advance_bind (f : Unit → Production α) (c : Cursor) :
    (advance >>= f) c = f () c.advance := rfl

theorem expect_eq (k : Kind) (c : Cursor) :
    expect k c = if c.peek.kind = k then .ok () c.advance
      else .error (.defect (.unexpected k c.peek)) c := by
  change (if c.peek.kind = k then advance else fail (.unexpected k c.peek)) c = _
  split <;> rfl

theorem allow_eq (k : Kind) (c : Cursor) :
    allow k c = if c.peek.kind = k then .ok () c.advance else .ok () c := by
  change (if c.peek.kind = k then advance else pure ()) c = _
  split <;> rfl

theorem allow_return_eq (k : Kind) (a : α) (c : Cursor) :
    (do allow k; return a : Production α) c =
      .ok a (if c.peek.kind = k then c.advance else c) := by
  by_cases h : c.peek.kind = k
  · rw [bind_of_ok (d := c.advance) (a := ()) (by rw [allow_eq, if_pos h]), if_pos h]
    rfl
  · rw [bind_of_ok (d := c) (a := ()) (by rw [allow_eq, if_neg h]), if_neg h]
    rfl

/-- Two productions in a row succeed where the first one does and the second one does behind it. -/
theorem bind_eq_ok {x : Production α} {f : α → Production β} {c d : Cursor} {b : β} :
    (x >>= f) c = .ok b d ↔ ∃ a c', x c = .ok a c' ∧ f a c' = .ok b d := by
  cases hx : x c with
  | ok a c' =>
    rw [bind_of_ok hx]
    refine ⟨fun h => ⟨a, c', rfl, h⟩, ?_⟩
    rintro ⟨a', c'', heq, h⟩
    cases heq
    exact h
  | error e c' =>
    rw [bind_of_error hx]
    refine ⟨fun h => ?_, ?_⟩
    · cases h
    · rintro ⟨a', c'', heq, h⟩
      cases heq

/-- They fail where the first one does, or where the second one does behind it. -/
theorem bind_eq_error {x : Production α} {f : α → Production β} {c d : Cursor} {e : Fault} :
    (x >>= f) c = .error e d ↔
      x c = .error e d ∨ ∃ a c', x c = .ok a c' ∧ f a c' = .error e d := by
  cases hx : x c with
  | ok a c' =>
    rw [bind_of_ok hx]
    refine ⟨fun h => Or.inr ⟨a, c', rfl, h⟩, ?_⟩
    rintro (heq | ⟨a', c'', heq, h⟩)
    · cases heq
    · cases heq
      exact h
  | error e' c' =>
    rw [bind_of_error hx]
    refine ⟨fun heq => Or.inl ?_, ?_⟩
    · cases heq
      rfl
    rintro (heq | ⟨a', c'', heq, h⟩)
    · cases heq
      rfl
    · cases heq

theorem expect_ok {k : Kind} {c d : Cursor} {u : Unit} (hk : k ≠ .eof)
    (h : expect k c = .ok u d) :
    d.current.kind = k ∧ c.rest.tail = d.current :: d.rest.tail := by
  rw [expect_eq] at h
  split at h
  · next hpeek =>
    cases h
    exact tail_eq_cons hpeek hk
  · cases h

/-- Taking items one by one: a fact holds of what was taken if it holds of nothing at the last
place and each item keeps it. -/
theorem many_ok {item : Production (Option α)} (P : Cursor → List α → Cursor → Prop)
    (hstop : ∀ c d, item c = .ok none d → P c [] d)
    (hnext : ∀ c a d, item c = .ok (some a) d →
      d.remaining < c.remaining ∧ ∀ as d', P d as d' → P c (a :: as) d')
    {c d : Cursor} {as : List α} (h : many item c = .ok as d) : P c as d := by
  fun_induction many item c generalizing as d with
  | case1 c f c' hitem => cases h
  | case2 c c' hitem =>
    cases h
    exact hstop c c' hitem
  | case3 c a c' hitem hlt f c'' hmany ih => cases h
  | case4 c a c' hitem hlt as c'' hmany ih =>
    cases h
    exact (hnext c a c' hitem).2 as c'' (ih hmany)
  -- an item that takes nothing would end the repetition, but each one takes something
  | case5 c a c' hitem hlt => exact absurd (hnext c a c' hitem).1 hlt

/-- An item that fails ends the repetition: a fact holds of the first place if it holds of the place
in front of that item and goes back from the end of each item to its front. -/
theorem many_error {item : Production (Option α)} (P : Cursor → Prop) {f : Fault} {d : Cursor}
    (hstop : ∀ c, item c = .error f d → P c)
    (hnext : ∀ c a c', item c = .ok (some a) c' → P c' → P c)
    {c : Cursor} (h : many item c = .error f d) : P c := by
  fun_induction many item c with
  | case1 c f' c' hitem =>
    cases h
    exact hstop c hitem
  | case2 c c' hitem => cases h
  | case3 c a c' hitem hlt f' c'' hmany ih =>
    cases h
    exact hnext c a c' hitem (ih hmany)
  | case4 c a c' hitem hlt as c'' hmany ih => cases h
  | case5 c a c' hitem hlt => cases h

/-- An invariant of the steps holds where they end. -/
theorem iterate_ok {step : α → Production (Option α)} (I : Cursor → α → Prop)
    (hnext : ∀ c a b d, I c a → step a c = .ok (some b) d → d.remaining < c.remaining ∧ I d b)
    {c d : Cursor} {a b : α} (hc : I c a) (h : iterate step a c = .ok b d) :
    ∃ c', I c' b ∧ step b c' = .ok none d := by
  fun_induction iterate step a c with
  | case1 a c f c' hstep => cases h
  | case2 a c c' hstep =>
    cases h
    exact ⟨c, hc, hstep⟩
  -- the invariant goes from each place to the next one, up to where the step finds nothing
  | case3 a c b' c' hstep hlt ih => exact ih (hnext c a b' c' hc hstep).2 h
  | case4 a c b' c' hstep hlt => exact absurd (hnext c a b' c' hc hstep).1 hlt

/-- An invariant of the steps holds where one fails. -/
theorem iterate_error {step : α → Production (Option α)} (I : Cursor → α → Prop)
    (hnext : ∀ c a b d, I c a → step a c = .ok (some b) d → I d b) {f : Fault}
    {c d : Cursor} {a : α} (hc : I c a) (h : iterate step a c = .error f d) :
    ∃ c' b, I c' b ∧ step b c' = .error f d := by
  fun_induction iterate step a c with
  | case1 a c f' c' hstep =>
    cases h
    exact ⟨c, a, hc, hstep⟩
  | case2 a c c' hstep => cases h
  | case3 a c b' c' hstep hlt ih => exact ih (hnext c a b' c' hc hstep) h
  | case4 a c b' c' hstep hlt => cases h

theorem iterate_of_none {step : α → Production (Option α)} {c d : Cursor} {a : α}
    (h : step a c = .ok none d) : iterate step a c = .ok a d := by
  rw [iterate, h]

theorem iterate_of_some {step : α → Production (Option α)} {c d : Cursor} {a b : α}
    (h : step a c = .ok (some b) d) (hlt : d.remaining < c.remaining) :
    iterate step a c = iterate step b d := by
  rw [iterate, h]
  exact if_pos hlt

/-- An item that is taken stands in front of the items behind it. -/
theorem many_of_some {item : Production (Option α)} {c c' : Cursor} {a : α}
    (h : item c = .ok (some a) c') (hlt : c'.remaining < c.remaining) :
    many item c = (do let as ← many item; return a :: as : Production (List α)) c' := by
  rw [many, h]
  dsimp only
  rw [if_pos hlt]
  cases hr : many item c' with
  | ok as d => rw [bind_of_ok hr]; rfl
  | error f d => rw [bind_of_error hr]

section

variable {sub : Nat → Production Node} {level : Nat}

/-- The expressions of the language, with at most `limit` of them inside each other. -/
abbrev within (limit : Nat) : Nat → Production Node :=
  expression .standard limit

def primary (sub : Nat → Production Node) : Kind → Production Node
  | .ident => identifier
  | .int => integer
  | .wordTrue | .wordFalse => boolean
  | .bang | .minus => unary sub
  | .lparen => grouped sub
  | .wordIf => conditional sub
  | .wordFn => functionLiteral sub
  | _ => do fail (.noOperand (← current))

theorem operand_eq (rules : Rules) (c : Cursor) : operand sub rules c =
    if c.current.kind ∈ rules.operandKinds then primary sub c.current.kind c
    else .error (.defect (.noOperand c.current)) c := by
  unfold operand primary
  rw [current_bind]
  split
  · generalize c.current.kind = k
    cases k <;> rfl
  · rfl

theorem operand_of_eof (rules : Rules) {c : Cursor} (h : c.current.kind = .eof) :
    operand sub rules c = .error (.defect (.noOperand c.current)) c := by
  rw [operand_eq, h]
  split <;> rfl

/-- No expression begins where the text has ended, whatever kinds of tokens may start one. -/
theorem expression_of_eof {rules : Rules} {limit : Nat} {c : Cursor} (h : c.current.kind = .eof) :
    expression rules (limit + 1) level c = .error (.defect (.noOperand c.current)) c :=
  bind_of_error (operand_of_eof rules h)

/-- What continues an operand: the arguments of a call, or an operator and its right operand. -/
theorem continuation_eq (rules : Rules) (left : Node) (c : Cursor) :
    continuation sub rules level left c =
      if c.peek.kind ≠ .semicolon ∧ level < c.peek.kind.precedence.level ∧
          c.peek.kind ∈ rules.operatorKinds then
        ((if c.peek.kind = .lparen then call sub left else binary sub left) >>=
          fun n => pure (some n)) c.advance
      else .ok none c := by
  unfold continuation
  rw [peek_bind]
  split
  · rw [advance_bind]
    split <;> rfl
  · rfl

/-- An operand that is not continued stays where it is, in front of a token that ends it. -/
theorem continuation_of_none {rules : Rules} {left : Node} {c d : Cursor}
    (h : continuation sub rules level left c = .ok none d) :
    d = c ∧ (c.peek.kind = .semicolon ∨ c.peek.kind.precedence.level ≤ level ∨
      c.peek.kind ∉ rules.operatorKinds) := by
  rw [continuation_eq] at h
  split at h
  · obtain ⟨n, c₁, -, h⟩ := bind_eq_ok.1 h
    cases h
  · next hcond =>
    cases h
    refine ⟨rfl, ?_⟩
    by_cases hsemicolon : c.peek.kind = .semicolon
    · exact Or.inl hsemicolon
    by_cases hlevel : c.peek.kind.precedence.level ≤ level
    · exact Or.inr (Or.inl hlevel)
    exact Or.inr (Or.inr fun hmem => hcond ⟨hsemicolon, Nat.not_le.1 hlevel, hmem⟩)

theorem integer_eq_of_isNumeral {c : Cursor} (h : c.current.IsNumeral)
    (hv : decimalValue c.current.literal.toList ≤ maxInteger) :
    integer c = .ok (.integer c.current (decimalValue c.current.literal.toList)) c := by
  have hdigits : ¬(c.current.literal.toList.isEmpty ||
      !c.current.literal.toList.all Char.isDigit) = true := by
    have hall : c.current.literal.toList.all Char.isDigit = true := List.all_eq_true.2 h.digits
    have hempty : c.current.literal.toList.isEmpty = false := List.isEmpty_eq_false_iff.2 h.ne_nil
    rw [hall, hempty]
    decide
  unfold integer
  rw [current_bind]
  simp only [if_neg hdigits, if_neg (Nat.not_lt.2 h.length_le), if_neg (Nat.not_lt.2 hv)]
  rfl

/-- An integer that is read is a numeral, its value is in range, and the cursor has not moved. -/
theorem integer_of_ok {c d : Cursor} {n : Node} (h : integer c = .ok n d) :
    d = c ∧ c.current.IsNumeral ∧ decimalValue c.current.literal.toList ≤ maxInteger ∧
      n = .integer c.current (decimalValue c.current.literal.toList) := by
  unfold integer at h
  rw [current_bind] at h
  split at h
  · cases h
  split at h
  · cases h
  split at h
  · cases h
  · next hdigits hlength hvalue =>
    cases h
    -- none of the three checks failed
    refine ⟨rfl, ⟨?_, ?_, Nat.not_lt.1 hlength⟩, Nat.not_lt.1 hvalue, rfl⟩
    · intro hnil
      rw [hnil] at hdigits
      exact hdigits rfl
    · intro x hx
      have hall : c.current.literal.toList.all Char.isDigit = true := by
        revert hdigits
        cases c.current.literal.toList.all Char.isDigit with
        | true => exact fun _ => rfl
        | false => exact fun hdigits => absurd (Bool.or_true _) hdigits
      exact List.all_eq_true.1 hall x hx

/-- An integer that is not read has another literal than digits, too many of them, or too great a
value. -/
theorem integer_of_error {c d : Cursor} {f : Fault} (h : integer c = .error f d) :
    let digits := c.current.literal.toList
    d = c ∧ (f = .defect (.malformedInteger c.current) ∧
          ¬(digits ≠ [] ∧ ∀ x ∈ digits, x.isDigit) ∨
        f = .oversizedLiteral digits.length ∧ maxDigits < digits.length ∨
        f = .defect (.integerOutOfRange c.current) ∧ digits.length ≤ maxDigits ∧
          maxInteger < decimalValue digits) := by
  intro digits
  unfold integer at h
  rw [current_bind] at h
  split at h
  · next hdigits =>
    cases h
    refine ⟨rfl, Or.inl ⟨rfl, fun hall => ?_⟩⟩
    rw [List.all_eq_true.2 hall.2, List.isEmpty_eq_false_iff.2 hall.1] at hdigits
    exact absurd hdigits (by decide)
  split at h
  · next hlength =>
    cases h
    exact ⟨rfl, Or.inr (Or.inl ⟨rfl, hlength⟩)⟩
  split at h
  · next hlength hvalue =>
    cases h
    exact ⟨rfl, Or.inr (Or.inr ⟨rfl, Nat.not_lt.1 hlength, hvalue⟩)⟩
  · cases h

theorem statement_of_let {c : Cursor} (h : c.current.kind = .wordLet) :
    statement sub c = letStatement sub c := by
  unfold statement
  rw [current_bind, h]

theorem statement_of_return {c : Cursor} (h : c.current.kind = .wordReturn) :
    statement sub c = returnStatement sub c := by
  unfold statement
  rw [current_bind, h]

theorem statement_of_expression {c : Cursor} (h : c.current.kind ≠ .wordLet)
    (h' : c.current.kind ≠ .wordReturn) : statement sub c = expressionStatement sub c := by
  unfold statement
  rw [current_bind]
  revert h h'
  cases c.current.kind with
  | wordLet => exact fun h _ => absurd rfl h
  | wordReturn => exact fun _ h' => absurd rfl h'
  | _ => exact fun _ _ => rfl

theorem statement_of_startsExpression {c : Cursor} (h : c.current.kind.StartsExpression) :
    statement sub c = expressionStatement sub c := by
  apply statement_of_expression <;>
  · intro hk
    rw [hk] at h
    exact absurd h (by decide)

/-- The statements of a block one by one: a fact holds of them if it holds of none at the closing
brace and each statement keeps it. -/
theorem blockStatements_ok {brace : Token} (P : Cursor → List Node → Cursor → Prop)
    (hstop : ∀ c, c.current.kind = .rbrace → P c [] c)
    (hnext : ∀ c s d, c.current.kind ≠ .eof → statement sub c = .ok s d →
      d.advance.remaining < c.remaining ∧ ∀ ss d', P d.advance ss d' → P c (s :: ss) d')
    {c d : Cursor} {ss : List Node} (h : blockStatements sub brace c = .ok ss d) : P c ss d := by
  refine many_ok P ?_ ?_ h
  · intro c d hitem
    rw [current_bind] at hitem
    split at hitem
    · next hbrace =>
      cases hitem
      exact hstop c hbrace
    split at hitem
    · cases hitem
    · obtain ⟨s, c₁, -, hnone⟩ := bind_eq_ok.1 hitem
      cases hnone
  · intro c s d hitem
    rw [current_bind] at hitem
    split at hitem
    · cases hitem
    split at hitem
    · cases hitem
    · next heof =>
      obtain ⟨s', c₁, hs, hsome⟩ := bind_eq_ok.1 hitem
      cases hsome
      exact hnext c s c₁ heof hs

/-- A block that is not read ends at the end of the text or in one of its statements: a fact holds
of its first place if it holds there and goes back over each statement. -/
theorem blockStatements_error {brace : Token} (P : Cursor → Prop) {f : Fault} {d : Cursor}
    (hend : f = .defect (.unterminatedBlock brace) → d.current.kind = .eof → P d)
    (hstop : ∀ c, c.current.kind ≠ .eof → statement sub c = .error f d → P c)
    (hnext : ∀ c s c', statement sub c = .ok s c' → P c'.advance → P c)
    {c : Cursor} (h : blockStatements sub brace c = .error f d) : P c := by
  refine many_error P ?_ ?_ h
  · intro c hitem
    rw [current_bind] at hitem
    split at hitem
    · cases hitem
    split at hitem
    · next heof =>
      cases hitem
      exact hend rfl heof
    · next heof =>
      rcases bind_eq_error.1 hitem with hs | ⟨s, c₁, -, hmore⟩
      · exact hstop c heof hs
      · cases hmore
  · intro c s c' hitem hmore
    rw [current_bind] at hitem
    split at hitem
    · cases hitem
    split at hitem
    · cases hitem
    · obtain ⟨s', c₁, hs, hsome⟩ := bind_eq_ok.1 hitem
      cases hsome
      exact hnext c s c₁ hs hmore

/-- The items of a list and the parentheses around them. -/
theorem list_eq (s : Slot) : s.list sub = do
    let t ← peek
    if t.kind = .rparen then
      advance
      return []
    else
      let first ← s.production sub
      let more ← furtherItems (s.production sub)
      expect .rparen
      return first :: more := by
  cases s <;> rfl

end

end Production

theorem Run.withinLimit_iff {r : Run} : r.withinLimit ↔ ∀ e ∈ r.defects, ¬e.isNesting := by
  simp [withinLimit]

theorem Run.mem_defects_cons {r : Run} {e : Defect} (h : e ∈ r.defects) (o : Except Defect Node) :
    e ∈ (r.cons o).defects := by
  cases o with
  | ok s => exact h
  | error e' => exact List.mem_cons_of_mem e' h

theorem Run.withinLimit_of_cons {r : Run} {o : Except Defect Node} (h : (r.cons o).withinLimit) :
    r.withinLimit :=
  withinLimit_iff.2 fun e he => withinLimit_iff.1 h e (mem_defects_cons he o)

section

variable {statement : Production Node} {c d : Cursor}

theorem attempt_ok {s : Node} (h : attempt statement c = (.ok (.ok s), d)) :
    ∃ c', statement c = .ok s c' ∧ d = c'.advance := by
  unfold attempt at h
  split at h
  · next hs =>
    cases h
    exact ⟨_, hs, rfl⟩
  · cases h
  · cases h

/-- Behind a defect reading goes on one token further, or where expressions are nested too deeply
behind the rest of the statement. -/
theorem attempt_error {e : Defect} (h : attempt statement c = (.ok (.error e), d)) :
    ∃ c', statement c = .error (.defect e) c' ∧
      d = (if e.isNesting then c'.skipStatement else c').advance := by
  unfold attempt at h
  split at h
  · cases h
  · next hs =>
    cases h
    exact ⟨_, hs, rfl⟩
  · cases h

theorem attempt_oversized {n : Nat} (h : attempt statement c = (.error n, d)) :
    statement c = .error (.oversizedLiteral n) d := by
  unfold attempt at h
  split at h
  · cases h
  · cases h
  · next hs =>
    cases h
    exact hs

theorem runFrom_of_eof (h : c.current.kind = .eof) : runFrom statement c = ⟨[], c, none⟩ := by
  rw [runFrom, if_pos h]

theorem runFrom_of_attempt {o : Except Defect Node} (h : c.current.kind ≠ .eof)
    (hattempt : attempt statement c = (.ok o, d)) (hlt : d.remaining < c.remaining) :
    runFrom statement c = (runFrom statement d).cons o := by
  rw [runFrom, if_neg h, hattempt]
  exact if_pos hlt

theorem runFrom_of_ok {s : Node} (h : c.current.kind ≠ .eof) (hs : statement c = .ok s d)
    (hlt : d.advance.remaining < c.remaining) :
    runFrom statement c = (runFrom statement d.advance).cons (.ok s) :=
  runFrom_of_attempt h (by rw [attempt, hs]) hlt

theorem mem_defects_of_error {e : Defect} (h : c.current.kind ≠ .eof)
    (hs : statement c = .error (.defect e) d) : e ∈ (runFrom statement c).defects := by
  have hattempt : attempt statement c =
      (.ok (.error e), (if e.isNesting then d.skipStatement else d).advance) := by
    rw [attempt, hs]
  rw [runFrom, if_neg h, hattempt]
  dsimp only
  -- the defect is the first one of the run, wherever reading goes on
  generalize (if e.isNesting then d.skipStatement else d).advance = c'
  by_cases hlt : c'.remaining < c.remaining
  · rw [if_pos hlt]
    exact List.mem_cons_self
  · rw [if_neg hlt]
    exact List.mem_cons_self

end

end MonkeySyntax
