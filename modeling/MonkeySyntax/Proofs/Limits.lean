import MonkeySyntax.Proofs.Mirroring

/-!
# A greater nesting limit

Under a greater nesting limit a production does what it does under a smaller one, up to where the
smaller one makes it give up. So whatever is read without reaching a limit is read in the same way
under every greater one. An expression inside another one begins behind the first token of that one,
so a limit is never reached where it is greater than the number of tokens ahead.
-/

namespace MonkeySyntax

def Fault.isNesting : Fault → Bool
  | .defect e => e.isNesting
  | .oversizedLiteral _ => false

namespace Production

variable {α β : Type} {n k : Nat} {p : Prop}

/-- Whether `x'` does what `x` does where at most `n` tokens are ahead, unless `x` gives up because
expressions are nested too deeply, which happens only if `p` holds. -/
structure Widens (n : Nat) (p : Prop) (x x' : Production α) : Prop where
  forward : Forward x
  ok : ∀ {c d a}, c.remaining ≤ n → x c = .ok a d → x' c = .ok a d
  error : ∀ {c d f}, c.remaining ≤ n → x c = .error f d →
    f.isNesting ∧ p ∨ ¬f.isNesting ∧ x' c = .error f d

theorem Widens.mono {x x' : Production α} (h : Widens k p x x') (hle : n ≤ k) :
    Widens n p x x' :=
  ⟨h.forward, fun hc => h.ok (Nat.le_trans hc hle), fun hc => h.error (Nat.le_trans hc hle)⟩

theorem Widens.imp {q : Prop} {x x' : Production α} (h : Widens n p x x') (hpq : p → q) :
    Widens n q x x' :=
  ⟨h.forward, h.ok, fun hc hx => (h.error hc hx).imp_left (And.imp_right hpq)⟩

/-- A production without expressions inside it is the same under all limits. -/
theorem widens_self {x : Production α} (hx : Forward x)
    (hdeep : ∀ {c d f}, x c = .error f d → ¬f.isNesting) : Widens n p x x :=
  ⟨hx, fun _ h => h, fun _ h => Or.inr ⟨hdeep h, h⟩⟩

theorem widens_pure (a : α) : Widens n p (pure a : Production α) (pure a) :=
  widens_self (forward_pure a) fun h => nomatch h

theorem widens_current : Widens n p current current :=
  widens_self forward_current fun h => nomatch h

theorem widens_peek : Widens n p peek peek :=
  widens_self forward_peek fun h => nomatch h

theorem widens_advance : Widens n p advance advance :=
  widens_self forward_advance fun h => nomatch h

theorem widens_fail {e : Defect} (he : ¬e.isNesting) :
    Widens n p (fail e : Production α) (fail e) := by
  refine widens_self (forward_fail e) fun {c d f} h => ?_
  cases h
  exact he

section

variable {x x' y y' : Production α} {f f' : α → Production β}

/-- What is read second has fewer tokens ahead if what is read first takes some. -/
theorem Widens.bind_within (hx : Widens n p x x')
    (hle : ∀ {c d a}, c.remaining ≤ n → x c = .ok a d → d.remaining ≤ k)
    (hforward : ∀ a, Forward (f a)) (hf : ∀ a, Widens k p (f a) (f' a)) :
    Widens n p (x >>= f) (x' >>= f') := by
  refine ⟨hx.forward.bind hforward, fun {c d b} hc h => ?_, fun {c d e} hc h => ?_⟩
  · obtain ⟨a, c', ha, hb⟩ := bind_eq_ok.1 h
    exact bind_eq_ok.2 ⟨a, c', hx.ok hc ha, (hf a).ok (hle hc ha) hb⟩
  · rcases bind_eq_error.1 h with ha | ⟨a, c', ha, hb⟩
    · exact (hx.error hc ha).imp_right (And.imp_right bind_of_error)
    · exact ((hf a).error (hle hc ha) hb).imp_right
        (And.imp_right (bind_of_ok (hx.ok hc ha)).trans)

theorem Widens.bind (hx : Widens n p x x') (hf : ∀ a, Widens n p (f a) (f' a)) :
    Widens n p (x >>= f) (x' >>= f') :=
  hx.bind_within (fun hc h => Nat.le_trans (hx.forward.ok h).remaining_le hc)
    (fun a => (hf a).forward) hf

/-- Behind a token that is taken, one token less is ahead. -/
theorem Widens.bind_moves (hx : Widens (n + 1) p x x') (hmoves : Moves x)
    (hf : ∀ a, Widens n p (f a) (f' a)) : Widens (n + 1) p (x >>= f) (x' >>= f') := by
  refine hx.bind_within (fun {c d a} hc h => ?_) (fun a => (hf a).forward) hf
  calc d.remaining ≤ c.advance.remaining := (hmoves.ok h).remaining_le
    _ = c.remaining - 1 := c.remaining_advance
    _ ≤ n := Nat.sub_le_iff_le_add.2 hc

theorem Widens.ite {q : Prop} [Decidable q] (hx : Widens n p x x') (hy : Widens n p y y') :
    Widens n p (if q then x else y) (if q then x' else y') := by
  split
  · exact hx
  · exact hy

end

theorem widens_expect (k : Kind) : Widens n p (expect k) (expect k) :=
  widens_peek.bind fun _ => widens_advance.ite (widens_fail fun h => nomatch h)

theorem widens_allow (k : Kind) : Widens n p (allow k) (allow k) :=
  widens_peek.bind fun _ => widens_advance.ite (widens_pure _)

/-- Both repetitions go the same rounds, until the one under the smaller limit gives up. -/
theorem Widens.many {item item' : Production (Option α)} (h : Widens n p item item') :
    Widens n p (Production.many item) (Production.many item') := by
  -- the items are taken one by one, and behind each one no more tokens are ahead
  have hbehind {c c' : Cursor} {o : Option α} (hc : c.remaining ≤ n) (ho : item c = .ok o c') :
      c'.remaining ≤ n := Nat.le_trans (h.forward.ok ho).remaining_le hc
  refine ⟨h.forward.many, fun {c d as} hc hmany => ?_, fun {c d f} hc hmany => ?_⟩
  · fun_induction Production.many item c generalizing as d with
    | case1 c f c' hitem => cases hmany
    | case2 c c' hitem =>
      cases hmany
      rw [Production.many, h.ok hc hitem]
    | case3 c a c' hitem hlt f c'' hmore ih => cases hmany
    | case4 c a c' hitem hlt as c'' hmore ih =>
      cases hmany
      rw [many_of_some (h.ok hc hitem) hlt, bind_of_ok (ih (hbehind hc hitem) hmore)]
      rfl
    | case5 c a c' hitem hlt =>
      cases hmany
      rw [Production.many, h.ok hc hitem]
      exact if_neg hlt
  · fun_induction Production.many item c generalizing f d with
    | case1 c f' c' hitem =>
      cases hmany
      exact (h.error hc hitem).imp_right (And.imp_right fun heq => by rw [Production.many, heq])
    | case2 c c' hitem => cases hmany
    | case3 c a c' hitem hlt f' c'' hmore ih =>
      cases hmany
      refine (ih (hbehind hc hitem) hmore).imp_right (And.imp_right fun heq => ?_)
      rw [many_of_some (h.ok hc hitem) hlt, bind_of_error heq]
    | case4 c a c' hitem hlt as c'' hmore ih => cases hmany
    | case5 c a c' hitem hlt => cases hmany

theorem Widens.iterate {step step' : α → Production (Option α)}
    (h : ∀ a, Widens n p (step a) (step' a)) (a : α) :
    Widens n p (Production.iterate step a) (Production.iterate step' a) := by
  have hbehind {a : α} {c c' : Cursor} {o : Option α} (hc : c.remaining ≤ n)
      (ho : step a c = .ok o c') : c'.remaining ≤ n :=
    Nat.le_trans ((h a).forward.ok ho).remaining_le hc
  refine ⟨Forward.iterate (fun a => (h a).forward) a, fun {c d b} hc hsteps => ?_,
    fun {c d f} hc hsteps => ?_⟩
  · fun_induction Production.iterate step a c with
    | case1 a c f c' hstep => cases hsteps
    | case2 a c c' hstep =>
      cases hsteps
      exact iterate_of_none ((h _).ok hc hstep)
    | case3 a c b' c' hstep hlt ih =>
      rw [iterate_of_some ((h a).ok hc hstep) hlt]
      exact ih (hbehind hc hstep) hsteps
    | case4 a c b' c' hstep hlt =>
      cases hsteps
      rw [Production.iterate, (h a).ok hc hstep]
      exact if_neg hlt
  · fun_induction Production.iterate step a c with
    | case1 a c f' c' hstep =>
      cases hsteps
      exact ((h a).error hc hstep).imp_right
        (And.imp_right fun heq => by rw [Production.iterate, heq])
    | case2 a c c' hstep => cases hsteps
    | case3 a c b' c' hstep hlt ih =>
      rw [iterate_of_some ((h a).ok hc hstep) hlt]
      exact ih (hbehind hc hstep) hsteps
    | case4 a c b' c' hstep hlt => cases hsteps

theorem widens_identifier : Widens n p identifier identifier :=
  widens_current.bind fun _ => widens_pure _

section

variable {sub sub' : Nat → Production Node} (hsub : ∀ level, Widens n p (sub level) (sub' level))

include hsub

theorem widens_nextExpression :
    Widens (n + 1) p (nextExpression sub) (nextExpression sub') :=
  widens_advance.bind_moves moves_advance fun _ => hsub _

theorem widens_slot (s : Slot) : Widens (n + 1) p (s.production sub) (s.production sub') := by
  cases s with
  | parameter =>
    exact (widens_expect _).bind fun _ => widens_identifier
  | argument => exact widens_nextExpression hsub

theorem widens_list (s : Slot) : Widens (n + 1) p (s.list sub) (s.list sub') := by
  have hfurther : Widens (n + 1) p (furtherItems (s.production sub))
      (furtherItems (s.production sub')) :=
    (widens_peek.bind fun _ => (widens_advance.bind fun _ =>
      (widens_slot hsub s).bind fun _ => widens_pure _).ite (widens_pure _)).many
  rw [list_eq, list_eq]
  refine widens_peek.bind fun _ => Widens.ite ?_ ?_
  · exact widens_advance.bind fun _ => widens_pure _
  · exact (widens_slot hsub s).bind fun _ => hfurther.bind fun _ =>
      (widens_expect _).bind fun _ => widens_pure _

theorem widens_statement : Widens n p (statement sub) (statement sub') := by
  have hnext : Widens n p (nextExpression sub) (nextExpression sub') :=
    (widens_nextExpression hsub).mono n.le_succ
  have hended (s : Node) : Widens n p (do allow .semicolon; return s)
      (do allow .semicolon; return s) := (widens_allow _).bind fun _ => widens_pure _
  unfold statement
  refine widens_current.bind fun t => ?_
  split
  · exact widens_current.bind fun _ => (widens_expect _).bind fun _ =>
      widens_identifier.bind fun _ => (widens_expect _).bind fun _ => hnext.bind fun _ => hended _
  · exact widens_current.bind fun _ => hnext.bind fun _ => hended _
  · exact widens_current.bind fun _ => (hsub _).bind fun _ => hended _

/-- The statements of a block stand behind its brace. -/
theorem widens_block : Widens (n + 1) p (block sub) (block sub') := by
  have hstatements (brace : Token) :
      Widens n p (blockStatements sub brace) (blockStatements sub' brace) := by
    refine Widens.many (widens_current.bind fun _ => (widens_pure _).ite (Widens.ite ?_ ?_))
    · exact widens_fail fun h => nomatch h
    · exact (widens_statement hsub).bind fun _ => widens_advance.bind fun _ => widens_pure _
  exact widens_current.bind fun _ => widens_advance.bind_moves moves_advance fun _ =>
    (hstatements _).bind fun _ => widens_pure _

theorem widens_conditional : Widens (n + 1) p (conditional sub) (conditional sub') := by
  refine widens_current.bind fun _ => (widens_expect _).bind fun _ => ?_
  refine (widens_nextExpression hsub).bind fun _ => (widens_expect _).bind fun _ => ?_
  refine (widens_expect _).bind fun _ => (widens_block hsub).bind fun _ => ?_
  refine widens_peek.bind fun _ => Widens.ite ?_ (widens_pure _)
  exact widens_advance.bind fun _ => (widens_expect _).bind fun _ =>
    (widens_block hsub).bind fun _ => widens_pure _

theorem widens_functionLiteral :
    Widens (n + 1) p (functionLiteral sub) (functionLiteral sub') :=
  widens_current.bind fun _ => (widens_expect _).bind fun _ =>
    Widens.bind (widens_list hsub .parameter) fun _ => (widens_expect _).bind fun _ =>
      (widens_block hsub).bind fun _ => widens_pure _

theorem widens_primary {k : Kind} (hk : k ≠ .int) :
    Widens (n + 1) p (primary sub k) (primary sub' k) := by
  cases k with
  | int => exact absurd rfl hk
  | ident => exact widens_identifier
  | wordTrue | wordFalse => exact widens_current.bind fun _ => widens_pure _
  | bang | minus =>
    exact widens_current.bind fun _ => widens_advance.bind_moves moves_advance fun _ =>
      (hsub _).bind fun _ => widens_pure _
  | lparen =>
    exact (widens_nextExpression hsub).bind fun _ => (widens_expect _).bind fun _ => widens_pure _
  | wordIf => exact widens_conditional hsub
  | wordFn => exact widens_functionLiteral hsub
  | _ => exact widens_current.bind fun _ => widens_fail fun h => nomatch h

/-- Every expression inside an operand has a token less ahead of it than the operand has. -/
theorem widens_operand (rules : Rules) :
    Widens (n + 1) p (operand sub rules) (operand sub' rules) := by
  have hforward := forward_operand (fun level => (hsub level).forward) rules
  refine ⟨hforward, fun {c d e} hc h => ?_, fun {c d f} hc h => ?_⟩
  · rw [operand_eq] at h ⊢
    split at h
    · next hmem =>
      rw [if_pos hmem]
      by_cases hint : c.current.kind = .int
      · rw [hint] at h ⊢
        exact h
      · exact (widens_primary hsub hint).ok hc h
    · cases h
  · rw [operand_eq] at h ⊢
    split at h
    · next hmem =>
      rw [if_pos hmem]
      by_cases hint : c.current.kind = .int
      · -- what is wrong with an integer has nothing to do with limits
        rw [hint] at h ⊢
        refine Or.inr ⟨?_, h⟩
        rcases integer_of_error h with ⟨-, ⟨rfl, -⟩ | ⟨rfl, -⟩ | ⟨rfl, -⟩⟩ <;>
        · intro hdeep
          cases hdeep
      · exact (widens_primary hsub hint).error hc h
    · next hmem =>
      cases h
      exact Or.inr ⟨(fun hdeep => nomatch hdeep), if_neg hmem⟩

theorem widens_extend (rules : Rules) (level : Nat) (left : Node) :
    Widens (n + 1) p (extend sub rules level left) (extend sub' rules level left) := by
  refine Widens.iterate (fun e => ?_) left
  have hcall : Widens (n + 1) p (call sub e) (call sub' e) :=
    widens_current.bind fun _ => Widens.bind (widens_list hsub .argument) fun _ => widens_pure _
  have hbinary : Widens (n + 1) p (binary sub e) (binary sub' e) :=
    widens_current.bind fun _ => widens_advance.bind_moves moves_advance fun _ =>
      (hsub _).bind fun _ => widens_pure _
  refine widens_peek.bind fun t => Widens.ite ?_ (widens_pure _)
  exact widens_advance.bind fun _ =>
    (hcall.bind fun _ => widens_pure _).ite (hbinary.bind fun _ => widens_pure _)

end

variable {m : Nat}

/-- A limit is not reached where it is greater than the number of tokens ahead. -/
theorem widens_expression (rules : Rules) (hnm : n ≤ m) (level k : Nat) :
    Widens k (n ≤ k) (expression rules n level) (expression rules m level) := by
  -- an expression inside another one has a limit that is smaller by one, and one token less ahead
  induction n generalizing m level k with
  | zero =>
    refine ⟨forward_expression rules 0 level, fun {c d e} _ h => ?_, fun {c d f} _ h => ?_⟩
    · cases h
    · cases h
      exact Or.inl ⟨rfl, Nat.zero_le k⟩
  | succ n ih =>
    have hpos : 0 < m := Nat.lt_of_lt_of_le n.succ_pos hnm
    obtain ⟨m, rfl⟩ := Nat.exists_eq_add_one.2 hpos
    cases k with
    | zero =>
      -- where no tokens are ahead no expression begins, whatever the limit is
      have heof {c : Cursor} (hc : c.remaining ≤ 0) : c.current.kind = .eof :=
        Decidable.of_not_not fun hne => absurd (Cursor.remaining_pos hne) (Nat.not_lt.2 hc)
      refine ⟨forward_expression rules (n + 1) level, fun {c d e} hc h => ?_,
        fun {c d f} hc h => ?_⟩
      · rw [expression_of_eof (heof hc)] at h
        cases h
      · rw [expression_of_eof (heof hc)] at h
        cases h
        exact Or.inr ⟨(fun hdeep => nomatch hdeep), expression_of_eof (heof hc)⟩
    | succ k =>
      have hsub (level : Nat) :
          Widens k (n ≤ k) (expression rules n level) (expression rules m level) :=
        ih (Nat.le_of_succ_le_succ hnm) level k
      have hexpression : Widens (k + 1) (n ≤ k) (expression rules (n + 1) level)
          (expression rules (m + 1) level) :=
        (widens_operand hsub rules).bind fun left => widens_extend hsub rules level left
      exact hexpression.imp Nat.succ_le_succ

theorem widens_statementWithin (rules : Rules) (hnm : n ≤ m) (k : Nat) :
    Widens k (n ≤ k) (statementWithin rules n) (statementWithin rules m) :=
  widens_statement fun level => widens_expression rules hnm level k

end Production

open Production

section

variable {rules : Rules} {n m limit : Nat} {c c' : Cursor}

/-- An attempt that does not reach a limit comes to the same under a greater one. -/
theorem attempt_of_le (hnm : n ≤ m) {o : Except Nat (Except Defect Node)}
    (h : attempt (statementWithin rules n) c = (o, c')) 
    (ho : ∀ e, o = .ok (.error e) → ¬e.isNesting) :
    attempt (statementWithin rules m) c = (o, c') := by
  have hwidens := widens_statementWithin rules hnm c.remaining
  have hsame : statementWithin rules m c = statementWithin rules n c := by
    cases hs : statementWithin rules n c with
    | ok s d => exact hwidens.ok (Nat.le_refl _) hs
    | error f d =>
      rcases hwidens.error (Nat.le_refl _) hs with ⟨hnesting, -⟩ | ⟨-, heq⟩
      · cases f with
        | oversizedLiteral => cases hnesting
        | defect e =>
          unfold attempt at h
          rw [hs] at h
          cases h
          exact absurd hnesting (ho e rfl)
      · exact heq
  unfold attempt at h ⊢
  rw [hsame]
  exact h

/-- What is read within a limit is read in the same way within a greater one. -/
theorem runFrom_of_le (hnm : n ≤ m)
    (hdeep : (runFrom (statementWithin rules n) c).withinLimit) :
    runFrom (statementWithin rules m) c = runFrom (statementWithin rules n) c := by
  have hforward := forward_statementWithin rules n
  fun_induction runFrom (statementWithin rules n) c with
  | case1 c heof => exact runFrom_of_eof heof
  | case2 c heof l c' hattempt =>
    have ho (e : Defect) (heq : (.error l : Except Nat (Except Defect Node)) = .ok (.error e)) :
        ¬e.isNesting := by cases heq
    rw [runFrom, if_neg heof, attempt_of_le hnm hattempt ho]
  | case3 c heof o c' hattempt hlt ih =>
    have ho (e : Defect) (heq : (.ok o : Except Nat (Except Defect Node)) = .ok (.error e)) :
        ¬e.isNesting := by
      cases heq
      exact Run.withinLimit_iff.1 hdeep e List.mem_cons_self
    rw [runFrom_of_attempt heof (attempt_of_le hnm hattempt ho) hlt,
      ih (Run.withinLimit_of_cons hdeep)]
  | case4 c heof o c' hattempt hlt => exact absurd (attempt_lt hforward heof hattempt) hlt

/-- A limit is not reached in a text with fewer tokens. -/
theorem withinLimit_of_lt (hlt : c.remaining < limit) :
    (runFrom (statementWithin rules limit) c).withinLimit := by
  refine Run.withinLimit_iff.2 fun e hmem hnesting => ?_
  obtain ⟨b, d, hreach, hfault⟩ :=
    exists_fault_of_mem_defects (forward_statementWithin rules limit) hmem
  have hwidens := widens_statementWithin rules (Nat.le_refl limit) b.remaining
  have hle : limit ≤ b.remaining := by
    rcases hwidens.error (Nat.le_refl _) hfault with ⟨-, hle⟩ | ⟨hne, -⟩
    · exact hle
    · exact absurd hnesting hne
  exact Nat.not_lt.2 (Nat.le_trans hle hreach.remaining_le) hlt

end

/-- The nesting limit decides only whether expressions are nested too deeply: what is read without
that defect is read in the same way under every greater limit, whatever other defects it has and
also where an oversized literal ends it. A text never has that defect if the limit is no smaller
than the number of its tokens, the end of the text included. -/
theorem parseWithin_eq_of_le {n m : Nat} (hnm : n ≤ m) (source : String) :
    ((parseWithin n source).withinLimit →
        parseWithin m source = parseWithin n source) ∧
      ∀ limit, (tokenize source).length ≤ limit →
        (parseWithin limit source).withinLimit := by
  have hlength : (tokenize source).length = (Cursor.ofString source).remaining + 1 :=
    List.length_append
  refine ⟨runFrom_of_le hnm, fun limit hle => withinLimit_of_lt ?_⟩
  rw [hlength] at hle
  exact Nat.lt_of_succ_le hle

theorem parseWithin_eq_of_le_of_defects :
    let source := "let x 1; f(-(a)); !; fn(x) \x7b x"
    4 ≤ 500 ∧ (parseWithin 4 source).withinLimit ∧
      (parseWithin 4 source).defects.length = 3 ∧
      parseWithin 500 source = parseWithin 4 source ∧
      (tokenize source).length = 21 ∧ (parseWithin 21 source).withinLimit := by
  intro source
  have hle : 4 ≤ 500 := by decide
  have hdeep : (parseWithin 4 source).withinLimit := by decide +kernel
  have hlength : (tokenize source).length = 21 := by decide +kernel
  obtain ⟨hsame, henough⟩ := parseWithin_eq_of_le hle source
  exact ⟨hle, hdeep, by decide +kernel, hsame hdeep, hlength, henough 21 (Nat.le_of_eq hlength)⟩

/-- Three parentheses and the end of the text are four tokens, and a limit of three is too small. -/
example : (parseWithin 3 "(((").defects = [.nestedTooDeeply (.finish ⟨1, 4⟩)] := by decide +kernel

end MonkeySyntax
