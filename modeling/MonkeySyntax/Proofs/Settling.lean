import MonkeySyntax.Proofs.Breaking

namespace MonkeySyntax

structure Token.IsSettled (t : Token) : Prop where
  ne_illegal : t.kind ≠ .illegal
  length_le : t.kind = .int → t.literal.toList.length ≤ maxDigits
  value_le : t.kind = .int → decimalValue t.literal.toList ≤ maxInteger

def Kind.IsPlain (k : Kind) : Prop :=
  k ≠ .illegal ∧ k ≠ .int

instance (k : Kind) : Decidable k.IsPlain := inferInstanceAs (Decidable (_ ∧ _))

theorem Token.isSettled_of_isPlain {t : Token} (h : t.kind.IsPlain) : t.IsSettled :=
  ⟨h.1, fun hint => absurd hint h.2, fun hint => absurd hint h.2⟩

def Fault.ahead (f : Fault) (c : Cursor) : List Token :=
  c.rest.drop (f.sight - 1)

def Fault.IsDue (f : Fault) (c : Cursor) : Prop :=
  match f with
  | .defect (.unexpected _ t) => t = c.peek
  | .defect (.noOperand t) => t = c.current ∧ ¬t.kind.StartsExpression
  | .defect (.unterminatedBlock b) => c.current.kind = .eof ∧ b.kind = .lbrace
  | .defect (.malformedInteger t) => t = c.current ∧ t.kind = .int ∧
      ¬(t.literal.toList ≠ [] ∧ ∀ d ∈ t.literal.toList, d.isDigit)
  | .defect (.integerOutOfRange t) => t = c.current ∧ t.kind = .int ∧
      t.literal.toList.length ≤ maxDigits ∧ maxInteger < decimalValue t.literal.toList
  | .defect (.nestedTooDeeply t) => t = c.current
  | .oversizedLiteral _ => True

def SettledUpTo (ts us : List Token) : Prop :=
  ∃ vs, ts = vs ++ us ∧ ∀ t ∈ vs, t.IsSettled

section

variable {ts us vs : List Token} {c d : Cursor}

theorem SettledUpTo.refl (ts : List Token) : SettledUpTo ts ts :=
  ⟨[], rfl, fun _ ht => absurd ht List.not_mem_nil⟩

theorem SettledUpTo.trans (h : SettledUpTo ts us) (h' : SettledUpTo us vs) : SettledUpTo ts vs := by
  obtain ⟨ws, rfl, hws⟩ := h
  obtain ⟨ws', rfl, hws'⟩ := h'
  refine ⟨ws ++ ws', (List.append_assoc ws ws' vs).symm, fun t ht => ?_⟩
  rcases List.mem_append.1 ht with ht | ht
  · exact hws t ht
  · exact hws' t ht

theorem SettledUpTo.suffix (h : SettledUpTo ts us) : us <:+ ts := by
  obtain ⟨vs, rfl, -⟩ := h
  exact List.suffix_append vs us

theorem settledUpTo_tail (h : (nextKind ts).IsPlain) : SettledUpTo ts ts.tail := by
  cases ts with
  | nil => exact SettledUpTo.refl []
  | cons t ts =>
    refine ⟨[t], rfl, fun u hu => ?_⟩
    rw [List.mem_singleton.1 hu]
    exact Token.isSettled_of_isPlain h

theorem settledUpTo_current (h : c.current.kind.IsPlain) : SettledUpTo c.rest c.rest.tail :=
  settledUpTo_tail (by rw [← kind_current]; exact h)

theorem settledUpTo_peek (h : c.peek.kind.IsPlain) :
    SettledUpTo c.rest.tail c.advance.rest.tail :=
  settledUpTo_tail (by rw [← kind_peek]; exact h)

end

namespace Production

variable {α β : Type} {ts us : List Token} {c d : Cursor}

/-- Whether reading passed only tokens that are in order, from the front of `ts` to behind the
token that is current after a success, or to the token at which a fault shows. -/
def Settled (ts : List Token) : EStateM.Result Fault Cursor α → Prop
  | .ok _ d => SettledUpTo ts d.rest.tail
  | .error f d => SettledUpTo ts (f.ahead d) ∧ f.IsDue d ∧
      ∀ b, f = .defect (.unterminatedBlock b) → b ∈ ts

theorem Settled.of_settledUpTo {r : EStateM.Result Fault Cursor α} (h : Settled us r)
    (hts : SettledUpTo ts us) : Settled ts r := by
  cases r with
  | ok a d => exact hts.trans h
  | error f d => exact ⟨hts.trans h.1, h.2.1, fun b hb => hts.suffix.mem (h.2.2 b hb)⟩

theorem settled_pure (a : α) (c : Cursor) : Settled c.rest.tail ((pure a : Production α) c) :=
  SettledUpTo.refl _

/-- A step whose first part ends with a settled token goes on behind that token. -/
theorem Settled.bind {x : Production α} {f : α → Production β} (hx : Settled ts (x c))
    (hf : ∀ a d, Settled d.rest.tail (f a d)) : Settled ts ((x >>= f) c) := by
  cases h : x c with
  | ok a d =>
    rw [h] at hx
    rw [bind_of_ok h]
    exact (hf a d).of_settledUpTo hx
  | error e d =>
    rw [h] at hx
    rw [bind_of_error h]
    exact hx

theorem Settled.map {x : Production α} (hx : Settled ts (x c)) (f : α → β) :
    Settled ts ((x >>= fun a => pure (f a)) c) :=
  hx.bind fun a d => settled_pure (f a) d

theorem settled_expect {k : Kind} (hk : k.IsPlain) (c : Cursor) :
    Settled c.rest.tail (expect k c) := by
  rw [expect_eq]
  split
  · next hpeek => exact settledUpTo_peek (by rw [hpeek]; exact hk)
  · refine ⟨?_, rfl, fun b hb => nomatch hb⟩
    unfold Fault.ahead
    rw [← List.drop_one]
    exact SettledUpTo.refl _

theorem settled_allow {k : Kind} (hk : k.IsPlain) (c : Cursor) :
    Settled c.rest.tail (allow k c) := by
  rw [allow_eq]
  split
  · next hpeek => exact settledUpTo_peek (by rw [hpeek]; exact hk)
  · exact SettledUpTo.refl _

theorem settled_advance {f : Unit → Production β} (hpeek : c.peek.kind.IsPlain)
    (hf : ∀ d, Settled d.rest.tail (f () d)) : Settled c.rest.tail ((advance >>= f) c) := by
  rw [advance_bind]
  exact (hf c.advance).of_settledUpTo (settledUpTo_peek hpeek)

theorem settled_noOperand (h : ¬c.current.kind.StartsExpression) :
    Settled c.rest (fail (α := α) (.noOperand c.current) c) :=
  ⟨SettledUpTo.refl _, ⟨rfl, h⟩, fun _ hb => nomatch hb⟩

/-- A repetition passes what its rounds pass. -/
theorem settled_many {item : Production (Option α)}
    (hitem : ∀ c, Settled c.rest.tail (item c)) (c : Cursor) :
    Settled c.rest.tail (many item c) := by
  fun_induction many item c with
  | case1 c f d h | case2 c d h | case5 c a d h hlt =>
    have hc := hitem c
    rw [h] at hc
    exact hc
  | case3 c a d h hlt f e hmany ih | case4 c a d h hlt as e hmany ih =>
    have hc := hitem c
    rw [h] at hc
    rw [hmany] at ih
    exact ih.of_settledUpTo hc

theorem settled_iterate {step : α → Production (Option α)}
    (hstep : ∀ a c, Settled c.rest.tail (step a c)) (a : α) (c : Cursor) :
    Settled c.rest.tail (iterate step a c) := by
  fun_induction iterate step a c with
  | case1 a c f d h | case2 a c d h | case4 a c b d h hlt =>
    have hc := hstep a c
    rw [h] at hc
    exact hc
  | case3 a c b d h hlt ih =>
    have hc := hstep a c
    rw [h] at hc
    exact ih.of_settledUpTo hc

/-- An integer is passed only if its value can be had. -/
theorem settled_integer (hc : c.current.kind = .int) : Settled c.rest (integer c) := by
  have hstay {f : Fault} (hsight : f.sight = 1) (hdue : f.IsDue c)
      (hblock : ∀ b, f ≠ .defect (.unterminatedBlock b)) :
      Settled (α := Node) c.rest (.error f c) := by
    refine ⟨?_, hdue, fun b hb => absurd hb (hblock b)⟩
    unfold Fault.ahead
    rw [hsight]
    exact SettledUpTo.refl _
  cases h : integer c with
  | ok n d =>
    obtain ⟨rfl, hnumeral, hvalue, -⟩ := integer_of_ok h
    refine ⟨[d.current], rest_eq_cons (by rw [hc]; decide), fun t ht => ?_⟩
    rw [List.mem_singleton.1 ht]
    exact ⟨by rw [hc]; decide, fun _ => hnumeral.length_le, fun _ => hvalue⟩
  | error f d =>
    obtain ⟨rfl, ⟨rfl, hdigits⟩ | ⟨rfl, -⟩ | ⟨rfl, hlength, hvalue⟩⟩ := integer_of_error h
    · exact hstay rfl ⟨rfl, hc, hdigits⟩ fun b hb => nomatch hb
    · exact hstay rfl trivial fun b hb => nomatch hb
    · exact hstay rfl ⟨rfl, hc, hlength, hvalue⟩ fun b hb => nomatch hb

section

variable {sub : Nat → Production Node} (hsub : ∀ level c, Settled c.rest (sub level c))

include hsub

theorem settled_nextExpression (c : Cursor) : Settled c.rest.tail (nextExpression sub c) :=
  hsub _ c.advance

theorem settled_slot (s : Slot) (c : Cursor) : Settled c.rest.tail (s.production sub c) := by
  cases s with
  | parameter => exact (settled_expect (by decide) c).bind fun _ d => settled_pure _ d
  | argument => exact settled_nextExpression hsub c

theorem settled_list (s : Slot) (c : Cursor) : Settled c.rest.tail (s.list sub c) := by
  have hfurther (c : Cursor) : Settled c.rest.tail (furtherItems (s.production sub) c) := by
    refine settled_many (fun c => ?_) c
    rw [peek_bind]
    split
    · next hpeek =>
      exact settled_advance (by rw [hpeek]; decide) fun d =>
        (settled_slot hsub s d).bind fun n d => settled_pure _ d
    · exact settled_pure _ c
  rw [list_eq, peek_bind]
  split
  · next hpeek => exact settled_advance (by rw [hpeek]; decide) fun d => settled_pure _ d
  · exact (settled_slot hsub s c).bind fun n d => (hfurther d).bind fun ns d =>
      (settled_expect (by decide) d).bind fun _ d => settled_pure _ d

theorem settled_statement (c : Cursor) : Settled c.rest (statement sub c) := by
  have hallow (n : Node) (d : Cursor) :
      Settled d.rest.tail ((do allow .semicolon; return n : Production Node) d) :=
    (settled_allow (by decide) d).bind fun _ d => settled_pure n d
  by_cases hlet : c.current.kind = .wordLet
  · rw [statement_of_let hlet]
    refine Settled.of_settledUpTo ?_ (settledUpTo_current (by rw [hlet]; decide))
    have hname (d : Cursor) : Settled d.rest.tail (identifier d) := SettledUpTo.refl _
    exact (settled_expect (by decide) c).bind fun _ d => (hname d).bind fun x d =>
      (settled_expect (by decide) d).bind fun _ d =>
        (settled_nextExpression hsub d).bind fun e d => hallow _ d
  by_cases hreturn : c.current.kind = .wordReturn
  · rw [statement_of_return hreturn]
    refine Settled.of_settledUpTo ?_ (settledUpTo_current (by rw [hreturn]; decide))
    exact (settled_nextExpression hsub c).bind fun e d => hallow _ d
  · rw [statement_of_expression hlet hreturn]
    exact (hsub _ c).bind fun e d => hallow _ d

/-- One statement of a block at a time. The text can also end in front of it, and then it is the
brace that is reported. -/
theorem settled_blockStatements (hforward : ∀ level, Forward (sub level)) {brace : Token}
    (hbrace : brace.kind = .lbrace) (c : Cursor) :
    Settled (brace :: c.rest) (blockStatements sub brace c) := by
  have hopen : SettledUpTo (brace :: c.rest) c.rest :=
    settledUpTo_tail (by rw [nextKind_cons, hbrace]; decide)
  cases h : blockStatements sub brace c with
  | ok ss d =>
    refine hopen.trans ?_
    refine blockStatements_ok (fun c _ d => SettledUpTo c.rest d.rest.tail) ?_ ?_ h
    · exact fun c hclose => settledUpTo_current (by rw [hclose]; decide)
    · intro c s c₁ heof hs
      have hsettled := settled_statement hsub c
      rw [hs] at hsettled
      exact ⟨((forward_statement hforward).ok hs).advance_lt heof,
        fun ss d' hrest => SettledUpTo.trans hsettled hrest⟩
  | error f d =>
    -- the fault is one of a statement, or the text ends where the next one starts
    have herror : SettledUpTo c.rest (f.ahead d) ∧ f.IsDue d ∧
        ∀ b, f = .defect (.unterminatedBlock b) → b = brace ∨ b ∈ c.rest := by
      refine blockStatements_error (fun c => SettledUpTo c.rest (f.ahead d) ∧ f.IsDue d ∧
        ∀ b, f = .defect (.unterminatedBlock b) → b = brace ∨ b ∈ c.rest) ?_ ?_ ?_ h
      · rintro rfl heof
        refine ⟨SettledUpTo.refl _, ⟨heof, hbrace⟩, fun b hb => Or.inl ?_⟩
        cases hb
        rfl
      · intro c _ hs
        have hsettled := settled_statement hsub c
        rw [hs] at hsettled
        exact ⟨hsettled.1, hsettled.2.1, fun b hb => Or.inr (hsettled.2.2 b hb)⟩
      · intro c s c₁ hs hmore
        have hsettled := settled_statement hsub c
        rw [hs] at hsettled
        exact ⟨SettledUpTo.trans hsettled hmore.1, hmore.2.1, fun b hb =>
          (hmore.2.2 b hb).imp_right fun hmem => SettledUpTo.suffix hsettled |>.mem hmem⟩
    exact ⟨hopen.trans herror.1, herror.2.1, fun b hb => List.mem_cons.2 (herror.2.2 b hb)⟩

/-- A block behind the brace that is expected in front of it. -/
theorem settled_block (hforward : ∀ level, Forward (sub level)) {f : Node → Production Node}
    (hf : ∀ b d, Settled d.rest.tail (f b d)) (c : Cursor) :
    Settled c.rest.tail ((expect .lbrace >>= fun _ => block sub >>= f) c) := by
  have hopen := settled_expect (k := .lbrace) (by decide) c
  cases h : expect .lbrace c with
  | error e d =>
    rw [h] at hopen
    rw [bind_of_error h]
    exact hopen
  | ok u d =>
    obtain ⟨hbrace, hrest⟩ := expect_ok (by decide) h
    have hstatements := settled_blockStatements hsub hforward hbrace d.advance
    have hblock : Settled c.rest.tail (block sub d) := by
      unfold block
      rw [current_bind, advance_bind, hrest]
      exact hstatements.bind fun ss d => settled_pure _ d
    rw [bind_of_ok h]
    exact hblock.bind hf

theorem settled_conditional (hforward : ∀ level, Forward (sub level)) (c : Cursor) :
    Settled c.rest.tail (conditional sub c) := by
  unfold conditional
  refine (settled_expect (by decide) c).bind fun _ d => (settled_nextExpression hsub d).bind
    fun e d => (settled_expect (by decide) d).bind fun _ d =>
      settled_block hsub hforward (fun b d => ?_) d
  rw [peek_bind]
  split
  · next hpeek =>
    exact settled_advance (by rw [hpeek]; decide) fun d =>
      settled_block hsub hforward (fun a d => settled_pure _ d) d
  · exact settled_pure _ d

theorem settled_functionLiteral (hforward : ∀ level, Forward (sub level)) (c : Cursor) :
    Settled c.rest.tail (functionLiteral sub c) :=
  (settled_expect (by decide) c).bind fun _ d =>
    (settled_list hsub .parameter d : Settled _ (parameters d)).bind fun ps d =>
      settled_block hsub hforward (fun b d => settled_pure _ d) d

/-- The operands whose first token needs no check. -/
theorem settled_primary (hforward : ∀ level, Forward (sub level)) {k : Kind}
    (hk : k.StartsExpression) (hint : k ≠ .int) (c : Cursor) :
    Settled c.rest.tail (primary sub k c) := by
  cases k with
  | int => exact absurd rfl hint
  | ident | wordTrue | wordFalse => exact SettledUpTo.refl _
  | bang | minus =>
    have hunary := (hsub Precedence.unary.level c.advance).map
      (Node.unary c.current c.current.literal)
    exact hunary
  | lparen =>
    exact (settled_nextExpression hsub c).bind fun e d =>
      (settled_expect (by decide) d).bind fun _ d => settled_pure _ d
  | wordIf => exact settled_conditional hsub hforward c
  | wordFn => exact settled_functionLiteral hsub hforward c
  | _ => exact absurd hk (by decide)

/-- A token that starts no operand is not passed, and an integer only by the production that checks
it. -/
theorem settled_operand (hforward : ∀ level, Forward (sub level)) (c : Cursor) :
    Settled c.rest (operand sub .standard c) := by
  rw [operand_eq]
  split
  · next hstarts =>
    by_cases hint : c.current.kind = .int
    · rw [hint]
      exact settled_integer hint
    · have hplain : c.current.kind.IsPlain := by
        refine ⟨?_, hint⟩
        intro hillegal
        rw [hillegal] at hstarts
        exact absurd hstarts (by decide)
      exact (settled_primary hsub hforward hstarts hint c).of_settledUpTo
        (settledUpTo_current hplain)
  · next hstarts => exact settled_noOperand hstarts

theorem settled_extend (level : Nat) (left : Node) (c : Cursor) :
    Settled c.rest.tail (extend sub .standard level left c) := by
  refine settled_iterate (fun n c => ?_) left c
  rw [continuation_eq]
  split
  · next hcond =>
    have hplain : c.peek.kind.IsPlain := by
      have hmem := hcond.2.2
      revert hmem
      generalize c.peek.kind = k
      revert k
      decide
    refine Settled.of_settledUpTo ?_ (settledUpTo_peek hplain)
    refine Settled.bind ?_ fun m d => settled_pure _ d
    split
    · have hcall := (settled_list hsub .argument c.advance).map (Node.call c.advance.current n)
      exact hcall
    · have hbinary := (hsub c.advance.current.kind.precedence.level c.advance.advance).map
        (Node.binary c.advance.current n c.advance.current.literal)
      exact hbinary
  · exact SettledUpTo.refl _

end

/-- Expressions pass only tokens that are in order, by induction on the limit. -/
theorem settled_expression (limit level : Nat) (c : Cursor) :
    Settled c.rest (within limit level c) := by
  -- the expressions inside an operand are nested less deeply
  induction limit generalizing level c with
  | zero => exact ⟨SettledUpTo.refl _, rfl, fun b hb => nomatch hb⟩
  | succ limit ih =>
    exact (settled_operand ih (forward_expression .standard limit) c).bind fun left d =>
      settled_extend ih level left d

theorem settled_statementWithin (limit : Nat) (c : Cursor) :
    Settled c.rest (statementWithin .standard limit c) :=
  settled_statement (settled_expression limit) c

end Production

end MonkeySyntax
