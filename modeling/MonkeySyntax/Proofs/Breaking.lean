import MonkeySyntax.Proofs.Derivation
import MonkeySyntax.Proofs.Mirroring

/-!
# Where reading breaks off

A production that fails has read what some text begins with: the tokens in front of the one at
which the defect shows can be completed to what the production was to read. So at every failure a
completion is at hand, and it is put together construct by construct, from the innermost one that
is still open to the whole text. Behind a semicolon no production is still open but a block.
-/

namespace MonkeySyntax

open Production

def Defect.ahead (e : Defect) (c : Cursor) : List Token :=
  c.rest.drop (e.sight - 1)

def Defect.IsAt (e : Defect) (c : Cursor) : Prop :=
  match e with
  | .unexpected _ t => t = c.peek
  | .noOperand t | .malformedInteger t | .integerOutOfRange t => t = c.current
  | .unterminatedBlock _ => c.current.kind = .eof
  | .nestedTooDeeply t => t = c.current

def Token.ofKind (k : Kind) : Token := ⟨k, "", .nowhere⟩

/-- Reading breaks off what the rows of tokens in `L` begin with. -/
structure BreaksOff (L : List Token → Prop) (ts : List Token) (e : Defect) (d : Cursor) : Prop where
  isAt : e.IsAt d
  completed : ∃ us ws, ts = us ++ e.ahead d ∧ L (us ++ ws) ∧
    (e.ahead d = [] → (∃ b, e = .unterminatedBlock b) ∨ lastKind us ≠ .semicolon)

section

variable {L L' : List Token → Prop} {ts ts' us : List Token} {c d : Cursor} {e : Defect}

/-- What breaks off inside a construct breaks off the construct. -/
theorem BreaksOff.within (h : BreaksOff L ts e d) (pre post : List Token) (hts : ts' = pre ++ ts)
    (hpre : ts = [] → (∃ b, e = .unterminatedBlock b) ∨ lastKind pre ≠ .semicolon)
    (hL : ∀ us, L us → L' (pre ++ (us ++ post))) : BreaksOff L' ts' e d := by
  obtain ⟨us, ws, rfl, hus, hlast⟩ := h.completed
  refine ⟨h.isAt, pre ++ us, ws ++ post, ?_, ?_, fun hnil => ?_⟩
  · rw [hts, List.append_assoc]
  · have hcompleted := hL _ hus
    simp only [List.append_assoc] at hcompleted ⊢
    exact hcompleted
  · by_cases hus : us = []
    · rw [hus, List.append_nil]
      exact hpre (by rw [hus, hnil]; rfl)
    · rw [lastKind_append hus]
      exact hlast hnil

/-- At a token that starts no operand, or is none, any expression can stand. -/
theorem breaksOff_operand (he : e.IsAt c) (hsight : e.sight = 1) :
    BreaksOff (Derives .expression) c.rest e c := by
  refine ⟨he, [], [.ofKind .ident], ?_, Derives.identifier rfl, fun _ => Or.inr (by decide)⟩
  unfold Defect.ahead
  rw [hsight]
  rfl

/-- Where another token is found, the one that was wanted completes what stands in front of it. -/
theorem expect_breaks {k : Kind} (h : expect k c = .error (.defect e) d) (pre post : List Token)
    (hts : ts = pre ++ c.rest.tail) (hpre : lastKind pre ≠ .semicolon)
    (hL : L (pre ++ .ofKind k :: post)) : BreaksOff L ts e d := by
  rw [expect_eq] at h
  split at h
  · cases h
  · cases h
    refine ⟨rfl, pre, .ofKind k :: post, ?_, hL, fun _ => Or.inr hpre⟩
    rw [hts, ← List.drop_one]
    rfl

theorem Kind.ne_semicolon_of_endsExpression {k : Kind} (h : k.EndsExpression) :
    k ≠ .semicolon := by
  rintro rfl
  exact absurd h (by decide)

theorem Spells.lastKind_ne_semicolon {φ : Phrase} (h : Spells φ us)
    (hφ : φ.EndsWith (lastKind us) → (lastKind us).EndsExpression) (ts : List Token) :
    lastKind (ts ++ us) ≠ .semicolon := by
  have hends := hφ h.endsWith
  rw [lastKind_append (fun hnil => absurd hends (by rw [hnil]; decide))]
  exact Kind.ne_semicolon_of_endsExpression hends

theorem lastKind_concat_ne {t : Token} {k : Kind} (ht : t.kind = k) (hk : k ≠ .semicolon)
    (ts : List Token) : lastKind (ts ++ [t]) ≠ .semicolon := by
  rw [lastKind_append (List.cons_ne_nil t []), lastKind_singleton, ht]
  exact hk

end

def BreaksAt (sub : Nat → Production Node) : Prop :=
  ∀ {level : Nat} {c d : Cursor} {e : Defect}, Precedence.lowest.level ≤ level →
    level ≤ Precedence.unary.level → sub level c = .error (.defect e) d →
    BreaksOff (Derives .expression) c.rest e d

section

variable {sub : Nat → Production Node} {c d : Cursor} {e : Defect}

theorem nextExpression_breaks (hbreaks : BreaksAt sub)
    (h : nextExpression sub c = .error (.defect e) d) :
    BreaksOff (Derives .expression) c.rest.tail e d := by
  unfold nextExpression at h
  rw [advance_bind] at h
  exact hbreaks (by decide) (by decide) h

theorem grouped_breaks (hsub : SoundAt sub) (hbreaks : BreaksAt sub)
    (ht : c.current.kind = .lparen) (h : grouped sub c = .error (.defect e) d) :
    BreaksOff (Derives .expression) c.rest e d := by
  have hrest : c.rest = c.current :: c.rest.tail := rest_eq_cons (by rw [ht]; decide)
  rcases bind_eq_error.1 h with h | ⟨n, c₁, hn, h⟩
  · refine (nextExpression_breaks hbreaks h).within [c.current] [.ofKind .rparen] hrest
      (fun _ => Or.inr (lastKind_concat_ne ht (by decide) [])) fun us hus => ?_
    exact Derives.grouped ht hus rfl
  obtain ⟨k, us, hus, hspells, -⟩ := nextExpression_sound hsub hn
  rcases bind_eq_error.1 h with h | ⟨_, c₂, -, h⟩
  · refine expect_breaks h (c.current :: us) [] ?_ (hspells.lastKind_ne_semicolon id [_]) ?_
    · rw [hrest, hus]
      rfl
    · exact Derives.grouped ht hspells.derives rfl
  · cases h

theorem unary_breaks (hbreaks : BreaksAt sub)
    (ht : c.current.kind = .bang ∨ c.current.kind = .minus)
    (h : unary sub c = .error (.defect e) d) : BreaksOff (Derives .expression) c.rest e d := by
  unfold unary at h
  rw [current_bind, advance_bind] at h
  have hne : c.current.kind ≠ .eof ∧ c.current.kind ≠ .semicolon := by
    rcases ht with ht | ht <;> rw [ht] <;> decide
  rcases bind_eq_error.1 h with h | ⟨n, c₁, -, h⟩
  · refine (hbreaks (by decide) (by decide) h).within [c.current] [] (rest_eq_cons hne.1)
      (fun _ => Or.inr hne.2) fun us hus => ?_
    rw [List.append_nil]
    exact Derives.unary ht hus
  · cases h

def ClosedItems (s : Slot) (ts : List Token) : Prop :=
  ∃ us r, ts = us ++ [r] ∧ r.kind = .rparen ∧ Derives (.items s) us

theorem slot_breaks (hbreaks : BreaksAt sub) {s : Slot}
    (h : s.production sub c = .error (.defect e) d) :
    BreaksOff (Derives (.item s)) c.rest.tail e d := by
  cases s with
  | parameter =>
    rcases bind_eq_error.1 h with h | ⟨_, c₁, -, h⟩
    · exact expect_breaks h [] [] rfl (by decide) (Derives.parameter rfl)
    · cases h
  | argument =>
    refine (nextExpression_breaks hbreaks h).within [] [] rfl (fun _ => Or.inr (by decide))
      fun us hus => ?_
    rw [List.append_nil]
    exact Derives.argument hus

/-- A list breaks off in one of its items, and what is in front of that item is derived. -/
theorem furtherItems_breaks (hsub : SoundAt sub) (hbreaks : BreaksAt sub) {s : Slot}
    (h : furtherItems (s.production sub) c = .error (.defect e) d) :
    BreaksOff (Derives (.further s)) c.rest.tail e d := by
  refine many_error (fun c => BreaksOff (Derives (.further s)) c.rest.tail e d) ?_ ?_ h
  · -- the repetition fails in a round
    intro c h
    rw [peek_bind] at h
    split at h
    · next hpeek =>
      obtain ⟨hcomma, htail⟩ := tail_eq_cons hpeek (by decide)
      rw [advance_bind] at h
      rcases bind_eq_error.1 h with h | ⟨n, c₁, -, h⟩
      · refine (slot_breaks hbreaks h).within [c.advance.current] [] htail
          (fun _ => Or.inr (lastKind_concat_ne hcomma (by decide) [])) fun us hus => ?_
        have hfurther := Derives.further hcomma hus Derives.noFurther
        exact hfurther
      · cases h
    · cases h
  · -- the rounds before that one have put items in front
    intro c n c' h hmore
    rw [peek_bind] at h
    split at h
    · next hpeek =>
      obtain ⟨hcomma, htail⟩ := tail_eq_cons hpeek (by decide)
      rw [advance_bind] at h
      obtain ⟨n', c₁, hn, h⟩ := bind_eq_ok.1 h
      cases h
      obtain ⟨us, hus, hspells⟩ := slot_sound hsub hn
      refine hmore.within (c.advance.current :: us) [] ?_
        (fun _ => Or.inr (hspells.lastKind_ne_semicolon id [_])) fun vs hvs => ?_
      · rw [htail, hus]
        rfl
      · rw [List.append_nil]
        exact Derives.further hcomma hspells.derives hvs
    · cases h

theorem list_breaks (hsub : SoundAt sub) (hbreaks : BreaksAt sub) {s : Slot}
    (h : s.list sub c = .error (.defect e) d) : BreaksOff (ClosedItems s) c.rest.tail e d := by
  rw [list_eq, peek_bind] at h
  split at h
  · cases h
  rcases bind_eq_error.1 h with h | ⟨n, c₁, hn, h⟩
  · refine (slot_breaks hbreaks h).within [] [.ofKind .rparen] rfl (fun _ => Or.inr (by decide))
      fun us hus => ⟨us ++ [], .ofKind .rparen, ?_, rfl, Derives.items hus Derives.noFurther⟩
    rw [List.append_nil]
    rfl
  obtain ⟨us, hus, hspells⟩ := slot_sound hsub hn
  rcases bind_eq_error.1 h with h | ⟨ns, c₂, hns, h⟩
  · refine (furtherItems_breaks hsub hbreaks h).within us [.ofKind .rparen] hus
      (fun _ => Or.inr (hspells.lastKind_ne_semicolon id []))
      fun vs hvs => ⟨us ++ vs, .ofKind .rparen, ?_, rfl, Derives.items hspells.derives hvs⟩
    rw [List.append_assoc]
  obtain ⟨vs, hvs, hspells'⟩ := furtherItems_sound hsub hns
  rcases bind_eq_error.1 h with h | ⟨_, c₃, -, h⟩
  · have hitems := Spells.items hspells hspells'
    refine expect_breaks h (us ++ vs) [] ?_ ?_ ⟨us ++ vs, _, rfl, rfl, hitems.derives⟩
    · rw [hus, hvs, List.append_assoc]
    · rcases hitems.endsWith with hlast | hlast
      · rw [hlast]
        decide
      · exact Kind.ne_semicolon_of_endsExpression hlast
  · cases h

theorem allow_ne_error {k : Kind} {f : Fault} : allow k c ≠ .error f d := by
  rw [allow_eq]
  split <;> rintro ⟨⟩

theorem letStatement_breaks (hbreaks : BreaksAt sub) (ht : c.current.kind = .wordLet)
    (h : letStatement sub c = .error (.defect e) d) : BreaksOff (Derives .clause) c.rest e d := by
  have hrest : c.rest = c.current :: c.rest.tail := rest_eq_cons (by rw [ht]; decide)
  have hname : Derives .expression [.ofKind .ident] := Derives.identifier rfl
  unfold letStatement at h
  rw [current_bind] at h
  rcases bind_eq_error.1 h with h | ⟨_, c₁, hx, h⟩
  · exact expect_breaks h [c.current] [.ofKind .assign, .ofKind .ident] hrest
      (lastKind_concat_ne ht (by decide) []) (Derives.letClause ht rfl rfl hname)
  obtain ⟨hx, hrest'⟩ := expect_ok (by decide) hx
  rcases bind_eq_error.1 h with h | ⟨x, c₂, hx', h⟩
  · cases h
  cases hx'
  rcases bind_eq_error.1 h with h | ⟨_, c₃, ha, h⟩
  · refine expect_breaks h [c.current, c₁.current] [.ofKind .ident] ?_
      (lastKind_concat_ne hx (by decide) [_]) (Derives.letClause ht hx rfl hname)
    rw [hrest, hrest']
    rfl
  obtain ⟨ha, hrest''⟩ := expect_ok (by decide) ha
  rcases bind_eq_error.1 h with h | ⟨n, c₄, -, h⟩
  · refine (nextExpression_breaks hbreaks h).within [c.current, c₁.current, c₃.current] [] ?_
      (fun _ => Or.inr (lastKind_concat_ne ha (by decide) [_, _])) fun us hus => ?_
    · rw [hrest, hrest', hrest'']
      rfl
    · rw [List.append_nil]
      exact Derives.letClause ht hx ha hus
  rcases bind_eq_error.1 h with h | ⟨_, c₅, -, h⟩
  · exact absurd h allow_ne_error
  · cases h

theorem returnStatement_breaks (hbreaks : BreaksAt sub) (ht : c.current.kind = .wordReturn)
    (h : returnStatement sub c = .error (.defect e) d) :
    BreaksOff (Derives .clause) c.rest e d := by
  unfold returnStatement at h
  rw [current_bind] at h
  rcases bind_eq_error.1 h with h | ⟨n, c₁, -, h⟩
  · refine (nextExpression_breaks hbreaks h).within [c.current] []
      (rest_eq_cons (by rw [ht]; decide))
      (fun _ => Or.inr (lastKind_concat_ne ht (by decide) [])) fun us hus => ?_
    rw [List.append_nil]
    exact Derives.returnClause ht hus
  rcases bind_eq_error.1 h with h | ⟨_, c₂, -, h⟩
  · exact absurd h allow_ne_error
  · cases h

theorem statement_breaks (hbreaks : BreaksAt sub)
    (h : Production.statement sub c = .error (.defect e) d) :
    BreaksOff (Derives .clause) c.rest e d := by
  by_cases hlet : c.current.kind = .wordLet
  · rw [statement_of_let hlet] at h
    exact letStatement_breaks hbreaks hlet h
  by_cases hreturn : c.current.kind = .wordReturn
  · rw [statement_of_return hreturn] at h
    exact returnStatement_breaks hbreaks hreturn h
  rw [statement_of_expression hlet hreturn] at h
  unfold expressionStatement at h
  rw [current_bind] at h
  rcases bind_eq_error.1 h with h | ⟨n, c₁, -, h⟩
  · refine (hbreaks (by decide) (by decide) h).within [] [] rfl (fun _ => Or.inr (by decide))
      fun us hus => ?_
    rw [List.append_nil]
    exact Derives.expressionClause hus
  rcases bind_eq_error.1 h with h | ⟨_, c₂, -, h⟩
  · exact absurd h allow_ne_error
  · cases h

theorem SpellsEnded.derives {s : Node} {us ts : List Token} (h : SpellsEnded s us ts) :
    Derives .statement us := by
  rcases h with ⟨vs, t, rfl, ht, hs⟩ | ⟨hs, -⟩
  · exact Derives.terminated hs.derives ht
  · exact Derives.unterminated hs.derives

theorem BreaksOff.statements {ts : List Token} (h : BreaksOff (Derives .clause) ts e d) :
    BreaksOff (Derives .statements) ts e d := by
  refine h.within [] [] rfl (fun _ => Or.inr (by decide)) fun us hus => ?_
  have hstatements := Derives.statements (Derives.unterminated hus) Derives.noStatements
  exact hstatements

/-- A statement may end with a semicolon, so where the text ends behind one in a block it is the
block that is reported. -/
theorem blockStatements_breaks (hsub : SoundAt sub) (hbreaks : BreaksAt sub) {brace : Token}
    (h : blockStatements sub brace c = .error (.defect e) d) :
    BreaksOff (Derives .statements) c.rest e d ∧
      (c.rest = [] → ∃ b, e = .unterminatedBlock b) := by
  refine blockStatements_error (fun c => BreaksOff (Derives .statements) c.rest e d ∧
    (c.rest = [] → ∃ b, e = .unterminatedBlock b)) ?_ ?_ ?_ h
  · intro he heof
    cases he
    exact ⟨⟨heof, [], [], rfl, Derives.noStatements, fun _ => Or.inr (by decide)⟩,
      fun _ => ⟨brace, rfl⟩⟩
  · intro c heof hs
    have hne : c.rest ≠ [] := by
      intro hnil
      rw [kind_current, hnil] at heof
      exact heof rfl
    exact ⟨(statement_breaks hbreaks hs).statements, fun hnil => absurd hnil hne⟩
  · intro c s c₁ hs hrest
    obtain ⟨us, hus, hended⟩ := statement_sound hsub hs
    obtain ⟨hbreaks, hunterminated⟩ := hrest
    refine ⟨hbreaks.within us [] hus (fun hnil => Or.inl (hunterminated hnil)) fun vs hvs => ?_,
      fun hnil => ?_⟩
    · rw [List.append_nil]
      exact Derives.statements hended.derives hvs
    · rw [hus] at hnil
      exact absurd (List.append_eq_nil_iff.1 hnil).1 hended.ne_nil

theorem block_breaks (hsub : SoundAt sub) (hbreaks : BreaksAt sub) (ht : c.current.kind = .lbrace)
    (h : block sub c = .error (.defect e) d) : BreaksOff (Derives .block) c.rest e d := by
  unfold block at h
  rw [current_bind, advance_bind] at h
  rcases bind_eq_error.1 h with h | ⟨ss, c₁, -, h⟩
  · refine (blockStatements_breaks hsub hbreaks h).1.within [c.current] [.ofKind .rbrace]
      (rest_eq_cons (by rw [ht]; decide))
      (fun _ => Or.inr (lastKind_concat_ne ht (by decide) [])) fun us hus => ?_
    exact Derives.block ht hus rfl
  · cases h

theorem expect_brace_breaks (h : expect .lbrace c = .error (.defect e) d) :
    BreaksOff (Derives .block) c.rest.tail e d :=
  expect_breaks h [] [.ofKind .rbrace] rfl (by decide) (Derives.block rfl Derives.noStatements rfl)

theorem block_behind_breaks (hsub : SoundAt sub) (hbreaks : BreaksAt sub) {c' : Cursor} {u : Unit}
    (hexpect : expect .lbrace c = .ok u c') (h : block sub c' = .error (.defect e) d) :
    BreaksOff (Derives .block) c.rest.tail e d := by
  obtain ⟨hl, hrest⟩ := expect_ok (by decide) hexpect
  rw [hrest, ← rest_eq_cons (by rw [hl]; decide)]
  exact block_breaks hsub hbreaks hl h

/-- A choice breaks off in its condition or in a block, or in front of a parenthesis or a brace. -/
theorem conditional_breaks (hsub : SoundAt sub) (hbreaks : BreaksAt sub)
    (ht : c.current.kind = .wordIf) (h : conditional sub c = .error (.defect e) d) :
    BreaksOff (Derives .expression) c.rest e d := by
  have hrest : c.rest = c.current :: c.rest.tail := rest_eq_cons (by rw [ht]; decide)
  have hname : Derives .expression [.ofKind .ident] := Derives.identifier rfl
  have hempty : Derives .block [.ofKind .lbrace, .ofKind .rbrace] :=
    Derives.block rfl Derives.noStatements rfl
  unfold conditional at h
  rw [current_bind] at h
  rcases bind_eq_error.1 h with h | ⟨_, c₁, hopen, h⟩
  · exact expect_breaks h [c.current] [.ofKind .ident, .ofKind .rparen, .ofKind .lbrace,
      .ofKind .rbrace] hrest (lastKind_concat_ne ht (by decide) [])
      (Derives.conditional ht rfl hname rfl hempty)
  obtain ⟨hl, hrest'⟩ := expect_ok (by decide) hopen
  rcases bind_eq_error.1 h with h | ⟨n, c₂, hn, h⟩
  · refine (nextExpression_breaks hbreaks h).within [c.current, c₁.current]
      [.ofKind .rparen, .ofKind .lbrace, .ofKind .rbrace] ?_
      (fun _ => Or.inr (lastKind_concat_ne hl (by decide) [_])) fun us hus => ?_
    · rw [hrest, hrest']
      rfl
    · exact Derives.conditional ht hl hus rfl hempty
  obtain ⟨k, us, hus, hspells, -⟩ := nextExpression_sound hsub hn
  rcases bind_eq_error.1 h with h | ⟨_, c₃, hclose, h⟩
  · refine expect_breaks h (c.current :: c₁.current :: us) [.ofKind .lbrace, .ofKind .rbrace] ?_
      (hspells.lastKind_ne_semicolon id [_, _])
      (Derives.conditional ht hl hspells.derives rfl hempty)
    rw [hrest, hrest', hus]
    rfl
  obtain ⟨hr, hrest''⟩ := expect_ok (by decide) hclose
  -- up to here the text is the front of a choice, to which a block can be added
  have hfront : c.rest = (c.current :: c₁.current :: (us ++ [c₃.current])) ++ c₃.rest.tail := by
    rw [hrest, hrest', hus, hrest'']
    simp only [List.cons_append, List.append_assoc, List.nil_append]
  have hlast : lastKind (c.current :: c₁.current :: (us ++ [c₃.current])) ≠ .semicolon :=
    lastKind_concat_ne hr (by decide) (c.current :: c₁.current :: us)
  have hblock (h : BreaksOff (Derives .block) c₃.rest.tail e d) :
      BreaksOff (Derives .expression) c.rest e d := by
    refine h.within _ [] hfront (fun _ => Or.inr hlast) fun vs hvs => ?_
    simp only [List.append_nil, List.cons_append, List.append_assoc, List.nil_append]
    exact Derives.conditional ht hl hspells.derives hr hvs
  rcases bind_eq_error.1 h with h | ⟨_, c₄, hbrace, h⟩
  · exact hblock (expect_brace_breaks h)
  rcases bind_eq_error.1 h with h | ⟨b, c₅, hb, h⟩
  · exact hblock (block_behind_breaks hsub hbreaks hbrace h)
  obtain ⟨vs, hvs, hblock₁⟩ := expect_block_sound hsub hbrace hb
  rw [peek_bind] at h
  split at h
  · next hpeek =>
    obtain ⟨ho, htail⟩ := tail_eq_cons hpeek (by decide)
    have helse (h : BreaksOff (Derives .block) c₅.advance.rest.tail e d) :
        BreaksOff (Derives .expression) c.rest e d := by
      refine h.within ((c.current :: c₁.current :: (us ++ [c₃.current])) ++
        (vs ++ [c₅.advance.current])) [] ?_ (fun _ => Or.inr ?_) fun ws hws => ?_
      · rw [hfront, hvs, htail]
        simp only [List.append_assoc, List.singleton_append]
      · rw [← List.append_assoc]
        exact lastKind_concat_ne ho (by decide) _
      · simp only [List.append_nil, List.cons_append, List.append_assoc, List.nil_append]
        exact Derives.choice ht hl hspells.derives hr hblock₁.derives ho hws
    rw [advance_bind] at h
    rcases bind_eq_error.1 h with h | ⟨_, c₆, hbrace', h⟩
    · exact helse (expect_brace_breaks h)
    rcases bind_eq_error.1 h with h | ⟨a, c₇, -, h⟩
    · exact helse (block_behind_breaks hsub hbreaks hbrace' h)
    · cases h
  · cases h

/-- A function breaks off in its parameters or in its body, or in front of one of the two. -/
theorem functionLiteral_breaks (hsub : SoundAt sub) (hbreaks : BreaksAt sub)
    (ht : c.current.kind = .wordFn) (h : functionLiteral sub c = .error (.defect e) d) :
    BreaksOff (Derives .expression) c.rest e d := by
  have hrest : c.rest = c.current :: c.rest.tail := rest_eq_cons (by rw [ht]; decide)
  have hempty : Derives .block [.ofKind .lbrace, .ofKind .rbrace] :=
    Derives.block rfl Derives.noStatements rfl
  unfold functionLiteral at h
  rw [current_bind] at h
  rcases bind_eq_error.1 h with h | ⟨_, c₁, hopen, h⟩
  · exact expect_breaks h [c.current] [.ofKind .rparen, .ofKind .lbrace, .ofKind .rbrace] hrest
      (lastKind_concat_ne ht (by decide) []) (Derives.function ht rfl Derives.noItems rfl hempty)
  obtain ⟨hl, hrest'⟩ := expect_ok (by decide) hopen
  rcases bind_eq_error.1 h with h | ⟨ps, c₂, hps, h⟩
  · have hlist : Slot.parameter.list sub c₁ = .error (.defect e) d := h
    refine (list_breaks hsub hbreaks hlist).within [c.current, c₁.current]
      [.ofKind .lbrace, .ofKind .rbrace] ?_
      (fun _ => Or.inr (lastKind_concat_ne hl (by decide) [_])) ?_
    · rw [hrest, hrest']
      rfl
    · rintro _ ⟨us, r, rfl, hr, hus⟩
      rw [List.append_assoc]
      exact Derives.function ht hl hus hr hempty
  have hlist : Slot.parameter.list sub c₁ = .ok ps c₂ := hps
  obtain ⟨us, hus, hr, hspells⟩ := list_sound hsub hlist
  have hblock (h : BreaksOff (Derives .block) c₂.rest.tail e d) :
      BreaksOff (Derives .expression) c.rest e d := by
    refine h.within (c.current :: c₁.current :: (us ++ [c₂.current])) [] ?_
      (fun _ => Or.inr (lastKind_concat_ne hr (by decide) (c.current :: c₁.current :: us)))
      fun vs hvs => ?_
    · rw [hrest, hrest', hus]
      simp only [List.cons_append, List.append_assoc, List.nil_append]
    · simp only [List.append_nil, List.cons_append, List.append_assoc, List.nil_append]
      exact Derives.function ht hl hspells.derives hr hvs
  rcases bind_eq_error.1 h with h | ⟨_, c₃, hbrace, h⟩
  · exact hblock (expect_brace_breaks h)
  rcases bind_eq_error.1 h with h | ⟨b, c₄, -, h⟩
  · exact hblock (block_behind_breaks hsub hbreaks hbrace h)
  · cases h

theorem integer_breaks (h : integer c = .error (.defect e) d) :
    BreaksOff (Derives .expression) c.rest e d := by
  rcases integer_of_error h with ⟨rfl, ⟨he, -⟩ | ⟨he, -⟩ | ⟨he, -⟩⟩ <;> cases he
  · exact breaksOff_operand rfl rfl
  · exact breaksOff_operand rfl rfl

/-- Where no operand starts, any operand completes what stands in front; every other one breaks off
inside. -/
theorem operand_breaks (hsub : SoundAt sub) (hbreaks : BreaksAt sub)
    (h : operand sub .standard c = .error (.defect e) d) :
    BreaksOff (Derives .expression) c.rest e d := by
  rw [operand_eq] at h
  split at h
  · cases hk : c.current.kind with
    | ident | wordTrue | wordFalse =>
      rw [hk] at h
      cases h
    | int =>
      rw [hk] at h
      exact integer_breaks h
    | bang =>
      rw [hk] at h
      exact unary_breaks hbreaks (Or.inl hk) h
    | minus =>
      rw [hk] at h
      exact unary_breaks hbreaks (Or.inr hk) h
    | lparen =>
      rw [hk] at h
      exact grouped_breaks hsub hbreaks hk h
    | wordIf =>
      rw [hk] at h
      exact conditional_breaks hsub hbreaks hk h
    | wordFn =>
      rw [hk] at h
      exact functionLiteral_breaks hsub hbreaks hk h
    | _ =>
      rw [hk] at h
      cases h
      exact breaksOff_operand rfl rfl
  · cases h
    exact breaksOff_operand rfl rfl

/-- What continues an operand breaks off an expression that begins with the operand. -/
theorem continuation_breaks (hsub : SoundAt sub) (hbreaks : BreaksAt sub) {level : Nat}
    {left : Node} {us ts : List Token} (hlevel : Precedence.lowest.level ≤ level)
    (hleft : Derives .expression us) (hts : ts = us ++ c.rest.tail)
    (h : continuation sub .standard level left c = .error (.defect e) d) :
    BreaksOff (Derives .expression) ts e d := by
  rw [continuation_eq] at h
  split at h
  · next hcond =>
    have hcurrent : c.advance.current.kind = c.peek.kind := by
      rw [kind_current, kind_peek]
      rfl
    rcases bind_eq_error.1 h with h | ⟨n, c₁, -, h⟩
    · split at h
      · next hparen =>
        obtain ⟨hl, htail⟩ := tail_eq_cons hparen (by decide)
        unfold call at h
        rw [current_bind] at h
        rcases bind_eq_error.1 h with h | ⟨as, c₂, -, h⟩
        · have hlist : Slot.argument.list sub c.advance = .error (.defect e) d := h
          refine (list_breaks hsub hbreaks hlist).within (us ++ [c.advance.current]) [] ?_
            (fun _ => Or.inr (lastKind_concat_ne hl (by decide) us)) ?_
          · rw [hts, htail, List.append_assoc]
            rfl
          · rintro _ ⟨vs, r, rfl, hr, hvs⟩
            simp only [List.append_nil, List.append_assoc, List.singleton_append]
            exact Derives.call hleft hl hvs hr
        · cases h
      · next hparen =>
        have hbinary : c.peek.kind.IsBinary := ⟨Nat.lt_of_le_of_lt hlevel hcond.2.1, hparen⟩
        obtain ⟨-, htail⟩ := tail_eq_cons rfl (hbinary.ne (by decide))
        unfold binary at h
        rw [current_bind, advance_bind, hcurrent] at h
        rcases bind_eq_error.1 h with h | ⟨r, c₂, -, h⟩
        · refine (hbreaks (Nat.le_of_lt hbinary.1) (Nat.le_of_lt hbinary.level_lt) h).within
            (us ++ [c.advance.current]) [] ?_ (fun _ => Or.inr ?_) fun vs hvs => ?_
          · rw [hts, htail, List.append_assoc]
            rfl
          · exact lastKind_concat_ne hcurrent hcond.1 us
          · simp only [List.append_nil, List.append_assoc, List.singleton_append]
            exact Derives.binary hleft (by rw [hcurrent]; exact mem_binaryKinds.2 hbinary) hvs
        · cases h
    · cases h
  · cases h

end

/-- However many expressions may stand inside each other, each breaks off what is derived. -/
theorem expression_breaks (limit : Nat) : BreaksAt (within limit) := by
  induction limit with
  | zero =>
    intro level c d e _ _ h
    cases h
    exact breaksOff_operand (e := .nestedTooDeeply c.current) rfl rfl
  | succ limit ih =>
    intro level c d e hlow _ h
    have hsound : SoundAt (within limit) := expression_sound limit
    rcases bind_eq_error.1 h with h | ⟨left, c₁, hleft, h⟩
    · exact operand_breaks hsound ih h
    obtain ⟨k, us, hrest, hspells, hk, hnext⟩ := operand_sound hsound hleft
    have hstart : IsReadSoFar c level c₁ left := ⟨k, us, hrest, hspells, Or.inr hk, hnext⟩
    -- the loop breaks off behind what it has read so far
    obtain ⟨c₂, n, ⟨m, vs, hrest', hspells', -⟩, h⟩ := iterate_error (IsReadSoFar c level)
      (fun _ _ _ _ hc hstep => (hc.next hsound hlow hstep).2) hstart h
    exact continuation_breaks hsound ih hlow hspells'.derives hrest' h

end MonkeySyntax
