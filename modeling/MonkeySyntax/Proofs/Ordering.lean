import MonkeySyntax.Proofs.Accounting

namespace MonkeySyntax

def ShareToken (es : List Defect) : Prop :=
  es.length ≤ 1 ∨
    ∃ k t, es = [.unexpected k t, .noOperand t] ∨ es = [.unexpected k t, .integerOutOfRange t]

def defectsAt (es : List Defect) (p : Position) : List Defect :=
  es.filter fun e => e.diagnostic.position = p

section

variable {ts us : List Token} {ss : List Node} {es : List Defect} {e : Defect} {t u : Token}

theorem Defect.Convicts.position (h : e.Convicts t) : e.diagnostic.position = t.position := by
  rcases h with ⟨rfl, -⟩ | ⟨rfl, -⟩ <;> rfl

theorem Defect.Closes.exists_position (h : e.Closes us t) :
    ∃ u ∈ us.tail ++ [t], e.diagnostic.position = u.position := by
  have hend : t ∈ us.tail ++ [t] := List.mem_append_right _ List.mem_cons_self
  rcases h with ⟨k, rfl⟩ | rfl | ⟨b, hb, rfl⟩
  · exact ⟨t, hend, rfl⟩
  · exact ⟨t, hend, rfl⟩
  · exact ⟨b, List.mem_append_left _ hb, rfl⟩

theorem Defect.Convicts.not_atEnd (h : e.Convicts t) (ht : t.kind ≠ .eof) : ¬e.AtEnd := by
  rintro (⟨b, hb⟩ | hkind)
  · rcases h with ⟨rfl, -⟩ | ⟨rfl, -⟩ <;> cases hb
  · rcases h with ⟨rfl, -⟩ | ⟨rfl, -⟩ <;> exact ht hkind

theorem Defect.not_atEnd_unexpected {k : Kind} (ht : t.kind ≠ .eof) :
    ¬(Defect.unexpected k t).AtEnd := by
  rintro (⟨b, hb⟩ | hkind)
  · cases hb
  · exact ht hkind

/-- Every defect stands at a token. -/
theorem Accounts.exists_position (h : Accounts ts ss es) :
    ∀ e ∈ es, ∃ t ∈ ts, e.diagnostic.position = t.position := by
  induction h with
  | finish ht =>
    intro e he
    cases he
  | @statement us ts s ss es hne hus h ih =>
    intro e he
    obtain ⟨t, ht, hposition⟩ := ih e he
    exact ⟨t, List.mem_append_right us ht, hposition⟩
  | @unexpected us ts t k ss es hne hus ht h ih =>
    intro e he
    rcases List.mem_cons.1 he with rfl | he
    · exact ⟨t, List.mem_append_right us List.mem_cons_self, rfl⟩
    · obtain ⟨u, hu, hposition⟩ := ih e he
      exact ⟨u, List.mem_append_right us hu, hposition⟩
  | @convicted us ts t e' ss es hus ht hconvicts h ih =>
    intro e he
    rcases List.mem_cons.1 he with rfl | he
    · exact ⟨t, List.mem_append_right us List.mem_cons_self, hconvicts.position⟩
    · obtain ⟨u, hu, hposition⟩ := ih e he
      exact ⟨u, List.mem_append_right us (List.mem_cons_of_mem t hu), hposition⟩
  | @last us t e' hne hus ht hcloses =>
    intro e he
    rw [List.mem_singleton.1 he]
    obtain ⟨u, hu, hposition⟩ := hcloses.exists_position
    refine ⟨u, ?_, hposition⟩
    rcases List.mem_append.1 hu with hu | hu
    · exact List.mem_append_left _ (List.mem_of_mem_tail hu)
    · exact List.mem_append_right us hu

/-- The defects behind a token do not stand at it or in front of it. -/
theorem Accounts.before (h : Accounts ts ss es) (ht : ∀ u ∈ ts, t.position.Before u.position)
    (he : e ∈ es) : t.position.Before e.diagnostic.position := by
  obtain ⟨u, hu, hposition⟩ := h.exists_position e he
  rw [hposition]
  exact ht u hu

theorem defectsAt_eq_nil {p : Position} (h : ∀ e ∈ es, p.Before e.diagnostic.position) :
    defectsAt es p = [] := by
  refine List.filter_eq_nil_iff.2 fun e he hp => ?_
  have hbefore := h e he
  rw [of_decide_eq_true hp] at hbefore
  exact Position.not_before_self p hbefore

theorem defectsAt_cons_of_eq {p : Position} (h : e.diagnostic.position = p) :
    defectsAt (e :: es) p = e :: defectsAt es p :=
  List.filter_cons_of_pos (decide_eq_true h)

theorem defectsAt_cons_of_ne {p : Position} (h : e.diagnostic.position ≠ p) :
    defectsAt (e :: es) p = defectsAt es p :=
  List.filter_cons_of_neg fun hp => h (of_decide_eq_true hp)

/-- The order in which defects are found, and that only the last one can stand at the end. -/
def InOrder (es : List Defect) : Prop :=
  es.Pairwise fun e e' => ¬e'.diagnostic.position.Before e.diagnostic.position ∧ ¬e.AtEnd

/-- Defects are accounted for by tokens from the front to the back, and stand where these do. -/
theorem Accounts.inOrder (h : Accounts ts ss es)
    (hts : ts.Pairwise fun t u => t.position.Before u.position) : InOrder es := by
  -- what stands at a later token does not stand in front of an earlier one
  have hafter {p q : Position} (hpq : p = q ∨ p.Before q) : ¬q.Before p := by
    rcases hpq with rfl | hlt
    · exact Position.not_before_self p
    · exact fun hgt => Position.not_before_self p (hlt.trans hgt)
  induction h with
  | finish ht => exact List.Pairwise.nil
  | statement hne hus h ih => exact ih (List.pairwise_append.1 hts).2.1
  | @unexpected us ts t k ss es hne hus ht h ih =>
    have htail := (List.pairwise_append.1 hts).2.1
    refine List.pairwise_cons.2 ⟨fun e he => ⟨hafter ?_, Defect.not_atEnd_unexpected ht⟩, ih htail⟩
    obtain ⟨u, hu, hposition⟩ := h.exists_position e he
    rw [hposition]
    rcases List.mem_cons.1 hu with rfl | hu
    · exact Or.inl rfl
    · exact Or.inr ((List.pairwise_cons.1 htail).1 u hu)
  | @convicted us ts t e' ss es hus ht hconvicts h ih =>
    obtain ⟨hbehind, htail⟩ := List.pairwise_cons.1 (List.pairwise_append.1 hts).2.1
    refine List.pairwise_cons.2 ⟨fun e he => ⟨hafter (Or.inr ?_), hconvicts.not_atEnd ht⟩, ih htail⟩
    rw [hconvicts.position]
    exact h.before hbehind he
  | last hne hus ht he => exact List.pairwise_singleton _ _

/-- At a token with which an attempt starts only that attempt can find a defect. -/
theorem Accounts.defectsAt_first (h : Accounts (t :: ts) ss es)
    (hts : (t :: ts).Pairwise fun t u => t.position.Before u.position) :
    defectsAt es t.position = [] ∨ defectsAt es t.position = [.noOperand t] ∨
      defectsAt es t.position = [.integerOutOfRange t] := by
  have hbehind := (List.pairwise_cons.1 hts).1
  generalize hall : t :: ts = all at h
  -- a token that is taken is not the one at which a defect shows
  have htaken {us vs : List Token} (hne : us ≠ []) (heq : t :: ts = us ++ vs) :
      ∀ u ∈ us.tail ++ vs, t.position.Before u.position := by
    intro u hu
    apply hbehind
    have htail := congrArg List.tail heq
    rw [List.tail_append_of_ne_nil hne] at htail
    rw [List.tail_cons] at htail
    rw [htail]
    exact hu
  cases h with
  | finish ht => exact Or.inl rfl
  | @statement us vs s ss es hne hus h =>
    have hbefore := htaken hne hall
    exact Or.inl (defectsAt_eq_nil fun e he =>
      h.before (fun u hu => hbefore u (List.mem_append_right _ hu)) he)
  | @unexpected us vs t' k ss es hne hus ht h =>
    have hbefore := htaken hne hall
    refine Or.inl (defectsAt_eq_nil fun e he => ?_)
    rcases List.mem_cons.1 he with rfl | he
    · exact hbefore t' (List.mem_append_right _ List.mem_cons_self)
    · exact h.before (fun u hu => hbefore u (List.mem_append_right _ hu)) he
  | @convicted us vs t' e ss es hus ht he h =>
    by_cases hnil : us = []
    · subst hnil
      obtain ⟨rfl, rfl⟩ := List.cons.inj hall
      have hmore : defectsAt es t.position = [] :=
        defectsAt_eq_nil fun e' he' => h.before hbehind he'
      rw [defectsAt_cons_of_eq he.position, hmore]
      rcases he with ⟨rfl, -⟩ | ⟨rfl, -⟩
      · exact Or.inr (Or.inl rfl)
      · exact Or.inr (Or.inr rfl)
    · have hbefore := htaken hnil hall
      refine Or.inl (defectsAt_eq_nil fun e' he' => ?_)
      rcases List.mem_cons.1 he' with rfl | he'
      · rw [he.position]
        exact hbefore t' (List.mem_append_right _ List.mem_cons_self)
      · exact h.before (fun u hu =>
          hbefore u (List.mem_append_right _ (List.mem_cons_of_mem t' hu))) he'
  | @last us t' e hne hus ht he =>
    have hbefore := htaken hne hall
    refine Or.inl (defectsAt_eq_nil fun e' he' => ?_)
    obtain ⟨u, hu, hposition⟩ := he.exists_position
    rw [List.mem_singleton.1 he', hposition]
    exact hbefore u hu

/-- A second defect at one place is that of the attempt which starts with the token there. -/
theorem Accounts.shareToken (h : Accounts ts ss es)
    (hts : ts.Pairwise fun t u => t.position.Before u.position) (p : Position) :
    ShareToken (defectsAt es p) := by
  induction h with
  | finish ht => exact Or.inl (Nat.zero_le 1)
  | statement hne hus h ih => exact ih (List.pairwise_append.1 hts).2.1
  | @unexpected us ts t k ss es hne hus ht h ih =>
    have htail := (List.pairwise_append.1 hts).2.1
    have hposition : (Defect.unexpected k t).diagnostic.position = t.position := rfl
    by_cases hp : t.position = p
    · subst hp
      rw [defectsAt_cons_of_eq hposition]
      rcases h.defectsAt_first htail with hnil | hone | hone
      · rw [hnil]
        exact Or.inl (Nat.le_refl 1)
      · rw [hone]
        exact Or.inr ⟨k, t, Or.inl rfl⟩
      · rw [hone]
        exact Or.inr ⟨k, t, Or.inr rfl⟩
    · rw [defectsAt_cons_of_ne (by rw [hposition]; exact hp)]
      exact ih htail
  | @convicted us ts t e ss es hus ht he h ih =>
    obtain ⟨hbehind, htail⟩ := List.pairwise_cons.1 (List.pairwise_append.1 hts).2.1
    by_cases hp : t.position = p
    · subst hp
      have hmore : defectsAt es t.position = [] :=
        defectsAt_eq_nil fun e' he' => h.before hbehind he'
      rw [defectsAt_cons_of_eq he.position, hmore]
      exact Or.inl (Nat.le_refl 1)
    · rw [defectsAt_cons_of_ne (by rw [he.position]; exact hp)]
      exact ih htail
  | last hne hus ht he => exact Or.inl (List.length_filter_le _ _)

/-- A statement takes a token, and so does a defect, if only the one at which it shows. -/
theorem Accounts.length_lt (h : Accounts ts ss es) : ss.length + es.length < ts.length := by
  induction h with
  | finish ht => exact Nat.one_pos
  | statement hne hus h ih =>
    have hpos := List.length_pos_iff.2 hne
    rw [List.length_cons, List.length_append]
    omega
  | unexpected hne hus ht h ih =>
    have hpos := List.length_pos_iff.2 hne
    rw [List.length_cons, List.length_append]
    omega
  | convicted hus ht he h ih =>
    rw [List.length_append, List.length_cons, List.length_cons]
    omega
  | last hne hus ht he =>
    have hpos := List.length_pos_iff.2 hne
    rw [List.length_append]
    exact Nat.lt_add_of_pos_left hpos

end

/-- The defects of a text stand at its tokens and come in its order. Two of them can stand at one
token, and only the last one at the end of the text. There are no more statements and defects than
tokens. -/
theorem defects_inOrder (limit : Nat) (source : String)
    (hdigits : ∀ t ∈ tokenize source, t.kind = .int → t.literal.toList.length ≤ maxDigits)
    (hdeep : (parseWithin limit source).withinLimit) :
    (∀ e ∈ (parseWithin limit source).defects,
      ∃ t ∈ tokenize source, e.diagnostic.position = t.position) ∧
    InOrder (parseWithin limit source).defects ∧
    (∀ p, ShareToken (defectsAt (parseWithin limit source).defects p)) ∧
    (parseWithin limit source).statements.length + (parseWithin limit source).defects.length ≤
      (tokenize source).countP fun t => t.kind ≠ .eof := by
  have hoversized : (parseWithin limit source).oversized = none :=
    oversized_eq_none fun t ht => hdigits t (List.mem_append_left _ ht)
  have haccounts := accounts_of_parse hdeep hoversized
  have hpairwise := pairwise_before_tokenize source
  refine ⟨haccounts.exists_position, haccounts.inOrder hpairwise,
    haccounts.shareToken hpairwise, ?_⟩
  -- the end of the text is the only token that is not counted
  have hcount : (tokenize source).length =
      ((tokenize source).countP fun t => t.kind ≠ .eof) + 1 := by
    have hrest : ((Cursor.ofString source).rest.countP fun t => t.kind ≠ .eof) =
        (Cursor.ofString source).rest.length :=
      List.countP_eq_length.2 fun t ht => decide_eq_true (isLexical_of_mem_lex ht).kind_ne_eof
    have hall : tokenize source =
        (Cursor.ofString source).rest ++ [.finish (Cursor.ofString source).stop] := rfl
    rw [hall, List.length_append, List.countP_append, hrest]
    rfl
  have hlt := haccounts.length_lt
  omega

/-- Six defects, the first two of them at one token and the last one at a brace behind which the
text ends. -/
theorem defects_inOrder_of_six :
    (∀ t ∈ tokenize "let @ f(1 2); fn(x) \x7b y", t.kind = .int →
      t.literal.toList.length ≤ maxDigits) ∧
    (parseWithin 9 "let @ f(1 2); fn(x) \x7b y").withinLimit ∧
    InOrder [.unexpected .ident ⟨.illegal, "@", ⟨1, 5⟩⟩, .noOperand ⟨.illegal, "@", ⟨1, 5⟩⟩,
      .unexpected .rparen ⟨.int, "2", ⟨1, 11⟩⟩, .noOperand ⟨.rparen, ")", ⟨1, 12⟩⟩,
      .noOperand ⟨.semicolon, ";", ⟨1, 13⟩⟩, .unterminatedBlock ⟨.lbrace, "\x7b", ⟨1, 21⟩⟩] ∧
    ShareToken [.unexpected .ident ⟨.illegal, "@", ⟨1, 5⟩⟩,
      .noOperand ⟨.illegal, "@", ⟨1, 5⟩⟩] ∧
    (parseWithin 9 "let @ f(1 2); fn(x) \x7b y").statements.length + 6 ≤ 14 := by
  have hdigits : ∀ t ∈ tokenize "let @ f(1 2); fn(x) \x7b y", t.kind = .int →
      t.literal.toList.length ≤ maxDigits := by decide +kernel
  have hdeep : (parseWithin 9 "let @ f(1 2); fn(x) \x7b y").withinLimit := by
    decide +kernel
  have hdefects : (parseWithin 9 "let @ f(1 2); fn(x) \x7b y").defects =
      [.unexpected .ident ⟨.illegal, "@", ⟨1, 5⟩⟩, .noOperand ⟨.illegal, "@", ⟨1, 5⟩⟩,
        .unexpected .rparen ⟨.int, "2", ⟨1, 11⟩⟩, .noOperand ⟨.rparen, ")", ⟨1, 12⟩⟩,
        .noOperand ⟨.semicolon, ";", ⟨1, 13⟩⟩,
        .unterminatedBlock ⟨.lbrace, "\x7b", ⟨1, 21⟩⟩] := by
    decide +kernel
  obtain ⟨-, horder, hshare, hlength⟩ := defects_inOrder 9 _ hdigits hdeep
  have htokens : ((tokenize "let @ f(1 2); fn(x) \x7b y").countP fun t => t.kind ≠ .eof) = 14 := by
    decide +kernel
  rw [hdefects, htokens] at hlength
  rw [hdefects] at horder hshare
  exact ⟨hdigits, hdeep, horder, hshare ⟨1, 5⟩, hlength⟩

end MonkeySyntax
