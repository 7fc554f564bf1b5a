import MonkeySyntax.Proofs.Earliest
import MonkeySyntax.Proofs.Settling

/-!
# What the defects of a text account for

The tokens of a text, the end of the text among them, are accounted for from the front to the back:
a statement takes tokens that are in order, and so does a defect up to the token at which it shows.
A token that is found in the place of another one stays, and the next attempt begins with it. Any
other token at which a defect shows is convicted, and reading goes on behind it. So a token that no
statement can hold is reported once, whatever stands around it, and the defects come in the order
of the text.
-/

namespace MonkeySyntax

open Production

def Token.isOutOfRange (t : Token) : Bool :=
  t.kind = .int && maxInteger < decimalValue t.literal.toList

def Token.isIllegal (t : Token) : Bool :=
  t.kind = .illegal

namespace Defect

def isOutOfRange : Defect → Bool
  | .integerOutOfRange _ => true
  | _ => false

def isIllegal : Defect → Bool
  | .noOperand t => t.isIllegal
  | _ => false

/-- Whether a defect shows at a token behind which reading goes on. -/
def Convicts (e : Defect) (t : Token) : Prop :=
  e = .noOperand t ∧ ¬t.kind.StartsExpression ∨
    e = .integerOutOfRange t ∧ t.isOutOfRange ∧ t.literal.toList.length ≤ maxDigits

/-- Whether a defect shows where the text ends, at `t`, behind the tokens `us`. -/
def Closes (e : Defect) (us : List Token) (t : Token) : Prop :=
  (∃ k, e = .unexpected k t) ∨ e = .noOperand t ∨ ∃ b ∈ us.tail, e = .unterminatedBlock b

end Defect

/-- Statements and defects account for the tokens of a text up to its end. -/
inductive Accounts : List Token → List Node → List Defect → Prop
  | finish {t : Token} (ht : t.kind = .eof) : Accounts [t] [] []
  | statement {us ts : List Token} {s : Node} {ss : List Node} {es : List Defect} (hne : us ≠ [])
      (hus : ∀ t ∈ us, t.IsSettled) (h : Accounts ts ss es) : Accounts (us ++ ts) (s :: ss) es
  -- the token that is found where another one has to stand is looked at once more
  | unexpected {us ts : List Token} {t : Token} {k : Kind} {ss : List Node} {es : List Defect}
      (hne : us ≠ []) (hus : ∀ t ∈ us, t.IsSettled) (ht : t.kind ≠ .eof)
      (h : Accounts (t :: ts) ss es) : Accounts (us ++ t :: ts) ss (.unexpected k t :: es)
  | convicted {us ts : List Token} {t : Token} {e : Defect} {ss : List Node} {es : List Defect}
      (hus : ∀ t ∈ us, t.IsSettled) (ht : t.kind ≠ .eof) (he : e.Convicts t)
      (h : Accounts ts ss es) : Accounts (us ++ t :: ts) ss (e :: es)
  | last {us : List Token} {t : Token} {e : Defect} (hne : us ≠ []) (hus : ∀ t ∈ us, t.IsSettled)
      (ht : t.kind = .eof) (he : e.Closes us t) : Accounts (us ++ [t]) [] [e]

section

variable {c d : Cursor} {limit : Nat} {e : Defect}

theorem current_of_rest_eq_nil (h : c.rest = []) : c.current = .finish c.stop := by
  unfold Cursor.current
  rw [h]
  rfl

/-- What is taken by a step behind a place that is reached is not nothing. -/
theorem Cursor.Reaches.ne_nil (h : c.Reaches d) (hc : c.current.kind ≠ .eof) {us : List Token}
    (hrest : c.rest = us ++ d.advance.rest) : us ≠ [] := by
  rintro rfl
  have hlt := h.advance_lt hc
  rw [c.remaining_eq, d.advance.remaining_eq, hrest] at hlt
  exact Nat.lt_irrefl _ hlt

/-- Where no statement starts, the first token is what is reported. -/
theorem defect_of_not_startsStatement (hc : ¬c.current.kind.StartsStatement)
    (h : statementWithin .standard limit c = .error (.defect e) d) :
    e = .noOperand c.current ∨ e.isNesting := by
  unfold statementWithin at h
  rw [statement_of_expression (fun hlet => hc (Or.inl hlet))
    (fun hreturn => hc (Or.inr (Or.inl hreturn)))] at h
  unfold expressionStatement at h
  rw [current_bind] at h
  cases limit with
  | zero =>
    cases h
    exact Or.inr rfl
  | succ limit =>
    have hoperand : operand (within limit) .standard c =
        .error (.defect (.noOperand c.current)) c := by
      rw [operand_eq]
      exact if_neg fun hstarts => hc (Or.inr (Or.inr hstarts))
    have hexpression : within (limit + 1) Precedence.lowest.level c =
        .error (.defect (.noOperand c.current)) c := bind_of_error hoperand
    rw [bind_of_error hexpression] at h
    cases h
    exact Or.inl rfl

/-- A defect at the current token accounts for the tokens up to that one. -/
theorem Accounts.of_current {us : List Token} {ss : List Node} {es : List Defect}
    (hus : ∀ t ∈ us, t.IsSettled) (hkind : d.current.kind ≠ .eof) (he : e.Convicts d.current)
    (hrest : c.rest = us ++ d.rest)
    (hmore : Accounts (d.advance.rest ++ [.finish c.stop]) ss es) :
    Accounts (c.rest ++ [.finish c.stop]) ss (e :: es) := by
  have hsplit : c.rest ++ [.finish c.stop] =
      us ++ d.current :: (d.advance.rest ++ [.finish c.stop]) := by
    rw [hrest, rest_eq_cons hkind, List.append_assoc]
    rfl
  rw [hsplit]
  exact Accounts.convicted hus hkind he hmore

/-- A defect that shows where nothing is left accounts for all tokens. -/
theorem Accounts.of_end {us : List Token} (hreach : c.Reaches d) (hc : c.current.kind ≠ .eof)
    (hus : ∀ t ∈ us, t.IsSettled) (hrest : c.rest = us ++ d.rest) (hnil : d.rest = [])
    (he : e.Closes us (.finish c.stop)) : Accounts (c.rest ++ [.finish c.stop]) [] [e] := by
  have hbehind : d.advance.rest = d.rest := by
    rw [hnil]
    exact congrArg List.tail hnil
  have hne : us ≠ [] := hreach.ne_nil hc (by rw [hrest, hbehind])
  rw [hrest, hnil, List.append_nil]
  exact Accounts.last hne hus rfl he

/-- A defect at the token ahead accounts for the tokens in front of that one. -/
theorem Accounts.of_peek {us : List Token} {k : Kind} {ss : List Node} {es : List Defect}
    (hreach : c.Reaches d) (hc : c.current.kind ≠ .eof) (hkind : ∀ t ∈ d.rest, t.kind ≠ .eof)
    (hus : ∀ t ∈ us, t.IsSettled) (hrest : c.rest = us ++ d.advance.rest)
    (hmore : Accounts (d.advance.rest ++ [.finish c.stop]) ss es)
    (hend : d.advance.rest = [] → ss = [] ∧ es = []) :
    Accounts (c.rest ++ [.finish c.stop]) ss (.unexpected k d.peek :: es) := by
  have hne : us ≠ [] := hreach.ne_nil hc hrest
  have hpeek : d.peek = d.advance.rest.headD (.finish c.stop) := by
    rw [← hreach.stop]
    rfl
  rw [hrest, hpeek]
  have htail : ∀ t ∈ d.advance.rest, t.kind ≠ .eof := fun t ht =>
    hkind t (List.mem_of_mem_tail ht)
  revert hmore hend htail
  generalize d.advance.rest = ts
  intro hmore hend htail
  cases ts with
  | nil =>
    obtain ⟨rfl, rfl⟩ := hend rfl
    rw [List.append_nil]
    exact Accounts.last hne hus rfl (Or.inl ⟨k, rfl⟩)
  | cons t ts =>
    rw [List.append_assoc]
    exact Accounts.unexpected hne hus (htail t List.mem_cons_self) hmore

/-- A defect accounts for the tokens up to the one at which it shows. -/
theorem Accounts.of_error (hlexical : ∀ t ∈ c.rest, t.IsLexical) (hc : c.current.kind ≠ .eof)
    (h : statementWithin .standard limit c = .error (.defect e) d) (he : ¬e.isNesting)
    {ss : List Node} {es : List Defect}
    (hmore : Accounts (d.advance.rest ++ [.finish c.stop]) ss es)
    (hend : d.advance.rest = [] → ss = [] ∧ es = []) :
    Accounts (c.rest ++ [.finish c.stop]) ss (e :: es) := by
  have hreach : c.Reaches d := ((forward_statementWithin .standard limit).error h).1
  have hsettled := settled_statementWithin limit c
  rw [h] at hsettled
  obtain ⟨⟨us, hrest, hus⟩, hdue, hblock⟩ := hsettled
  have hlexical' : ∀ t ∈ d.rest, t.IsLexical := fun t ht => hlexical t (hreach.suffix.mem ht)
  have hkind : ∀ t ∈ d.rest, t.kind ≠ .eof := fun t ht => (hlexical' t ht).kind_ne_eof
  have hlast (hnil : d.rest = []) (hrest : c.rest = us ++ d.rest)
      (hcloses : e.Closes us (.finish c.stop)) :
      Accounts (c.rest ++ [.finish c.stop]) ss (e :: es) := by
    obtain ⟨rfl, rfl⟩ := hend (congrArg List.tail hnil)
    exact Accounts.of_end hreach hc hus hrest hnil hcloses
  cases e with
  | unexpected k t =>
    obtain rfl : t = d.peek := hdue
    refine Accounts.of_peek hreach hc hkind hus ?_ hmore hend
    rw [hrest]
    exact congrArg (us ++ ·) (List.drop_one ..)
  | noOperand t =>
    obtain ⟨rfl, hstarts⟩ := hdue
    by_cases heof : d.current.kind = .eof
    · have hnil : d.rest = [] := (current_eq_eof_iff hkind).1 heof
      refine hlast hnil hrest (Or.inr (Or.inl ?_))
      rw [current_of_rest_eq_nil hnil, hreach.stop]
    · exact Accounts.of_current hus heof (Or.inl ⟨rfl, hstarts⟩) hrest hmore
  | unterminatedBlock b =>
    obtain ⟨heof, hbrace⟩ := hdue
    have hnil : d.rest = [] := (current_eq_eof_iff hkind).1 heof
    refine hlast hnil hrest (Or.inr (Or.inr ⟨b, ?_, rfl⟩))
    -- no statement starts with a brace, so the brace is not the first token
    have hb : b ≠ c.current := by
      rintro rfl
      have hstarts : ¬c.current.kind.StartsStatement := by
        rw [hbrace]
        decide
      rcases defect_of_not_startsStatement hstarts h with heq | hnesting
      · cases heq
      · cases hnesting
    have hmem : b ∈ c.rest := hblock b rfl
    rw [rest_eq_cons hc] at hmem
    have hus' : c.rest.tail = us.tail := by
      have hrest' : c.rest = us ++ d.rest := hrest
      rw [hrest', hnil, List.append_nil]
    rw [← hus']
    exact (List.mem_cons.1 hmem).resolve_left hb
  | malformedInteger t =>
    obtain ⟨rfl, hint, hdigits⟩ := hdue
    have hmem : d.current ∈ d.rest := current_mem_rest (by rw [hint]; decide)
    have hlexical : Lexical .int d.current.literal.toList := hint ▸ hlexical' _ hmem
    exact absurd hlexical.digits hdigits
  | integerOutOfRange t =>
    obtain ⟨rfl, hint, hlength, hvalue⟩ := hdue
    refine Accounts.of_current hus (by rw [hint]; decide) (Or.inr ⟨rfl, ?_, hlength⟩) hrest hmore
    unfold Token.isOutOfRange
    rw [hint, decide_eq_true hvalue]
    rfl
  | nestedTooDeeply t => exact absurd rfl he

/-- What is read to the end without a limit accounts for all tokens. -/
theorem accounts_of_runFrom (hlexical : ∀ t ∈ c.rest, t.IsLexical)
    (hdeep : (runFrom (statementWithin .standard limit) c).withinLimit)
    (hoversized : (runFrom (statementWithin .standard limit) c).oversized = none) :
    Accounts (c.rest ++ [.finish c.stop]) (runFrom (statementWithin .standard limit) c).statements
      (runFrom (statementWithin .standard limit) c).defects := by
  have hforward := forward_statementWithin .standard limit
  fun_induction runFrom (statementWithin .standard limit) c with
  | case1 c heof =>
    have hnil : c.rest = [] :=
      (current_eq_eof_iff fun t ht => (hlexical t ht).kind_ne_eof).1 heof
    rw [hnil]
    exact Accounts.finish rfl
  | case2 c heof n c' hattempt => cases hoversized
  | case3 c heof o c' hattempt hlt ih =>
    have hreach := reaches_of_attempt hforward hattempt
    have hlexical' : ∀ t ∈ c'.rest, t.IsLexical := fun t ht => hlexical t (hreach.suffix.mem ht)
    cases o with
    | ok s =>
      obtain ⟨d, hs, rfl⟩ := attempt_ok hattempt
      -- what a statement passes is in order, and the defect is found by the rest
      have hsettled := settled_statementWithin limit c
      rw [hs] at hsettled
      obtain ⟨us, hrest, hus⟩ := hsettled
      have hne : us ≠ [] := (hforward.ok hs).ne_nil heof hrest
      have hmore := ih hlexical' hdeep hoversized
      rw [hrest, List.append_assoc]
      rw [hreach.stop] at hmore
      exact Accounts.statement hne hus hmore
    | error e =>
      obtain ⟨d, hs, hd⟩ := attempt_error hattempt
      have he : ¬e.isNesting := Run.withinLimit_iff.1 hdeep e List.mem_cons_self
      rw [if_neg he] at hd
      subst hd
      have hmore := ih hlexical' (Run.withinLimit_of_cons hdeep) hoversized
      rw [hreach.stop] at hmore
      refine Accounts.of_error hlexical heof hs he hmore fun hnil => ?_
      rw [runFrom_of_eof (by rw [current_of_rest_eq_nil hnil]; rfl)]
      exact ⟨rfl, rfl⟩
  | case4 c heof o c' hattempt hlt => exact absurd (attempt_lt hforward heof hattempt) hlt

end

/-- What is read of a whole text without a limit accounts for its tokens. -/
theorem accounts_of_parse {limit : Nat} {source : String}
    (hdeep : (parseWithin limit source).withinLimit)
    (hoversized : (parseWithin limit source).oversized = none) :
    Accounts (tokenize source) (parseWithin limit source).statements
      (parseWithin limit source).defects :=
  accounts_of_runFrom (fun _ ht => isLexical_of_mem_lex ht) hdeep hoversized

theorem Token.IsSettled.not_isOutOfRange {t : Token} (h : t.IsSettled) :
    t.isOutOfRange = false := by
  unfold Token.isOutOfRange
  by_cases hint : t.kind = .int
  · rw [decide_eq_false (Nat.not_lt.2 (h.value_le hint)), Bool.and_false]
  · rw [decide_eq_false hint, Bool.false_and]

/-- Whether the defects of one sort report the tokens of one sort, each in its own words. -/
structure Reports (q : Defect → Bool) (p : Token → Bool) (f : Token → Defect) : Prop where
  settled : ∀ t, t.IsSettled → p t = false
  unexpected : ∀ k t, q (.unexpected k t) = false
  closes : ∀ e us t, e.Closes us t → t.kind = .eof → q e = false
  convicts : ∀ e t, e.Convicts t → q e = p t ∧ (p t = true → e = f t)

/-- Every token of the sort is reported once, in the order of the text. -/
theorem Accounts.filter_eq {q : Defect → Bool} {p : Token → Bool} {f : Token → Defect}
    {ts : List Token} {ss : List Node} {es : List Defect} (h : Accounts ts ss es)
    (hreports : Reports q p f) : es.filter q = (ts.filter p).map f := by
  have hsettled {us : List Token} (hus : ∀ t ∈ us, t.IsSettled) : us.filter p = [] :=
    List.filter_eq_nil_iff.2 fun t ht => Bool.eq_false_iff.1 (hreports.settled t (hus t ht))
  have heof {t : Token} (ht : t.kind = .eof) : p t = false :=
    hreports.settled t (Token.isSettled_of_isPlain (by rw [ht]; decide))
  induction h with
  | finish ht => rw [List.filter_cons_of_neg (Bool.eq_false_iff.1 (heof ht))]; rfl
  | statement hne hus h ih => rw [List.filter_append, hsettled hus, ih, List.nil_append]
  | unexpected hne hus ht h ih =>
    rw [List.filter_cons_of_neg (Bool.eq_false_iff.1 (hreports.unexpected _ _)),
      List.filter_append, hsettled hus, ih, List.nil_append]
  | @convicted us ts t e ss es hus ht he h ih =>
    obtain ⟨heq, hword⟩ := hreports.convicts e t he
    -- the convicted token is of the sort just when its defect is
    rw [List.filter_append, hsettled hus, List.nil_append]
    cases hp : p t with
    | true =>
      rw [List.filter_cons_of_pos (heq.trans hp), List.filter_cons_of_pos hp, ih, hword hp]
      rfl
    | false =>
      rw [List.filter_cons_of_neg (Bool.eq_false_iff.1 (heq.trans hp)),
        List.filter_cons_of_neg (Bool.eq_false_iff.1 hp), ih]
  | last hne hus ht he =>
    rw [List.filter_cons_of_neg (Bool.eq_false_iff.1 (hreports.closes _ _ _ he ht)),
      List.filter_append, hsettled hus,
      List.filter_cons_of_neg (Bool.eq_false_iff.1 (heof ht))]
    rfl

/-- No statement passes an integer out of range, and the defect that reports it shows at it. -/
theorem reports_outOfRange :
    Reports Defect.isOutOfRange Token.isOutOfRange .integerOutOfRange where
  settled := fun _ ht => ht.not_isOutOfRange
  unexpected := fun _ _ => rfl
  closes := by
    rintro e us t (⟨k, rfl⟩ | rfl | ⟨b, -, rfl⟩) - <;> rfl
  convicts := by
    rintro e t (⟨rfl, hstarts⟩ | ⟨rfl, hrange, -⟩)
    · have hint : t.kind ≠ .int := by
        intro hint
        rw [hint] at hstarts
        exact hstarts (by decide)
      have hrange : t.isOutOfRange = false := by
        unfold Token.isOutOfRange
        rw [decide_eq_false hint, Bool.false_and]
      rw [hrange]
      exact ⟨rfl, fun h => absurd h Bool.false_ne_true⟩
    · rw [hrange]
      exact ⟨rfl, fun _ => rfl⟩

/-- No statement passes a token that fits no rule, and what reports it is that it starts no
expression. -/
theorem reports_illegal : Reports Defect.isIllegal Token.isIllegal .noOperand where
  settled := fun _ ht => decide_eq_false ht.ne_illegal
  unexpected := fun _ _ => rfl
  closes := by
    rintro e us t (⟨k, rfl⟩ | rfl | ⟨b, -, rfl⟩) ht
    · rfl
    · exact decide_eq_false (by rw [ht]; decide)
    · rfl
  convicts := by
    rintro e t (⟨rfl, -⟩ | ⟨rfl, hrange, -⟩)
    · exact ⟨rfl, fun _ => rfl⟩
    · have hillegal : t.isIllegal = false := by
        refine decide_eq_false fun hillegal => ?_
        unfold Token.isOutOfRange at hrange
        rw [hillegal] at hrange
        exact absurd hrange Bool.false_ne_true
      rw [hillegal]
      exact ⟨rfl, fun h => absurd h Bool.false_ne_true⟩

/-- All integers that are accounted for can be converted. -/
theorem Accounts.length_le {ts : List Token} {ss : List Node} {es : List Defect}
    (h : Accounts ts ss es) : ∀ t ∈ ts, t.kind = .int → t.literal.toList.length ≤ maxDigits := by
  induction h with
  | finish ht =>
    intro u hu hint
    rw [List.mem_singleton.1 hu, ht] at hint
    cases hint
  | statement hne hus h ih | unexpected hne hus ht h ih =>
    intro u hu hint
    rcases List.mem_append.1 hu with hu | hu
    · exact (hus u hu).length_le hint
    · exact ih u hu hint
  | convicted hus ht he h ih =>
    intro u hu hint
    rcases List.mem_append.1 hu with hu | hu
    · exact (hus u hu).length_le hint
    rcases List.mem_cons.1 hu with rfl | hu
    · -- an integer is only convicted for its value, which was found
      rcases he with ⟨-, hstarts⟩ | ⟨-, -, hlength⟩
      · rw [hint] at hstarts
        exact absurd (by decide) hstarts
      · exact hlength
    · exact ih u hu hint
  | last hne hus ht he =>
    intro u hu hint
    rcases List.mem_append.1 hu with hu | hu
    · exact (hus u hu).length_le hint
    · rw [List.mem_singleton.1 hu, ht] at hint
      cases hint

/-- Reading fails as a whole exactly if an integer is too long to be converted. If it does not, the
integers that are too great and the tokens that fit no rule are reported one by one. -/
theorem bad_tokens_reported (limit : Nat) (source : String)
    (hdeep : (parseWithin limit source).withinLimit) :
    ((parseWithin limit source).oversized.isSome ↔
      ∃ t ∈ tokenize source, t.kind = .int ∧ maxDigits < t.literal.toList.length) ∧
    ((parseWithin limit source).oversized = none →
      (parseWithin limit source).defects.filter Defect.isOutOfRange =
        ((tokenize source).filter Token.isOutOfRange).map .integerOutOfRange ∧
      (parseWithin limit source).defects.filter Defect.isIllegal =
        ((tokenize source).filter Token.isIllegal).map .noOperand) := by
  refine ⟨⟨fun h => ?_, ?_⟩, fun h => ?_⟩
  · obtain ⟨n, hn⟩ := Option.isSome_iff_exists.1 h
    obtain ⟨t, ht, hint, hlength, hlt⟩ :=
      isAhead_of_oversized (forward_statementWithin .standard limit) hn n rfl
    exact ⟨t, List.mem_append_left _ ht, hint, by rw [hlength]; exact hlt⟩
  · rintro ⟨t, ht, hint, hlt⟩
    rw [Option.isSome_iff_ne_none]
    intro h
    exact absurd ((accounts_of_parse hdeep h).length_le t ht hint) (Nat.not_le.2 hlt)
  · have haccounts := accounts_of_parse hdeep h
    exact ⟨haccounts.filter_eq reports_outOfRange, haccounts.filter_eq reports_illegal⟩

/-- Two integers out of range and two marks that fit no rule, one of them behind an unfinished
call, and all four are reported. -/
theorem bad_tokens_reported_of_four :
    (parseWithin 9 "f(1 @ 18446744073709551616 + ) let # 36893488147419103232;").withinLimit ∧
    (parseWithin 9 "f(1 @ 18446744073709551616 + ) let # 36893488147419103232;").oversized = none ∧
    (parseWithin 9 "f(1 @ 18446744073709551616 + ) let # 36893488147419103232;").defects.filter
        Defect.isOutOfRange =
      [.integerOutOfRange ⟨.int, "18446744073709551616", ⟨1, 7⟩⟩,
        .integerOutOfRange ⟨.int, "36893488147419103232", ⟨1, 38⟩⟩] ∧
    (parseWithin 9 "f(1 @ 18446744073709551616 + ) let # 36893488147419103232;").defects.filter
        Defect.isIllegal =
      [.noOperand ⟨.illegal, "@", ⟨1, 5⟩⟩, .noOperand ⟨.illegal, "#", ⟨1, 36⟩⟩] := by
  have hdeep :
      (parseWithin 9 "f(1 @ 18446744073709551616 + ) let # 36893488147419103232;").withinLimit := by
    decide +kernel
  have hoversized :
      (parseWithin 9 "f(1 @ 18446744073709551616 + ) let # 36893488147419103232;").oversized =
        none := by
    decide +kernel
  obtain ⟨hrange, hillegal⟩ := (bad_tokens_reported 9 _ hdeep).2 hoversized
  exact ⟨hdeep, hoversized, hrange.trans (by decide +kernel), hillegal.trans (by decide +kernel)⟩

end MonkeySyntax
