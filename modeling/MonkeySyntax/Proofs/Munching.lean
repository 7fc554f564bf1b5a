import MonkeySyntax.Proofs.Gaps

/-!
# The longest lexeme at the front of a text

The lexical grammar says of rows of characters whether they are lexemes. It says nothing of how a
text is searched for them: behind the layout, the longest row at the front of the text that is a
lexeme becomes a token, and where there is none the first character does. This rule has one outcome
for every text, and it is the one that scanning by the first character comes to.
-/

namespace MonkeySyntax

def IsWord (cs : List Char) : Prop :=
  cs ≠ [] ∧ ∀ c ∈ cs, 'a' ≤ c ∧ c ≤ 'z' ∨ 'A' ≤ c ∧ c ≤ 'Z' ∨ c = '_'

def IsDigits (cs : List Char) : Prop :=
  cs ≠ [] ∧ ∀ c ∈ cs, '0' ≤ c ∧ c ≤ '9'

inductive IsLexeme : List Char → Kind → Prop
  | reserved {cs : List Char} {k : Kind} (hcs : IsWord cs)
      (hk : (String.ofList cs, k) ∈ Kind.words) : IsLexeme cs k
  | name {cs : List Char} (hcs : IsWord cs) (hk : ∀ k, (String.ofList cs, k) ∉ Kind.words) :
      IsLexeme cs .ident
  | numeral {cs : List Char} (hcs : IsDigits cs) : IsLexeme cs .int
  | symbol {cs : List Char} {k : Kind} (hk : (String.ofList cs, k) ∈ Kind.symbols) : IsLexeme cs k

/-- A lexeme at the front of a text that is longer than no other one. -/
structure IsLongest (l : List Char) (k : Kind) (cs : List Char) : Prop where
  front : l <+: cs
  isLexeme : IsLexeme l k
  length_le : ∀ l' k', l' <+: cs → IsLexeme l' k' → l'.length ≤ l.length

/-- Tokens are taken from the front of a text that starts at `p`, the longest lexeme first. No
lexeme starts with layout, so all layout in front of one belongs to the gap. -/
inductive Munches : Position → List Char → List Token → Prop
  | finish {p : Position} {ws : List Char} (hws : IsGap ws) : Munches p ws [.finish (p.past ws)]
  | lexeme {p : Position} {ws l rest : List Char} {k : Kind} {ts : List Token} (hws : IsGap ws)
      (hl : IsLongest l k (l ++ rest)) (hts : Munches (p.past (ws ++ l)) rest ts) :
      Munches p (ws ++ (l ++ rest)) (⟨k, String.ofList l, p.past ws⟩ :: ts)
  | illegal {p : Position} {ws : List Char} {c : Char} {rest : List Char} {ts : List Token}
      (hws : IsGap ws) (hc : ¬IsGap [c]) (hnone : ∀ l k, l <+: c :: rest → ¬IsLexeme l k)
      (hts : Munches (p.past (ws ++ [c])) rest ts) :
      Munches p (ws ++ c :: rest) (⟨.illegal, String.ofList [c], p.past ws⟩ :: ts)

theorem isLetter_iff {c : Char} :
    isLetter c = true ↔ 'a' ≤ c ∧ c ≤ 'z' ∨ 'A' ≤ c ∧ c ≤ 'Z' ∨ c = '_' := by
  simp [isLetter, isAlpha_eq, Char.le_def, or_assoc, or_comm]

theorem isDigit_iff {c : Char} : c.isDigit = true ↔ '0' ≤ c ∧ c ≤ '9' := by
  simp [Char.isDigit, Char.le_def]

theorem occursIn_singleton (c : Char) (text : List Char) :
    occursIn [c] text = text.contains c := by
  induction text with
  | nil => rfl
  | cons d text ih =>
    rw [occursIn, ih, List.contains_cons]
    simp [List.isPrefixOf]

theorem mem_alphabet_iff {c : Char} : c ∈ alphabet.toList ↔ c.isAlpha = true := by
  -- both are about ASCII characters only, and there are few of these
  have hascii : c ∈ alphabet.toList ∨ c.isAlpha = true → c.toNat < 128 := by
    rintro (hmem | halpha)
    · have hall : alphabet.toList.all (fun d => decide (d.toNat < 128)) = true := by
        decide +kernel
      exact of_decide_eq_true (List.all_eq_true.1 hall c hmem)
    · simp [isAlpha_eq, UInt32.le_iff_toNat_le] at halpha
      omega
  have hall : ∀ n < 128, (Char.ofNat n ∈ alphabet.toList ↔ (Char.ofNat n).isAlpha = true) := by
    decide +kernel
  by_cases hc : c.toNat < 128
  · have hiff := hall c.toNat hc
    rwa [Char.ofNat_toNat] at hiff
  · exact ⟨fun h => absurd (hascii (Or.inl h)) hc, fun h => absurd (hascii (Or.inr h)) hc⟩

/-- On a text of one character the test for letters is the one that words are made of. -/
theorem isLetterText_singleton (c : Char) : isLetterText (String.singleton c) = isLetter c := by
  have halphabet : alphabet.toList.contains c = c.isAlpha :=
    Bool.eq_iff_iff.2 (List.contains_iff_mem.trans mem_alphabet_iff)
  have hunderscore : (String.singleton c == "_") = (c == '_') :=
    Bool.eq_iff_iff.2 (by simp [← String.toList_inj])
  have hne : (String.singleton c != "") = true := by simp [← String.toList_inj]
  rw [isLetterText, String.toList_singleton, occursIn_singleton, halphabet, hunderscore, hne,
    Bool.true_and, isLetter]

theorem singleton_lt_singleton_iff {c d : Char} :
    String.singleton c < String.singleton d ↔ c < d := by
  rw [String.lt_iff, String.toList_singleton, String.toList_singleton, List.cons_lt_cons_iff]
  simp

/-- On a text of one character the test for digits is the one that numerals are made of. -/
theorem isDigitText_singleton (c : Char) : isDigitText (String.singleton c) = c.isDigit := by
  have hzero : "0" = String.singleton '0' := by decide
  have hnine : "9" = String.singleton '9' := by decide
  have hne : (String.singleton c != "") = true := by simp [← String.toList_inj]
  apply Bool.eq_iff_iff.2
  simp only [isDigitText, hne, hzero, hnine, Bool.true_and, Bool.and_eq_true, Bool.not_eq_true',
    decide_eq_false_iff_not, singleton_lt_singleton_iff, Char.not_lt, isDigit_iff]

theorem Kind.ofWord_of_mem {s : String} {k : Kind} (h : (s, k) ∈ Kind.words) :
    Kind.ofWord s = k := by
  have hall : ∀ w ∈ Kind.words, Kind.ofWord w.1 = w.2 := by decide
  exact hall _ h

theorem Kind.ofSymbol?_eq_some_iff {s : String} {k : Kind} :
    Kind.ofSymbol? s = some k ↔ (s, k) ∈ Kind.symbols := by
  have hall : ∀ s ∈ Kind.symbols, Kind.ofSymbol? s.1 = some s.2 := by decide
  exact ⟨Kind.mem_symbols, fun h => hall _ h⟩

theorem Kind.length_le_of_mem_symbols {s : String} {k : Kind} (h : (s, k) ∈ Kind.symbols) :
    s.toList.length ≤ Kind.maxSymbolLength := by
  have hall : ∀ s ∈ Kind.symbols, s.1.toList.length ≤ Kind.maxSymbolLength := by decide
  exact hall _ h

/-- The rules of the lexical grammar exclude each other by the first character. -/
theorem isLexeme_cons_iff {c : Char} {l : List Char} {k : Kind} : IsLexeme (c :: l) k ↔
    (∀ x ∈ c :: l, isLetter x = true) ∧ Kind.ofWord (String.ofList (c :: l)) = k ∨
      (∀ x ∈ c :: l, x.isDigit = true) ∧ k = .int ∨
      isMark c = true ∧ Kind.ofSymbol? (String.ofList (c :: l)) = some k := by
  constructor
  · intro h
    cases h with
    | reserved hcs hk =>
      exact Or.inl ⟨fun x hx => isLetter_iff.2 (hcs.2 x hx), Kind.ofWord_of_mem hk⟩
    | name hcs hk =>
      refine Or.inl ⟨fun x hx => isLetter_iff.2 (hcs.2 x hx), ?_⟩
      exact (Kind.ofWord_cases _).resolve_right (hk _)
    | numeral hcs => exact Or.inr (Or.inl ⟨fun x hx => isDigit_iff.2 (hcs.2 x hx), rfl⟩)
    | symbol hk =>
      refine Or.inr (Or.inr ⟨?_, Kind.ofSymbol?_eq_some_iff.2 hk⟩)
      obtain ⟨d, hd, hcs | hcs⟩ := Kind.symbols_shape hk <;>
      · rw [String.toList_ofList] at hcs
        cases hcs
        exact hd
  · rintro (⟨hletters, rfl⟩ | ⟨hdigits, rfl⟩ | ⟨-, hk⟩)
    · have hword : IsWord (c :: l) :=
        ⟨List.cons_ne_nil _ _, fun x hx => isLetter_iff.1 (hletters x hx)⟩
      by_cases hreserved : ∃ k, (String.ofList (c :: l), k) ∈ Kind.words
      · obtain ⟨k, hk⟩ := hreserved
        rw [Kind.ofWord_of_mem hk]
        exact IsLexeme.reserved hword hk
      · rw [(Kind.ofWord_cases _).resolve_right fun hk => hreserved ⟨_, hk⟩]
        exact IsLexeme.name hword fun k hk => hreserved ⟨k, hk⟩
    · exact IsLexeme.numeral
        ⟨List.cons_ne_nil _ _, fun x hx => isDigit_iff.1 (hdigits x hx)⟩
    · exact IsLexeme.symbol (Kind.ofSymbol?_eq_some_iff.1 hk)

section

variable {c : Char} {l : List Char} {k : Kind}

theorem isLexeme_of_isLetter (hc : isLetter c = true) : IsLexeme (c :: l) k ↔
    (∀ x ∈ c :: l, isLetter x = true) ∧ Kind.ofWord (String.ofList (c :: l)) = k := by
  rw [isLexeme_cons_iff]
  refine or_iff_left ?_
  rintro (⟨hdigits, -⟩ | ⟨hmark, -⟩)
  · have hdigit := hdigits c List.mem_cons_self
    rw [not_isLetter_of_isDigit hdigit] at hc
    cases hc
  · rw [(isMark_iff.1 hmark).1] at hc
    cases hc

theorem isLexeme_of_isDigit (hc : c.isDigit = true) : IsLexeme (c :: l) k ↔
    (∀ x ∈ c :: l, x.isDigit = true) ∧ k = .int := by
  have hletter := not_isLetter_of_isDigit hc
  rw [isLexeme_cons_iff, or_iff_right, or_iff_left]
  · rintro ⟨hmark, -⟩
    rw [(isMark_iff.1 hmark).2.1] at hc
    cases hc
  · rintro ⟨hletters, -⟩
    rw [hletters c List.mem_cons_self] at hletter
    cases hletter

theorem isLexeme_of_isMark (hc : isMark c = true) : IsLexeme (c :: l) k ↔
    Kind.ofSymbol? (String.ofList (c :: l)) = some k := by
  obtain ⟨hletter, hdigit, -⟩ := isMark_iff.1 hc
  rw [isLexeme_cons_iff, or_iff_right, or_iff_right, and_iff_right hc]
  · rintro ⟨hdigits, -⟩
    rw [hdigits c List.mem_cons_self] at hdigit
    cases hdigit
  · rintro ⟨hletters, -⟩
    rw [hletters c List.mem_cons_self] at hletter
    cases hletter

/-- A lexeme starts with a letter, a digit or a mark, and so with no layout. -/
theorem IsLexeme.exists_head {cs : List Char} (h : IsLexeme cs k) : ∃ c l, cs = c :: l ∧
    isLayout c = false ∧ (isLetter c = true ∨ c.isDigit = true ∨ isMark c = true) := by
  cases cs with
  | nil =>
    cases h with
    | reserved hcs | name hcs | numeral hcs => exact absurd rfl hcs.1
    | symbol hk => obtain ⟨c, -, hcs | hcs⟩ := Kind.symbols_shape hk <;> cases hcs
  | cons c l =>
    refine ⟨c, l, rfl, ?_⟩
    rcases isLexeme_cons_iff.1 h with ⟨hletters, -⟩ | ⟨hdigits, -⟩ | ⟨hmark, -⟩
    · have hletter := hletters c List.mem_cons_self
      exact ⟨not_isLayout_of_run (Or.inl hletter), Or.inl hletter⟩
    · have hdigit := hdigits c List.mem_cons_self
      exact ⟨not_isLayout_of_run (Or.inr hdigit), Or.inr (Or.inl hdigit)⟩
    · exact ⟨(isMark_iff.1 hmark).2.2, Or.inr (Or.inr hmark)⟩

/-- No row of characters is a lexeme of two kinds. -/
theorem IsLexeme.kind_unique {cs : List Char} {k' : Kind} (h : IsLexeme cs k)
    (h' : IsLexeme cs k') : k = k' := by
  obtain ⟨c, l, rfl, -, hletter | hdigit | hmark⟩ := h.exists_head
  · exact ((isLexeme_of_isLetter hletter).1 h).2.symm.trans ((isLexeme_of_isLetter hletter).1 h').2
  · exact ((isLexeme_of_isDigit hdigit).1 h).2.trans ((isLexeme_of_isDigit hdigit).1 h').2.symm
  · have hk := (isLexeme_of_isMark hmark).1 h
    rw [(isLexeme_of_isMark hmark).1 h'] at hk
    exact (Option.some.inj hk).symm

end

/-- A row of characters at the front of a text that all satisfy a test ends where the run of such
characters does, or before. -/
theorem length_le_takeWhile {p : Char → Bool} {l cs : List Char} (hl : l <+: cs)
    (hp : ∀ x ∈ l, p x = true) : l.length ≤ (cs.takeWhile p).length := by
  obtain ⟨rest, rfl⟩ := hl
  rw [List.takeWhile_append_of_pos hp, List.length_append]
  exact Nat.le_add_right _ _

/-- The search for a symbol of at most `n` characters finds one that is as long as any. -/
theorem exists_longestSymbol? {n : Nat} {l cs : List Char} {k : Kind} (hl : l <+: cs)
    (hk : Kind.ofSymbol? (String.ofList l) = some k) (hn : l.length ≤ n) :
    ∃ x, longestSymbol? n cs = some x ∧ l.length ≤ x.text.length := by
  induction n with
  | zero =>
    obtain rfl := List.length_eq_zero_iff.1 (Nat.le_zero.1 hn)
    have hnone : Kind.ofSymbol? (String.ofList []) = none := by decide
    rw [hnone] at hk
    cases hk
  | succ n ih =>
    unfold longestSymbol?
    cases hfound : Kind.ofSymbol? (String.ofList (cs.take (n + 1))) with
    | some k' =>
      refine ⟨_, rfl, ?_⟩
      change l.length ≤ (cs.take (n + 1)).length
      rw [List.length_take]
      exact Nat.le_min.2 ⟨hn, hl.length_le⟩
    | none =>
      -- a symbol of `n + 1` characters would have been found
      have hne : l.length ≠ n + 1 := by
        intro heq
        rw [← heq, ← List.prefix_iff_eq_take.1 hl, hk] at hfound
        cases hfound
      exact ih (by omega)

/-- At the front of a text that starts with no layout scanning finds the longest lexeme. -/
theorem longest_or_illegal {c : Char} (hc : isLayout c = false) (cs : List Char) :
    IsLongest (lexeme c cs).text (lexeme c cs).kind (c :: cs) ∨
      lexeme c cs = ⟨.illegal, [c], cs⟩ ∧ ∀ l k, l <+: c :: cs → ¬IsLexeme l k := by
  have hfront : (lexeme c cs).text <+: c :: cs := ⟨_, (lexeme_split c cs).1⟩
  -- every lexeme at the front has `c` for its first character
  have hhead {l : List Char} {k : Kind} (hl : l <+: c :: cs) (h : IsLexeme l k) :
      ∃ l', l = c :: l' := by
    obtain ⟨d, l', rfl, -⟩ := h.exists_head
    exact ⟨l', by rw [(List.cons_prefix_cons.1 hl).1]⟩
  by_cases hletter : isLetter c = true
  · -- only words start with a letter, and none is longer than the run of letters
    have hrun := forall_mem_run hletter cs
    rw [lexeme_of_isLetter hletter] at hfront ⊢
    refine Or.inl ⟨hfront, (isLexeme_of_isLetter hletter).2 ⟨hrun, rfl⟩, fun l k hl h => ?_⟩
    obtain ⟨l', rfl⟩ := hhead hl h
    have hle := length_le_takeWhile hl ((isLexeme_of_isLetter hletter).1 h).1
    rwa [List.takeWhile_cons_of_pos hletter] at hle
  by_cases hdigit : c.isDigit = true
  · -- only numerals start with a digit
    have hrun := forall_mem_run hdigit cs
    rw [lexeme_of_isDigit hdigit] at hfront ⊢
    refine Or.inl ⟨hfront, (isLexeme_of_isDigit hdigit).2 ⟨hrun, rfl⟩, fun l k hl h => ?_⟩
    obtain ⟨l', rfl⟩ := hhead hl h
    have hle := length_le_takeWhile hl ((isLexeme_of_isDigit hdigit).1 h).1
    rwa [List.takeWhile_cons_of_pos hdigit] at hle
  -- only symbols start with anything else, and the search tries the longest first
  have hmark : isMark c = true :=
    isMark_iff.2 ⟨Bool.eq_false_iff.2 hletter, Bool.eq_false_iff.2 hdigit, hc⟩
  have hfound {l : List Char} {k : Kind} (hl : l <+: c :: cs) (h : IsLexeme l k) :
      ∃ x, symbol? (c :: cs) = some x ∧ l.length ≤ x.text.length := by
    obtain ⟨l', rfl⟩ := hhead hl h
    have hk := (isLexeme_of_isMark hmark).1 h
    have hle := Kind.length_le_of_mem_symbols (Kind.mem_symbols hk)
    rw [String.toList_ofList] at hle
    exact exists_longestSymbol? hl hk hle
  rw [lexeme_of_isMark hmark] at hfront ⊢
  cases hsymbol : symbol? (c :: cs) with
  | none =>
    refine Or.inr ⟨rfl, fun l k hl h => ?_⟩
    obtain ⟨x, hx, -⟩ := hfound hl h
    rw [hsymbol] at hx
    cases hx
  | some x =>
    rw [hsymbol, Option.getD_some] at hfront
    refine Or.inl ⟨hfront, ?_, fun l k hl h => ?_⟩
    · exact IsLexeme.symbol (Kind.mem_symbols (longestSymbol?_kind hsymbol))
    · obtain ⟨y, hy, hle⟩ := hfound hl h
      rw [hsymbol] at hy
      cases hy
      exact hle

/-- Two lexemes at the front of one text are prefixes of each other, so there is one longest. -/
theorem IsLongest.unique {l l' cs : List Char} {k k' : Kind} (h : IsLongest l k cs)
    (h' : IsLongest l' k' cs) : l = l' ∧ k = k' := by
  have hle : l.length ≤ l'.length := h'.length_le l k h.front h.isLexeme
  have hge : l'.length ≤ l.length := h.length_le l' k' h'.front h'.isLexeme
  obtain rfl : l = l' :=
    (List.prefix_of_prefix_length_le h.front h'.front hle).eq_of_length (Nat.le_antisymm hle hge)
  exact ⟨rfl, h.isLexeme.kind_unique h'.isLexeme⟩

section

variable {p : Position} {cs : List Char} {ts : List Token}

/-- The scan takes the longest lexeme. -/
theorem lex_of_isLongest {l rest : List Char} {k : Kind} (h : IsLongest l k (l ++ rest)) :
    (lex p (l ++ rest)).all = ⟨k, String.ofList l, p⟩ :: (lex (p.past l) rest).all := by
  obtain ⟨c, l', hl, hc, -⟩ := h.isLexeme.exists_head
  have hcons : l ++ rest = c :: (l' ++ rest) := by rw [hl, List.cons_append]
  have hsplit := (lexeme_split c (l' ++ rest)).1
  rw [hcons] at h ⊢
  rcases longest_or_illegal hc (l' ++ rest) with hlongest | ⟨-, hnone⟩
  · obtain ⟨htext, hkind⟩ := hlongest.unique h
    rw [htext, ← hcons] at hsplit
    rw [lex_cons_of_not_isLayout hc, htext, hkind, List.append_cancel_left hsplit]
  · exact absurd h.isLexeme (hnone l k h.front)

/-- The rule comes to nothing else than the scan. -/
theorem Munches.eq_lex (h : Munches p cs ts) : ts = (lex p cs).all := by
  induction h with
  | @finish p ws hws =>
    have hlex := lex_gap hws p []
    rw [List.append_nil] at hlex
    rw [hlex, lex]
    rfl
  | lexeme hws hl hts ih => rw [lex_gap hws, lex_of_isLongest hl, ← Position.past_append, ← ih]
  | @illegal p ws c rest ts hws hc hnone hts ih =>
    have hlayout : isLayout c = false := by
      apply Bool.eq_false_iff.2
      intro hlayout
      exact hc (isGap_cons hlayout isGap_nil)
    rw [lex_gap hws, lex_cons_of_not_isLayout hlayout]
    rcases longest_or_illegal hlayout rest with hlongest | ⟨hlexeme, -⟩
    · exact absurd hlongest.isLexeme (hnone _ _ hlongest.front)
    · rw [hlexeme, ← Position.past_append, ← ih]

theorem Munches.layout_cons {c : Char} (hc : isLayout c = true) (h : Munches (p.next c) cs ts) :
    Munches p (c :: cs) ts := by
  cases h with
  | finish hws => exact Munches.finish (isGap_cons hc hws)
  | lexeme hws hl hts => exact Munches.lexeme (isGap_cons hc hws) hl hts
  | illegal hws hd hnone hts => exact Munches.illegal (isGap_cons hc hws) hd hnone hts

/-- The scan keeps to the rule. -/
theorem munches_lex (p : Position) (cs : List Char) : Munches p cs (lex p cs).all := by
  fun_induction lex p cs with
  | case1 p => exact Munches.finish isGap_nil
  | case2 p c cs hlayout ih => exact ih.layout_cons hlayout
  | case3 p c cs hlayout l behind ih =>
    have hc : isLayout c = false := Bool.eq_false_iff.2 hlayout
    rcases longest_or_illegal hc cs with hlongest | ⟨hlexeme, hnone⟩
    · rw [← (lexeme_split c cs).1] at hlongest
      have h := Munches.lexeme isGap_nil hlongest ih
      rw [List.nil_append, (lexeme_split c cs).1] at h
      exact h
    · have hgap : ¬IsGap [c] := fun hgap =>
        hlayout (isLayout_iff.2 (hgap c List.mem_cons_self))
      have hl : l = ⟨.illegal, [c], cs⟩ := hlexeme
      unfold behind at ih ⊢
      rw [hl] at ih ⊢
      exact Munches.illegal isGap_nil hgap hnone ih

end

/-- The tokens of a text are those that taking the longest lexeme at its front comes to, one after
the other, and no others. -/
theorem munches_iff_tokenize (source : String) (ts : List Token) :
    Munches .start source.toList ts ↔ ts = tokenize source := by
  constructor
  · exact fun h => h.eq_lex
  · rintro rfl
    exact munches_lex _ _

end MonkeySyntax
