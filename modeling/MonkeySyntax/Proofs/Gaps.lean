import Mathlib.Data.List.Induction
import MonkeySyntax.Proofs.Joining

namespace MonkeySyntax

/-- The place behind the characters `cs` by their number: line feeds count lines, and what stands
behind the last one of them counts columns. -/
def Position.counted (p : Position) (cs : List Char) : Position where
  line := p.line + cs.count '\n'
  column :=
    if '\n' ∈ cs then 1 + (cs.reverse.takeWhile (· ≠ '\n')).length else p.column + cs.length

/-- Going over characters one by one leads where counting them leads. -/
theorem Position.past_eq_counted (p : Position) (cs : List Char) : p.past cs = p.counted cs := by
  refine Position.ext (p.line_past cs) ?_
  unfold counted
  dsimp only
  -- the last character decides, so the induction is on the front of the text
  induction cs using List.reverseRecOn with
  | nil => exact (Int.add_zero p.column).symm
  | append_singleton cs c ih =>
    rw [past_append, past_cons, past_nil, List.reverse_append, List.length_append,
      List.length_singleton]
    unfold next
    by_cases hc : c = '\n'
    · subst hc
      rw [if_pos rfl, if_pos (List.mem_append_right cs List.mem_cons_self)]
      rfl
    · have hrun : ([c].reverse ++ cs.reverse).takeWhile (· ≠ '\n') =
          c :: cs.reverse.takeWhile (· ≠ '\n') :=
        List.takeWhile_cons_of_pos (decide_eq_true hc)
      rw [if_neg hc, hrun, ih, List.length_cons]
      by_cases hcs : '\n' ∈ cs
      · rw [if_pos hcs, if_pos (List.mem_append_left [c] hcs)]
        push_cast
        omega
      · have hmem : '\n' ∉ cs ++ [c] := by
          rw [List.mem_append, List.mem_singleton]
          exact fun h => h.elim hcs fun heq => hc heq.symm
        rw [if_neg hcs, if_neg hmem]
        push_cast
        omega

/-- A token with the layout in front of it. -/
structure Spaced where
  gap : List Char
  token : Token

namespace Spaced

def text (s : Spaced) : List Char :=
  s.gap ++ s.token.literal.toList

def textOf (ss : List Spaced) : List Char :=
  ss.flatMap text

@[simp] theorem textOf_nil : textOf [] = [] := rfl

@[simp] theorem textOf_cons (s : Spaced) (ss : List Spaced) :
    textOf (s :: ss) = s.text ++ textOf ss := rfl

end Spaced

def IsGap (cs : List Char) : Prop :=
  ∀ c ∈ cs, c = ' ' ∨ c = '\t' ∨ c = '\n' ∨ c = '\r'

/-- Whether tokens with the layout in front of them make up a text that starts at `p`, and stand
where counting leads. -/
structure MakesUp (p : Position) (cs : List Char) (ss : List Spaced) : Prop where
  text_eq : cs = Spaced.textOf ss
  isGap : ∀ s ∈ ss, IsGap s.gap
  position_eq : ∀ front s back, ss = front ++ s :: back →
    s.token.position = p.counted (Spaced.textOf front ++ s.gap)

theorem isLayout_iff {c : Char} :
    isLayout c = true ↔ c = ' ' ∨ c = '\t' ∨ c = '\n' ∨ c = '\r' := by
  simp [isLayout, or_assoc]

theorem isGap_nil : IsGap [] :=
  fun _ hc => nomatch hc

theorem isGap_cons {c : Char} {cs : List Char} (hc : isLayout c = true) (h : IsGap cs) :
    IsGap (c :: cs) :=
  List.forall_mem_cons.2 ⟨isLayout_iff.1 hc, h⟩

theorem isGap_takeWhile (cs : List Char) : IsGap (cs.takeWhile isLayout) :=
  fun c hc => isLayout_iff.1 (List.all_eq_true.1 List.all_takeWhile c hc)

section

variable {p : Position} {cs : List Char} {s : Spaced} {ss : List Spaced}

theorem makesUp_nil (p : Position) : MakesUp p [] [] where
  text_eq := rfl
  isGap := fun _ hs => nomatch hs
  position_eq := by
    intro front s back hsplit
    cases front <;> cases hsplit

/-- The places behind a token are counted on from the end of the token. -/
theorem MakesUp.cons (hgap : IsGap s.gap)
    (hposition : s.token.position = p.past s.gap) (h : MakesUp (p.past s.text) cs ss) :
    MakesUp p (s.text ++ cs) (s :: ss) where
  text_eq := congrArg (s.text ++ ·) h.text_eq
  isGap := List.forall_mem_cons.2 ⟨hgap, h.isGap⟩
  position_eq := by
    intro front u back hsplit
    rw [← Position.past_eq_counted]
    cases front with
    | nil =>
      cases hsplit
      exact hposition
    | cons v front =>
      cases hsplit
      rw [Spaced.textOf_cons, List.append_assoc, Position.past_append, Position.past_eq_counted]
      exact h.position_eq front u back rfl

/-- One more character of layout in front of a text belongs to the first gap. -/
theorem MakesUp.layout_cons {c : Char} (hc : isLayout c = true)
    (h : MakesUp (p.next c) cs (s :: ss)) :
    MakesUp p (c :: cs) ({ s with gap := c :: s.gap } :: ss) where
  text_eq := congrArg (c :: ·) h.text_eq
  isGap := by
    obtain ⟨hs, hss⟩ := List.forall_mem_cons.1 h.isGap
    exact List.forall_mem_cons.2 ⟨isGap_cons hc hs, hss⟩
  position_eq := by
    intro front u back hsplit
    rw [← Position.past_eq_counted]
    cases front with
    | nil =>
      -- the longer gap starts one character earlier, and counting with it
      cases hsplit
      have hfirst := h.position_eq [] s ss rfl
      rw [← Position.past_eq_counted] at hfirst
      exact hfirst
    | cons v front =>
      cases hsplit
      have hbehind := h.position_eq (s :: front) u back rfl
      rw [← Position.past_eq_counted] at hbehind
      exact hbehind

end

/-- The tokens of a text and its end make it up again. -/
theorem exists_makesUp (p : Position) (cs : List Char) :
    ∃ ss : List Spaced, ss.map Spaced.token = (lex p cs).all ∧ MakesUp p cs ss := by
  fun_induction lex p cs with
  | case1 p =>
    let s : Spaced := ⟨[], .finish p⟩
    have hs : MakesUp p (s.text ++ []) [s] :=
      MakesUp.cons isGap_nil rfl (makesUp_nil _)
    exact ⟨[s], rfl, hs⟩
  | case2 p c cs hlayout ih =>
    obtain ⟨_ | ⟨s, ss⟩, htokens, h⟩ := ih
    · exact absurd htokens.symm (List.append_ne_nil_of_right_ne_nil _ (List.cons_ne_nil _ _))
    · exact ⟨{ s with gap := c :: s.gap } :: ss, htokens, h.layout_cons hlayout⟩
  | case3 p c cs hlayout l behind ih =>
    obtain ⟨ss, htokens, h⟩ := ih
    let s : Spaced := ⟨[], ⟨l.kind, String.ofList l.text, p⟩⟩
    have htext : s.text = l.text := String.toList_ofList
    have hs : MakesUp p (s.text ++ l.rest) (s :: ss) :=
      MakesUp.cons isGap_nil rfl (by rw [htext]; exact h)
    rw [htext, (lexeme_split c cs).1] at hs
    exact ⟨s :: ss, congrArg (s.token :: ·) htokens, hs⟩

theorem Lexical.ne_nil {k : Kind} {cs : List Char} (h : Lexical k cs) : cs ≠ [] := by
  cases h with
  | word hcs | numeral hcs => exact hcs
  | symbol hk =>
    rintro rfl
    obtain ⟨c, -, hcs | hcs⟩ := Kind.symbols_shape (Kind.mem_symbols hk) <;> cases hcs
  | illegal => exact List.cons_ne_nil _ _

/-- Layout in front of a text moves the place where the text starts and does nothing else. -/
theorem lex_gap {ws : List Char} (hws : IsGap ws) (p : Position) (cs : List Char) :
    lex p (ws ++ cs) = lex (p.past ws) cs := by
  induction ws generalizing p with
  | nil => rfl
  | cons c ws ih =>
    obtain ⟨hc, hws⟩ := List.forall_mem_cons.1 hws
    rw [List.cons_append, lex, if_pos (isLayout_iff.2 hc)]
    exact ih hws (p.next c)

theorem lex_cons_of_not_isLayout {c : Char} (hc : isLayout c = false) (p : Position)
    (cs : List Char) : (lex p (c :: cs)).all =
      ⟨(lexeme c cs).kind, String.ofList (lexeme c cs).text, p⟩ ::
        (lex (p.past (lexeme c cs).text) (lexeme c cs).rest).all := by
  rw [lex, if_neg (by rw [hc]; decide)]
  rfl

namespace Reader

/-- Asked for one token after the other, a reader gives these tokens, up to the first one that
stands for the end of the text. -/
inductive Yields : Reader → List Token → Reader → Prop
  | finish {r r' : Reader} {t : Token} (h : r.takeToken = (t, r')) (ht : t.kind = .eof) :
      Yields r [t] r'
  | token {r r' r'' : Reader} {t : Token} {ts : List Token} (h : r.takeToken = (t, r'))
      (ht : t.kind ≠ .eof) (hts : Yields r' ts r'') : Yields r (t :: ts) r''

/-- Asking for tokens one by one has a single outcome. -/
theorem Yields.unique {r r₁ r₂ : Reader} {ts us : List Token} (h : r.Yields ts r₁)
    (h' : r.Yields us r₂) : ts = us ∧ r₁ = r₂ := by
  induction h generalizing us with
  | finish ht heof =>
    cases h' with
    | finish ht' =>
      cases ht.symm.trans ht'
      exact ⟨rfl, rfl⟩
    | token ht' hne =>
      cases ht.symm.trans ht'
      exact absurd heof hne
  | token ht hne hts ih =>
    cases h' with
    | finish ht' heof =>
      cases ht.symm.trans ht'
      exact absurd heof hne
    | token ht' _ hts' =>
      cases ht.symm.trans ht'
      obtain ⟨rfl, rfl⟩ := ih hts'
      exact ⟨rfl, rfl⟩

variable {r : Reader} {cs ds : List Char}

theorem rest_past (h : r.rest = cs ++ ds) : (r.past cs).rest = ds := by
  unfold rest at h
  split at h
  · next hneg =>
    -- nothing is ahead of a place in front of the text
    obtain ⟨rfl, rfl⟩ := List.append_eq_nil_iff.1 h.symm
    have hoffset : (r.past []).offset < 0 := by
      change r.offset + 0 < 0
      omega
    exact if_pos hoffset
  · next hneg =>
    have hoffset : ¬(r.past cs).offset < 0 := by
      change ¬r.offset + cs.length < 0
      omega
    have hdrop : (r.past cs).offset.toNat = cs.length + r.offset.toNat := by
      change (r.offset + cs.length).toNat = _
      omega
    unfold rest
    rw [if_neg hoffset, hdrop, Nat.add_comm]
    change r.source.drop _ = ds
    rw [← List.drop_drop, h, List.drop_left]

@[simp] theorem past_nil : r.past [] = r := by
  unfold past
  rw [List.length_nil, Int.natCast_zero, Int.add_zero]
  rfl

theorem past_past : (r.past cs).past ds = r.past (cs ++ ds) := by
  unfold past
  rw [Position.past_append, List.length_append]
  simp only [Int.natCast_add, Int.add_assoc]

theorem rest_skipLayout : r.skipLayout.rest = r.rest.dropWhile isLayout :=
  rest_past List.takeWhile_append_dropWhile.symm

theorem lexed_skipLayout : r.skipLayout.lexed = r.lexed := by
  unfold lexed
  rw [rest_skipLayout]
  change lex (r.position.past (r.rest.takeWhile isLayout)) _ = _
  rw [← lex_gap (isGap_takeWhile r.rest), List.takeWhile_append_dropWhile]

/-- Where only layout is ahead the next token is the end of the text. -/
theorem takeToken_of_nil (h : r.skipLayout.rest = []) :
    r.takeToken = (.finish r.skipLayout.position, r.skipLayout) := by
  unfold takeToken
  dsimp only
  rw [h]

section

variable {c : Char} (h : r.skipLayout.rest = c :: cs)

include h

theorem not_isLayout_of_cons : isLayout c = false := by
  have hhead := List.head?_dropWhile_not isLayout r.rest
  rw [← rest_skipLayout, h] at hhead
  exact hhead

/-- Behind the layout ahead the next token is the lexeme at the front of the text. -/
theorem takeToken_of_cons :
    r.takeToken = (⟨(lexeme c cs).kind, String.ofList (lexeme c cs).text, r.skipLayout.position⟩,
      r.skipLayout.past (lexeme c cs).text) := by
  unfold takeToken
  dsimp only
  rw [h]

theorem rest_past_lexeme : (r.skipLayout.past (lexeme c cs).text).rest = (lexeme c cs).rest :=
  rest_past (h.trans (lexeme_split c cs).1.symm)

/-- The tokens ahead are the next one and those ahead behind it. -/
theorem lexed_of_cons :
    r.lexed = { r.takeToken.2.lexed with
      tokens := r.takeToken.1 :: r.takeToken.2.lexed.tokens } := by
  have hbehind : r.takeToken.2.lexed =
      lex (r.skipLayout.position.past (lexeme c cs).text) (lexeme c cs).rest := by
    rw [takeToken_of_cons h, lexed, rest_past_lexeme h]
    rfl
  rw [hbehind, takeToken_of_cons h, ← lexed_skipLayout, lexed, h, lex,
    if_neg (Bool.eq_false_iff.1 (not_isLayout_of_cons h))]

end

/-- Every token but the end of the text takes something of what is ahead. -/
theorem length_rest_takeToken (h : r.takeToken.1.kind ≠ .eof) :
    r.takeToken.2.rest.length < r.rest.length := by
  have hle : r.skipLayout.rest.length ≤ r.rest.length := by
    rw [rest_skipLayout]
    exact (List.dropWhile_suffix _).length_le
  cases hrest : r.skipLayout.rest with
  | nil =>
    rw [takeToken_of_nil hrest] at h
    exact absurd (Token.kind_finish _) h
  | cons c cs =>
    rw [hrest, List.length_cons] at hle
    rw [takeToken_of_cons hrest, rest_past_lexeme hrest]
    exact Nat.lt_of_lt_of_le (length_rest_lexeme c cs) hle

/-- The tokens ahead are those that come one after the other, and behind the last one nothing is
ahead. -/
theorem yields_takeAll (r : Reader) : r.Yields r.takeAll.1 r.takeAll.2 := by
  induction hn : r.rest.length using Nat.strongRecOn generalizing r with
  | ind n ih =>
    subst hn
    have hwhole : r.past r.rest = r.skipLayout.past r.skipLayout.rest := by
      rw [rest_skipLayout, skipLayout, past_past, List.takeWhile_append_dropWhile]
    unfold takeAll
    rw [hwhole]
    cases hrest : r.skipLayout.rest with
    | nil =>
      rw [← lexed_skipLayout, lexed, hrest, lex, past_nil]
      exact Yields.finish (takeToken_of_nil hrest) rfl
    | cons c cs =>
      have htoken := takeToken_of_cons hrest
      have hkind : r.takeToken.1.kind ≠ .eof := by
        rw [htoken]
        exact (lexical_lexeme c cs).kind_ne_eof
      have hpast : r.skipLayout.past (c :: cs) = r.takeToken.2.past r.takeToken.2.rest := by
        rw [htoken, rest_past_lexeme hrest, past_past, (lexeme_split c cs).1]
      rw [lexed_of_cons hrest, hpast]
      exact Yields.token rfl hkind (ih _ (length_rest_takeToken hkind) _ rfl)

/-- Asking for tokens one by one comes to what is taken all at once. -/
theorem yields_iff {r' : Reader} {ts : List Token} :
    r.Yields ts r' ↔ ts = r.takeAll.1 ∧ r' = r.takeAll.2 := by
  constructor
  · exact fun h => h.unique r.yields_takeAll
  · rintro ⟨rfl, rfl⟩
    exact r.yields_takeAll

end Reader

/-- From any place in a text on, a reader gives tokens up to the end of the text, which is the last
one of them and stands for no text. The tokens and the layout in front of each make up the text
ahead, and each token stands where counting from that place leads. -/
theorem tokens_make_up (source : String) (start : Nat) (p : Position) :
    let r : Reader := { source := source.toList, offset := start, position := p }
    ∃ (front : List Spaced) (last : Spaced),
      (∀ ts r', r.Yields ts r' ↔
        ts = (front ++ [last]).map Spaced.token ∧ r' = r.past (source.toList.drop start)) ∧
      (last.token.kind = .eof ∧ last.token.literal = "") ∧
      (∀ s ∈ front, s.token.kind ≠ .eof ∧ s.token.literal ≠ "") ∧
      MakesUp p (source.toList.drop start) (front ++ [last]) := by
  intro r
  have hrest : r.rest = source.toList.drop start := by
    unfold Reader.rest
    rw [if_neg (Int.not_lt.2 (Int.natCast_nonneg start))]
    rfl
  obtain ⟨ss, htokens, hmakes⟩ := exists_makesUp p (source.toList.drop start)
  have hyields (ts : List Token) (r' : Reader) : r.Yields ts r' ↔
      ts = ss.map Spaced.token ∧ r' = r.past (source.toList.drop start) := by
    rw [Reader.yields_iff, htokens, ← hrest]
    exact Iff.rfl
  obtain ⟨front, back, rfl, hfront, hback⟩ := List.map_eq_append_iff.1 htokens
  obtain ⟨last, rfl, hlast⟩ := List.map_eq_singleton_iff.1 hback
  refine ⟨front, last, hyields, ?_, fun s hs => ?_, hmakes⟩
  · rw [hlast]
    exact ⟨rfl, rfl⟩
  · -- what stands in front of the end was cut from the text
    have hlexical : s.token.IsLexical :=
      isLexical_of_mem_lex (hfront ▸ List.mem_map_of_mem hs)
    refine ⟨hlexical.kind_ne_eof, fun hempty => hlexical.ne_nil ?_⟩
    rw [hempty]
    rfl

end MonkeySyntax
