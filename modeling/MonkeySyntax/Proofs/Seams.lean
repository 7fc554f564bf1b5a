import Mathlib.Data.List.Basic
import MonkeySyntax.Proofs.Joining

namespace MonkeySyntax

/-- Where a place of a fresh text comes to stand when the text starts at `q`: the lines count on,
and on the first line so do the columns. -/
def Position.movedTo (q p : Position) : Position where
  line := p.line + (q.line - 1)
  column := if p.line = 1 then p.column + (q.column - 1) else p.column

def Token.movedTo (q : Position) (t : Token) : Token :=
  { t with position := q.movedTo t.position }

namespace Position

theorem movedTo_start (q : Position) : q.movedTo start = q := by
  refine Position.ext ?_ ?_
  · change 1 + (q.line - 1) = q.line
    omega
  · change 1 + (q.column - 1) = q.column
    omega

theorem one_le_line_next {p : Position} (hp : 1 ≤ p.line) (c : Char) : 1 ≤ (p.next c).line := by
  unfold next
  split <;> dsimp only <;> omega

/-- Going over a character commutes with moving, as long as lines count from one. -/
theorem next_movedTo (q : Position) {p : Position} (hp : 1 ≤ p.line) (c : Char) :
    (q.movedTo p).next c = q.movedTo (p.next c) := by
  unfold next movedTo
  by_cases hc : c = '\n'
  · -- behind a line feed the first line is left
    have hline : p.line + 1 ≠ 1 := by omega
    simp only [if_pos hc, if_neg hline]
    refine Position.ext ?_ rfl
    dsimp only
    omega
  · simp only [if_neg hc]
    refine Position.ext rfl ?_
    dsimp only
    split <;> omega

end Position

theorem tokens_lex_movedTo (q : Position) (cs : List Char) :
    (lex q cs).tokens = (lex .start cs).tokens.map (Token.movedTo q) := by
  have hmap := tokens_lex_map (I := fun p => 1 ≤ p.line) (fun p c hp => p.one_le_line_next hp c)
    (fun p c hp => q.next_movedTo hp c) (p := .start) (by decide) cs
  rw [Position.movedTo_start] at hmap
  exact hmap

/-- A text behind another one gives its own tokens, moved to where it starts. -/
theorem all_lex_movedTo (q : Position) (cs : List Char) :
    (lex q cs).all = (lex .start cs).all.map (Token.movedTo q) := by
  have hpast := (Position.past_map (I := fun p => 1 ≤ p.line) (f := q.movedTo)
    (fun p c hp => p.one_le_line_next hp c) (fun p c hp => q.next_movedTo hp c)
    (p := .start) (by decide) cs).2
  rw [Position.movedTo_start] at hpast
  unfold Lexed.all
  rw [List.map_append, tokens_lex_movedTo, stop_lex, stop_lex, hpast]
  rfl

inductive EndsIn : List Char → List Char → Prop
  | layout {c : Char} {cs us : List Char} (hc : isLayout c = true) (h : EndsIn cs us) :
      EndsIn (c :: cs) us
  | last {c : Char} {cs : List Char} (hc : isLayout c = false) (h : (lexeme c cs).rest = []) :
      EndsIn (c :: cs) (c :: cs)
  | lexeme {c : Char} {cs us : List Char} (hc : isLayout c = false)
      (h : EndsIn (lexeme c cs).rest us) : EndsIn (c :: cs) us

theorem EndsIn.ne_nil {cs us : List Char} (h : EndsIn cs us) : cs ≠ [] := by
  cases h <;> exact List.cons_ne_nil _ _

theorem text_eq_of_rest {c : Char} {cs : List Char} (h : (lexeme c cs).rest = []) :
    (lexeme c cs).text = c :: cs := by
  have hsplit := (lexeme_split c cs).1
  rw [h, List.append_nil] at hsplit
  exact hsplit

/-- The lexeme in which a text ends is the text of its last token. -/
theorem EndsIn.exists_token {cs us : List Char} (h : EndsIn cs us) (p : Position) :
    us <:+ cs ∧ ∃ c ds t, us = c :: ds ∧ (lex p cs).tokens.getLast? = some t ∧
      t.kind = (MonkeySyntax.lexeme c ds).kind ∧ t.literal = String.ofList us := by
  induction h generalizing p with
  | @layout c cs us hc h ih =>
    obtain ⟨hsuffix, hlast⟩ := ih (p.next c)
    rw [lex, if_pos hc]
    exact ⟨hsuffix.trans (List.suffix_cons c cs), hlast⟩
  | @last c cs hc h =>
    rw [lex, if_neg (by rw [hc]; decide)]
    dsimp only
    rw [h, lex, text_eq_of_rest h]
    exact ⟨List.suffix_refl _, c, cs, _, rfl, rfl, rfl, rfl⟩
  | @lexeme c cs us hc h ih =>
    obtain ⟨hsuffix, d, ds, t, hus, ht, hkind, htext⟩ :=
      ih (p.past (MonkeySyntax.lexeme c cs).text)
    refine ⟨hsuffix.trans ⟨_, (lexeme_split c cs).1⟩, d, ds, t, hus, ?_, hkind, htext⟩
    rw [lex, if_neg (by rw [hc]; decide)]
    dsimp only
    rw [List.getLast?_cons, ht]
    rfl

theorem EndsIn.getLast?_eq {cs us : List Char} (h : EndsIn cs us) :
    us.getLast? = cs.getLast? := by
  obtain ⟨⟨front, rfl⟩, c, ds, t, rfl, -⟩ := h.exists_token .start
  rw [List.getLast?_append_of_ne_nil front (List.cons_ne_nil c ds)]

/-- A text whose last character is no layout ends in a lexeme. -/
theorem exists_endsIn {cs : List Char} {x : Char} (hx : cs.getLast? = some x)
    (hlayout : isLayout x = false) : ∃ us, EndsIn cs us := by
  -- on the length, since a lexeme takes several characters at once
  induction hn : cs.length using Nat.strongRecOn generalizing cs with
  | ind n ih =>
    subst hn
    cases cs with
    | nil => cases hx
    | cons c cs =>
      by_cases hc : isLayout c = true
      · have hne : cs ≠ [] := by
          rintro rfl
          obtain rfl : c = x := Option.some.inj hx
          exact Bool.eq_false_iff.1 hlayout hc
        rw [List.getLast?_cons_of_ne_nil hne] at hx
        obtain ⟨us, h⟩ := ih _ (Nat.lt_succ_self _) hx rfl
        exact ⟨us, EndsIn.layout hc h⟩
      · have hc' : isLayout c = false := Bool.eq_false_iff.2 hc
        by_cases hrest : (lexeme c cs).rest = []
        · exact ⟨_, EndsIn.last hc' hrest⟩
        · rw [← (lexeme_split c cs).1, List.getLast?_append_of_ne_nil _ hrest] at hx
          obtain ⟨us, h⟩ := ih _ (length_rest_lexeme c cs) hx rfl
          exact ⟨us, EndsIn.lexeme hc' h⟩

/-- The last character of a lexeme tells whether it is a word or a numeral. -/
theorem EndsIn.run_of_getLast? {cs us : List Char} {x : Char} (h : EndsIn cs us)
    (hx : us.getLast? = some x) :
    (isLetter x = true → ∀ c ∈ us, isLetter c = true) ∧
      (x.isDigit = true → ∀ c ∈ us, c.isDigit = true) := by
  obtain ⟨-, c, ds, t, rfl, ht, -, htext⟩ := h.exists_token .start
  have hlexical : Lexical t.kind (c :: ds) := by
    have hmem := isLexical_of_mem_lex (List.mem_of_getLast? ht)
    unfold Token.IsLexical at hmem
    rw [htext, String.toList_ofList] at hmem
    exact hmem
  have hmem : x ∈ c :: ds := List.mem_of_getLast? hx
  generalize c :: ds = us at *
  generalize t.kind = k at *
  cases hlexical with
  | word hus hletters hk =>
    refine ⟨fun _ => hletters, fun hdigit => ?_⟩
    exact absurd (hletters x hmem) (Bool.eq_false_iff.1 (not_isLetter_of_isDigit hdigit))
  | numeral hus hdigits =>
    refine ⟨fun hletter => ?_, fun _ => hdigits⟩
    exact absurd hletter (Bool.eq_false_iff.1 (not_isLetter_of_isDigit (hdigits x hmem)))
  | symbol hk =>
    -- a symbol ends in a mark or in an equals sign
    obtain ⟨c, hc, hus⟩ := Kind.symbols_shape (Kind.mem_symbols hk)
    have hmark : isMark x = true := by
      rw [String.toList_ofList] at hus
      rcases hus with rfl | rfl
      · rw [← List.mem_singleton.1 hmem] at hc
        exact hc
      · obtain rfl : '=' = x := Option.some.inj hx
        decide
    obtain ⟨hletter, hdigit, -⟩ := isMark_iff.1 hmark
    exact ⟨fun h => absurd h (Bool.eq_false_iff.1 hletter),
      fun h => absurd h (Bool.eq_false_iff.1 hdigit)⟩
  | @illegal c =>
    obtain rfl : x = c := List.mem_singleton.1 hmem
    exact ⟨fun h => List.forall_mem_singleton.2 h, fun h => List.forall_mem_singleton.2 h⟩

/-- A lexeme that the next character goes on with is not the one that the whole text starts with. -/
theorem text_lexeme_ne_of_goesOn {c d : Char} {cs : List Char} (hgoes : GoesOn (c :: cs) d)
    (rest : List Char) : (lexeme c (cs ++ d :: rest)).text ≠ c :: cs := by
  -- the longer run takes the character in
  have hlonger {p : Char → Bool} (hcs : ∀ x ∈ cs, p x = true) (hd : p d = true) :
      c :: (cs ++ d :: rest).takeWhile p ≠ c :: cs := by
    intro heq
    have hlength := congrArg List.length heq
    rw [List.takeWhile_append_of_pos hcs, List.takeWhile_cons_of_pos hd] at hlength
    simp only [List.length_cons, List.length_append] at hlength
    omega
  cases hgoes with
  | letter hcs hd =>
    obtain ⟨hc, hcs⟩ := List.forall_mem_cons.1 hcs
    rw [lexeme_of_isLetter hc]
    exact hlonger hcs hd
  | digit hcs hd =>
    obtain ⟨hc, hcs⟩ := List.forall_mem_cons.1 hcs
    rw [lexeme_of_isDigit hc]
    exact hlonger hcs hd
  | equals hx =>
    have htext : (lexeme c ('=' :: rest)).text = [c, '='] := by
      rcases hx with rfl | rfl <;> rfl
    rw [List.nil_append, htext]
    simp

/-- Behind a text the next one is cut as it is alone, if and only if no lexeme in which the text
ends goes on. -/
theorem tokens_lex_append_iff (p : Position) (cs : List Char) (d : Char) (rest : List Char) :
    (lex p (cs ++ d :: rest)).tokens = (lex p cs).tokens ++ (lex (p.past cs) (d :: rest)).tokens ↔
      ∀ us, EndsIn cs us → ¬GoesOn us d := by
  fun_induction lex p cs with
  | case1 p => exact iff_of_true rfl fun us h => absurd rfl h.ne_nil
  | case2 p c cs hlayout ih =>
    have hends (us : List Char) : EndsIn (c :: cs) us ↔ EndsIn cs us := by
      refine ⟨fun h => ?_, EndsIn.layout hlayout⟩
      cases h with
      | layout _ h => exact h
      | last hc | lexeme hc => exact absurd hlayout (Bool.eq_false_iff.1 hc)
    rw [List.cons_append, lex, if_pos hlayout, Position.past_cons, ih]
    simp only [hends]
  | case3 p c cs hlayout l behind ih =>
    have hc : isLayout c = false := Bool.eq_false_iff.2 hlayout
    have hpast : p.past (c :: cs) = (p.past l.text).past l.rest := by
      rw [← (lexeme_split c cs).1, Position.past_append]
    have hends (us : List Char) : EndsIn (c :: cs) us ↔
        l.rest = [] ∧ us = c :: cs ∨ EndsIn l.rest us := by
      constructor
      · intro h
        cases h with
        | layout hc' => exact absurd hc' hlayout
        | last _ h => exact Or.inl ⟨h, rfl⟩
        | lexeme _ h => exact Or.inr h
      · rintro (⟨h, rfl⟩ | h)
        · exact EndsIn.last hc h
        · exact EndsIn.lexeme hc h
    rw [List.cons_append, lex, if_neg hlayout, hpast]
    by_cases hgoes : l.rest = [] ∧ GoesOn (c :: cs) d
    · -- the first token is longer than the one of the text alone
      obtain ⟨hrest, hgoes⟩ := hgoes
      refine iff_of_false (fun heq => ?_) fun h => h _ ((hends _).2 (Or.inl ⟨hrest, rfl⟩)) hgoes
      have hliteral := String.ofList_injective (congrArg Token.literal (List.cons.inj heq).1)
      exact text_lexeme_ne_of_goesOn hgoes rest (hliteral.trans (text_eq_of_rest hrest))
    · -- the first token is the same one, so that the rest decides
      have hlexeme : lexeme c (cs ++ d :: rest) = { l with rest := l.rest ++ d :: rest } := by
        refine lexeme_append hc cs fun hrest x hx hx' => hgoes ⟨hrest, ?_⟩
        obtain rfl : d = x := Option.some.inj hx
        rw [text_eq_of_rest hrest] at hx'
        exact hx'
      rw [hlexeme]
      dsimp only
      rw [List.cons_append, List.cons_inj_right, ih]
      simp only [hends]
      refine ⟨fun h us hus => ?_, fun h us hus => h us (Or.inr hus)⟩
      rcases hus with ⟨hrest, rfl⟩ | hus
      · exact fun h => hgoes ⟨hrest, h⟩
      · exact h us hus

/-- Whether the seam of two texts lies inside a token: two letters or two digits meet there, or the
first text ends with a token that is an equals sign or a bang alone and the second one starts with
an equals sign. -/
inductive Fused (s₁ s₂ : String) : Prop
  | letters {x d : Char} (hx : s₁.toList.getLast? = some x) (hd : s₂.toList.head? = some d)
      (hx' : isLetter x = true) (hd' : isLetter d = true)
  | digits {x d : Char} (hx : s₁.toList.getLast? = some x) (hd : s₂.toList.head? = some d)
      (hx' : x.isDigit = true) (hd' : d.isDigit = true)
  | equals {t : Token} (ht : (tokenize s₁).dropLast.getLast? = some t)
      (hk : t.kind = .assign ∨ t.kind = .bang) (hend : t.literal.toList <:+ s₁.toList)
      (hd : s₂.toList.head? = some '=')

theorem tokens_eq_dropLast (source : String) :
    (lex .start source.toList).tokens = (tokenize source).dropLast :=
  List.dropLast_concat.symm

/-- The seam lies inside a token if the lexeme in which the first text ends goes on. -/
theorem exists_goesOn_iff (s₁ s₂ : String) :
    (∃ us d, EndsIn s₁.toList us ∧ s₂.toList.head? = some d ∧ GoesOn us d) ↔ Fused s₁ s₂ := by
  constructor
  · rintro ⟨us, d, hends, hd, hgoes⟩
    have hlast := hends.getLast?_eq
    obtain ⟨hsuffix, c, ds, t, rfl, ht, hkind, htext⟩ := hends.exists_token .start
    rw [List.getLast?_eq_some_getLast (List.cons_ne_nil c ds)] at hlast
    have hmem := List.getLast_mem (List.cons_ne_nil c ds)
    rw [tokens_eq_dropLast] at ht
    cases hgoes with
    | letter hus hd' => exact Fused.letters hlast.symm hd (hus _ hmem) hd'
    | digit hus hd' => exact Fused.digits hlast.symm hd (hus _ hmem) hd'
    | equals hx =>
      rw [← String.toList_ofList (l := [c]), ← htext] at hsuffix
      refine Fused.equals ht ?_ hsuffix hd
      rw [hkind]
      exact hx.imp (fun hx => by rw [hx]; decide) (fun hx => by rw [hx]; decide)
  · intro h
    -- the last character in front of the seam is no layout, so that a lexeme ends there
    have hends {x : Char} (hx : s₁.toList.getLast? = some x) (hlayout : isLayout x = false) :
        ∃ us, EndsIn s₁.toList us ∧ us.getLast? = some x := by
      obtain ⟨us, hus⟩ := exists_endsIn hx hlayout
      exact ⟨us, hus, hus.getLast?_eq.trans hx⟩
    cases h with
    | letters hx hd hx' hd' =>
      obtain ⟨us, hus, hlast⟩ := hends hx (not_isLayout_of_run (Or.inl hx'))
      exact ⟨us, _, hus, hd, GoesOn.letter ((hus.run_of_getLast? hlast).1 hx') hd'⟩
    | digits hx hd hx' hd' =>
      obtain ⟨us, hus, hlast⟩ := hends hx (not_isLayout_of_run (Or.inr hx'))
      exact ⟨us, _, hus, hd, GoesOn.digit ((hus.run_of_getLast? hlast).2 hx') hd'⟩
    | @equals t ht hk hend hd =>
      rw [← tokens_eq_dropLast] at ht
      have hlexical : Lexical t.kind t.literal.toList :=
        isLexical_of_mem_lex (List.mem_of_getLast? ht)
      have hsign : ∃ x, (x = '=' ∨ x = '!') ∧ t.literal.toList = [x] := by
        have hliteral {s : String} (hs : (s, t.kind) ∈ Kind.words ++ Kind.symbols) :
            t.literal.toList = s.toList := by
          rw [← hlexical.eq_of_mem_tables hs, String.toList_ofList]
        rcases hk with hk | hk
        · exact ⟨'=', Or.inl rfl, hliteral (s := "=") (by rw [hk]; decide)⟩
        · exact ⟨'!', Or.inr rfl, hliteral (s := "!") (by rw [hk]; decide)⟩
      obtain ⟨x, hx, hliteral⟩ := hsign
      rw [hliteral] at hend
      have hlast : s₁.toList.getLast? = some x := by
        obtain ⟨front, hfront⟩ := hend
        rw [← hfront, List.getLast?_concat]
      obtain ⟨us, hus, -⟩ := hends hlast (by rcases hx with rfl | rfl <;> decide)
      obtain ⟨-, c, ds, u, -, hu, -, htext⟩ := hus.exists_token .start
      -- the lexeme is the text of the last token
      obtain rfl : t = u := Option.some.inj (ht.symm.trans hu)
      obtain rfl : us = [x] := by rw [← hliteral, htext, String.toList_ofList]
      exact ⟨[x], '=', hus, hd, GoesOn.equals hx⟩

/-- Two texts one behind the other are cut into the tokens of the first one without its end and the
tokens of the second one, moved to where the first one ends, if and only if the seam does not lie
inside a token. -/
theorem tokenize_append_iff (s₁ s₂ : String) :
    tokenize (s₁ ++ s₂) = (tokenize s₁).dropLast ++
        (tokenize s₂).map (Token.movedTo (Position.start.past s₁.toList)) ↔
      ¬Fused s₁ s₂ := by
  -- the end stands in the same place on both sides
  have hall : tokenize (s₁ ++ s₂) = (lex .start (s₁.toList ++ s₂.toList)).tokens ++
      [.finish (Position.start.past (s₁.toList ++ s₂.toList))] := by
    unfold tokenize Lexed.all
    rw [String.toList_append, stop_lex]
  have hmoved : (tokenize s₂).map (Token.movedTo (Position.start.past s₁.toList)) =
      (lex (Position.start.past s₁.toList) s₂.toList).tokens ++
        [.finish (Position.start.past (s₁.toList ++ s₂.toList))] := by
    unfold tokenize
    rw [← all_lex_movedTo, Lexed.all, stop_lex, Position.past_append]
  rw [hall, hmoved, ← tokens_eq_dropLast, ← List.append_assoc, List.append_cancel_right_eq,
    ← exists_goesOn_iff]
  cases hs₂ : s₂.toList with
  | nil =>
    refine iff_of_true ?_ ?_
    · rw [List.append_nil, lex, List.append_nil]
    · rintro ⟨us, d, -, hd, -⟩
      cases hd
  | cons d rest =>
    rw [tokens_lex_append_iff]
    constructor
    · rintro h ⟨us, x, hus, hx, hgoes⟩
      obtain rfl : d = x := Option.some.inj hx
      exact h us hus hgoes
    · exact fun h us hus hgoes => h ⟨us, d, hus, rfl, hgoes⟩

example : (tokenize ("=" ++ "=")).map Token.kind = [.eq, .eof] ∧
    (tokenize ("==" ++ "=")).map Token.kind = [.eq, .assign, .eof] := by decide +kernel

end MonkeySyntax
