import MonkeySyntax.Token.Lexing

namespace MonkeySyntax

inductive Lexical : Kind → List Char → Prop
  | word {k : Kind} {cs : List Char} (hcs : cs ≠ []) (hletters : ∀ c ∈ cs, isLetter c)
      (hk : Kind.ofWord (String.ofList cs) = k) : Lexical k cs
  | numeral {cs : List Char} (hcs : cs ≠ []) (hdigits : ∀ c ∈ cs, c.isDigit) : Lexical .int cs
  | symbol {k : Kind} {cs : List Char} (hk : Kind.ofSymbol? (String.ofList cs) = some k) :
      Lexical k cs
  | illegal {c : Char} : Lexical .illegal [c]

def Token.IsLexical (t : Token) : Prop :=
  Lexical t.kind t.literal.toList

theorem mem_of_lookup {α β : Type} [BEq α] [LawfulBEq α] {l : List (α × β)} {a : α} {b : β}
    (h : l.lookup a = some b) : (a, b) ∈ l := by
  obtain ⟨us, vs, rfl, -⟩ := List.lookup_eq_some_iff.1 h
  exact List.mem_append_right us List.mem_cons_self

theorem Kind.mem_symbols {s : String} {k : Kind} (h : Kind.ofSymbol? s = some k) :
    (s, k) ∈ Kind.symbols :=
  mem_of_lookup h

theorem Kind.ofWord_cases (s : String) :
    Kind.ofWord s = .ident ∨ (s, Kind.ofWord s) ∈ Kind.words := by
  unfold Kind.ofWord
  cases h : Kind.words.lookup s with
  | none => exact Or.inl rfl
  | some k => exact Or.inr (mem_of_lookup h)

theorem longestSymbol?_kind {n : Nat} {cs : List Char} {l : Lexeme}
    (h : longestSymbol? n cs = some l) : Kind.ofSymbol? (String.ofList l.text) = some l.kind := by
  induction n with
  | zero => cases h
  | succ n ih =>
    simp only [longestSymbol?] at h
    split at h
    · next k hk =>
      cases h
      exact hk
    · exact ih h

/-- What is cut off the front of a text is a lexeme of the kind that it is given. -/
theorem lexical_lexeme (c : Char) (cs : List Char) :
    Lexical (lexeme c cs).kind (lexeme c cs).text := by
  have hrun {p : Char → Bool} (hc : p c = true) : ∀ x ∈ c :: cs.takeWhile p, p x = true :=
    List.forall_mem_cons.2 ⟨hc, fun x hx => List.all_eq_true.1 List.all_takeWhile x hx⟩
  unfold lexeme
  split
  · next hletter => exact Lexical.word (List.cons_ne_nil _ _) (hrun hletter) rfl
  split
  · next hdigit => exact Lexical.numeral (List.cons_ne_nil _ _) (hrun hdigit)
  cases h : symbol? (c :: cs) with
  | none => exact Lexical.illegal
  | some l => exact Lexical.symbol (longestSymbol?_kind h)

theorem isLexical_of_mem_lex {p : Position} {cs : List Char} {t : Token}
    (h : t ∈ (lex p cs).tokens) : t.IsLexical := by
  fun_induction lex p cs with
  | case1 p => cases h
  | case2 p c cs hlayout ih => exact ih h
  | case3 p c cs hlayout l behind ih =>
    rcases List.mem_cons.1 h with rfl | h
    · unfold Token.IsLexical
      rw [String.toList_ofList]
      exact lexical_lexeme c cs
    · exact ih h

theorem Lexical.kind_ne_eof {k : Kind} {cs : List Char} (h : Lexical k cs) : k ≠ .eof := by
  have hwords : ∀ w ∈ Kind.words, w.2 ≠ .eof := by decide
  have hsymbols : ∀ s ∈ Kind.symbols, s.2 ≠ .eof := by decide
  cases h with
  | word _ _ hk =>
    subst hk
    rcases Kind.ofWord_cases (String.ofList cs) with hident | hmem
    · rw [hident]
      decide
    · exact hwords _ hmem
  | numeral | illegal => decide
  | symbol hk => exact hsymbols _ (Kind.mem_symbols hk)

/-- The text of an integer is a row of digits. -/
theorem Lexical.digits {cs : List Char} (h : Lexical .int cs) :
    cs ≠ [] ∧ ∀ c ∈ cs, c.isDigit := by
  have hwords : ∀ w ∈ Kind.words, w.2 ≠ .int := by decide
  have hsymbols : ∀ s ∈ Kind.symbols, s.2 ≠ .int := by decide
  cases h with
  | word _ _ hk =>
    rcases Kind.ofWord_cases (String.ofList cs) with hident | hmem
    · rw [hident] at hk
      cases hk
    · exact absurd hk (hwords _ hmem)
  | numeral hcs hdigits => exact ⟨hcs, hdigits⟩
  | symbol hk => exact absurd rfl (hsymbols _ (Kind.mem_symbols hk))

/-- A kind that is neither open nor illegal has its text in one of the two tables. -/
theorem Lexical.mem_tables {k : Kind} {cs : List Char} (h : Lexical k cs)
    (hk : k ≠ .ident ∧ k ≠ .int ∧ k ≠ .illegal) :
    (String.ofList cs, k) ∈ Kind.words ++ Kind.symbols := by
  cases h with
  | word _ _ hword =>
    subst hword
    rcases Kind.ofWord_cases (String.ofList cs) with hident | hmem
    · exact absurd hident hk.1
    · exact List.mem_append_left _ hmem
  | numeral => exact absurd rfl hk.2.1
  | symbol hsymbol => exact List.mem_append_right _ (Kind.mem_symbols hsymbol)
  | illegal => exact absurd rfl hk.2.2

/-- Each kind stands in the tables at most once. -/
theorem Lexical.eq_of_mem_tables {k : Kind} {cs : List Char} {s : String} (h : Lexical k cs)
    (hs : (s, k) ∈ Kind.words ++ Kind.symbols) : String.ofList cs = s := by
  have hopen : ∀ a ∈ Kind.words ++ Kind.symbols,
      a.2 ≠ .ident ∧ a.2 ≠ .int ∧ a.2 ≠ .illegal := by decide
  have honce : ∀ a ∈ Kind.words ++ Kind.symbols, ∀ b ∈ Kind.words ++ Kind.symbols,
      a.2 = b.2 → a.1 = b.1 := by decide +kernel
  exact honce _ (h.mem_tables (hopen _ hs)) _ hs rfl

/-- The text of a word or a numeral starts with a letter or a digit. -/
theorem Lexical.exists_head {k : Kind} {cs : List Char} (h : Lexical k cs) (hk : k ≠ .illegal)
    (hk' : ∀ s ∈ Kind.symbols, s.2 ≠ k) :
    ∃ c cs', cs = c :: cs' ∧ (isLetter c = true ∨ c.isDigit = true) := by
  cases h with
  | @word _ cs hcs hletters =>
    cases cs with
    | nil => exact absurd rfl hcs
    | cons c cs => exact ⟨c, cs, rfl, Or.inl (hletters c List.mem_cons_self)⟩
  | @numeral cs hcs hdigits =>
    cases cs with
    | nil => exact absurd rfl hcs
    | cons c cs => exact ⟨c, cs, rfl, Or.inr (hdigits c List.mem_cons_self)⟩
  | symbol hsymbol => exact absurd rfl (hk' _ (Kind.mem_symbols hsymbol))
  | illegal => exact absurd rfl hk

theorem not_isLayout_of_run {c : Char} (h : isLetter c = true ∨ c.isDigit = true) :
    isLayout c = false := by
  apply Bool.eq_false_iff.2
  intro hlayout
  have hc : c = ' ' ∨ c = '\t' ∨ c = '\n' ∨ c = '\r' := by
    simpa [isLayout, or_assoc] using hlayout
  rcases hc with rfl | rfl | rfl | rfl <;> exact absurd h (by decide)

theorem isAlpha_eq (c : Char) :
    c.isAlpha = (decide (c.val ≥ 'A'.val ∧ c.val ≤ 'Z'.val) ||
      decide (c.val ≥ 'a'.val) && decide (c.val ≤ 'z'.val)) := rfl

theorem not_isLetter_of_isDigit {c : Char} (h : c.isDigit = true) : isLetter c = false := by
  have hne : c ≠ '_' := by
    rintro rfl
    exact absurd h (by decide)
  -- digits lie in front of all letters
  have halpha : c.isAlpha = false := by
    unfold Char.isDigit at h
    rw [isAlpha_eq]
    simp only [Bool.and_eq_true, Bool.or_eq_false_iff, Bool.and_eq_false_iff, decide_eq_true_eq,
      decide_eq_false_iff_not, UInt32.le_iff_toNat_le, ge_iff_le] at h ⊢
    simp at h ⊢
    omega
  simp [isLetter, halpha, hne]

/-- Whether a text may stand behind any token without making it longer. -/
def Boundary (cs : List Char) : Prop :=
  ∀ c, cs.head? = some c → isLetter c = false ∧ c.isDigit = false ∧ c ≠ '='

theorem boundary_nil : Boundary [] := by
  intro c hc
  cases hc

theorem boundary_cons {c : Char} (h : isLetter c = false ∧ c.isDigit = false ∧ c ≠ '=')
    (cs : List Char) : Boundary (c :: cs) := by
  intro d hd
  cases hd
  exact h

theorem Boundary.head_ne {cs : List Char} (h : Boundary cs) : cs.head? ≠ some '=' :=
  fun hhead => absurd rfl (h '=' hhead).2.2

theorem takeWhile_run {p : Char → Bool} {cs rest : List Char} (hcs : ∀ c ∈ cs, p c = true)
    (hrest : ∀ c, rest.head? = some c → p c = false) :
    (cs ++ rest).takeWhile p = cs ∧ (cs ++ rest).dropWhile p = rest := by
  -- the run stops where the rest starts
  have hstop : rest.takeWhile p = [] ∧ rest.dropWhile p = rest := by
    cases rest with
    | nil => exact ⟨rfl, rfl⟩
    | cons c rest =>
      have hc : p c = false := hrest c rfl
      rw [List.takeWhile_cons, List.dropWhile_cons, hc]
      exact ⟨rfl, rfl⟩
  rw [List.takeWhile_append_of_pos hcs, List.dropWhile_append_of_pos hcs, hstop.1, hstop.2,
    List.append_nil]
  exact ⟨rfl, rfl⟩

def isMark (c : Char) : Bool :=
  !isLetter c && !c.isDigit && !isLayout c

theorem isMark_iff {c : Char} :
    isMark c = true ↔ isLetter c = false ∧ c.isDigit = false ∧ isLayout c = false := by
  unfold isMark
  rw [Bool.and_eq_true_iff, Bool.and_eq_true_iff, Bool.not_eq_true', Bool.not_eq_true',
    Bool.not_eq_true', and_assoc]

def isSymbolText : List Char → Bool
  | [c] => isMark c
  | [c, d] => isMark c && d == '='
  | _ => false

/-- An operator or a delimiter is one mark, or a mark and an equals sign. -/
theorem Kind.symbols_shape {s : String} {k : Kind} (h : (s, k) ∈ Kind.symbols) :
    ∃ c, isMark c = true ∧ (s.toList = [c] ∨ s.toList = [c, '=']) := by
  have hall : (Kind.symbols.all fun s => isSymbolText s.1.toList) = true := by decide +kernel
  have hs : isSymbolText s.toList = true := List.all_eq_true.1 hall _ h
  revert hs
  generalize s.toList = cs
  intro hs
  -- there are symbols of one character and of two, and the second one is an equals sign
  rcases cs with _ | ⟨c, _ | ⟨d, _ | ⟨e, cs⟩⟩⟩
  · cases hs
  · exact ⟨c, hs, Or.inl rfl⟩
  · obtain ⟨hc, hd⟩ := Bool.and_eq_true_iff.1 hs
    obtain rfl : d = '=' := beq_iff_eq.1 hd
    exact ⟨c, hc, Or.inr rfl⟩
  · cases hs

/-- Of two characters that are a symbol the second one is an equals sign. -/
theorem Kind.ofSymbol?_pair {c d : Char} (hd : d ≠ '=') :
    Kind.ofSymbol? (String.ofList [c, d]) = none := by
  cases h : Kind.ofSymbol? (String.ofList [c, d]) with
  | none => rfl
  | some k =>
    obtain ⟨e, -, hcd⟩ := Kind.symbols_shape (Kind.mem_symbols h)
    rw [String.toList_ofList] at hcd
    rcases hcd with hcd | hcd
    · cases hcd
    · injection hcd with _ hcd
      injection hcd with hcd
      exact absurd hcd hd

/-- Whether a symbol starts here is settled by two characters. -/
theorem symbol?_cons (c : Char) (cs : List Char) : symbol? (c :: cs) =
    match Kind.ofSymbol? (String.ofList (c :: cs.take 1)) with
    | some k => some ⟨k, c :: cs.take 1, cs.drop 1⟩
    | none =>
      match Kind.ofSymbol? (String.ofList [c]) with
      | some k => some ⟨k, [c], cs⟩
      | none => none := rfl

theorem lexeme_of_isLetter {c : Char} (hc : isLetter c = true) (cs : List Char) :
    lexeme c cs = ⟨.ofWord (String.ofList (c :: cs.takeWhile isLetter)),
      c :: cs.takeWhile isLetter, cs.dropWhile isLetter⟩ := by
  unfold lexeme
  rw [if_pos hc]

theorem lexeme_of_isDigit {c : Char} (hc : c.isDigit = true) (cs : List Char) :
    lexeme c cs = ⟨.int, c :: cs.takeWhile Char.isDigit, cs.dropWhile Char.isDigit⟩ := by
  unfold lexeme
  rw [if_neg (by rw [not_isLetter_of_isDigit hc]; decide), if_pos hc]

theorem lexeme_of_isMark {c : Char} (hc : isMark c = true) (cs : List Char) :
    lexeme c cs = (symbol? (c :: cs)).getD ⟨.illegal, [c], cs⟩ := by
  obtain ⟨hletter, hdigit, -⟩ := isMark_iff.1 hc
  unfold lexeme
  rw [if_neg (by rw [hletter]; decide), if_neg (by rw [hdigit]; decide)]

/-- A symbol is cut off unless the next character makes it a longer one. -/
theorem lexeme_of_symbol {k : Kind} {cs rest : List Char}
    (hk : Kind.ofSymbol? (String.ofList cs) = some k) (hrest : rest.head? ≠ some '=') :
    ∃ c cs', cs = c :: cs' ∧ isLayout c = false ∧ lexeme c (cs' ++ rest) = ⟨k, cs, rest⟩ := by
  obtain ⟨c, hc, hcs⟩ := Kind.symbols_shape (Kind.mem_symbols hk)
  have hlayout := (isMark_iff.1 hc).2.2
  rw [String.toList_ofList] at hcs
  rcases hcs with rfl | rfl
  · refine ⟨c, [], rfl, hlayout, ?_⟩
    rw [lexeme_of_isMark hc, symbol?_cons]
    cases rest with
    | nil => simp only [List.nil_append, List.take_nil, List.drop_nil, hk, Option.getD_some]
    | cons d rest =>
      have hnone := Kind.ofSymbol?_pair (c := c) (d := d) fun hd => hrest (by rw [hd]; rfl)
      simp only [List.nil_append, List.take_succ_cons, List.take_zero, hnone, hk,
        Option.getD_some]
  · refine ⟨c, ['='], rfl, hlayout, ?_⟩
    rw [lexeme_of_isMark hc, symbol?_cons]
    simp only [List.cons_append, List.nil_append, List.take_succ_cons, List.take_zero,
      List.drop_succ_cons, List.drop_zero, hk, Option.getD_some]

/-- The text of a token is cut off in front of a boundary. -/
theorem lexeme_of_lexical {k : Kind} {cs rest : List Char} (h : Lexical k cs) (hk : k ≠ .illegal)
    (hrest : Boundary rest) :
    ∃ c cs', cs = c :: cs' ∧ isLayout c = false ∧ lexeme c (cs' ++ rest) = ⟨k, cs, rest⟩ := by
  cases h with
  | @word _ cs hcs hletters hword =>
    cases cs with
    | nil => exact absurd rfl hcs
    | cons c cs =>
      obtain ⟨hc, hletters⟩ := List.forall_mem_cons.1 hletters
      obtain ⟨htake, hdrop⟩ := takeWhile_run hletters fun d hd => (hrest d hd).1
      refine ⟨c, cs, rfl, not_isLayout_of_run (Or.inl hc), ?_⟩
      rw [lexeme_of_isLetter hc, htake, hdrop, hword]
  | @numeral cs hcs hdigits =>
    cases cs with
    | nil => exact absurd rfl hcs
    | cons c cs =>
      obtain ⟨hc, hdigits⟩ := List.forall_mem_cons.1 hdigits
      obtain ⟨htake, hdrop⟩ := takeWhile_run hdigits fun d hd => (hrest d hd).2.1
      refine ⟨c, cs, rfl, not_isLayout_of_run (Or.inr hc), ?_⟩
      rw [lexeme_of_isDigit hc, htake, hdrop]
  | symbol hsymbol =>
    exact lexeme_of_symbol hsymbol fun hhead => absurd rfl (hrest '=' hhead).2.2
  | illegal => exact absurd rfl hk

theorem takeWhile_append_of_head {p : Char → Bool} (cs : List Char) {rest : List Char}
    (hrest : cs.dropWhile p = [] → ∀ c, rest.head? = some c → p c = false) :
    (cs ++ rest).takeWhile p = cs.takeWhile p ∧
      (cs ++ rest).dropWhile p = cs.dropWhile p ++ rest := by
  have hsplit : cs ++ rest = cs.takeWhile p ++ (cs.dropWhile p ++ rest) := by
    rw [← List.append_assoc, List.takeWhile_append_dropWhile]
  rw [hsplit]
  refine takeWhile_run (fun c hc => List.all_eq_true.1 List.all_takeWhile c hc) fun c hc => ?_
  -- the run stops inside the text or where the rest starts
  have hstop := List.head?_dropWhile_not p cs
  cases hdrop : cs.dropWhile p with
  | nil =>
    rw [hdrop] at hc
    exact hrest hdrop c hc
  | cons d ds =>
    rw [hdrop] at hc hstop
    cases hc
    exact hstop

/-- A character makes a lexeme longer that it stands right behind: a letter a word, a digit a
numeral, and an equals sign the two symbols that stand alone or in front of one. -/
inductive GoesOn : List Char → Char → Prop
  | letter {cs : List Char} {d : Char} (hcs : ∀ c ∈ cs, isLetter c = true)
      (hd : isLetter d = true) : GoesOn cs d
  | digit {cs : List Char} {d : Char} (hcs : ∀ c ∈ cs, c.isDigit = true)
      (hd : d.isDigit = true) : GoesOn cs d
  | equals {x : Char} (hx : x = '=' ∨ x = '!') : GoesOn [x] '='

/-- A boundary makes no lexeme longer. -/
theorem Boundary.not_goesOn {rest : List Char} (h : Boundary rest) {d : Char}
    (hd : rest.head? = some d) (cs : List Char) : ¬GoesOn cs d := by
  obtain ⟨hletter, hdigit, hequals⟩ := h d hd
  intro hgoes
  cases hgoes with
  | letter _ hd' => exact Bool.eq_false_iff.1 hletter hd'
  | digit _ hd' => exact Bool.eq_false_iff.1 hdigit hd'
  | equals => exact hequals rfl

theorem forall_mem_run {p : Char → Bool} {c : Char} (hc : p c = true) (cs : List Char) :
    ∀ x ∈ c :: cs.takeWhile p, p x = true :=
  List.forall_mem_cons.2 ⟨hc, fun x hx => List.all_eq_true.1 List.all_takeWhile x hx⟩

/-- Two characters are a symbol only if the first one goes on with the second one. -/
theorem Kind.ofSymbol?_of_not_goesOn {c d : Char} (h : ¬GoesOn [c] d) :
    Kind.ofSymbol? (String.ofList [c, d]) = none := by
  by_cases hd : d = '='
  · subst hd
    have hpairs : ∀ s ∈ Kind.symbols, s.1.toList.tail = ['='] →
        s.1.toList.head? = some '=' ∨ s.1.toList.head? = some '!' := by decide
    cases hsymbol : Kind.ofSymbol? (String.ofList [c, '=']) with
    | none => rfl
    | some k =>
      have hhead := hpairs _ (Kind.mem_symbols hsymbol)
      rw [String.toList_ofList] at hhead
      exact absurd (GoesOn.equals ((hhead rfl).imp Option.some.inj Option.some.inj)) h
  · exact Kind.ofSymbol?_pair hd

/-- A lexeme is the same one in front of a text that does not go on with it. -/
theorem lexeme_append {c : Char} (hc : isLayout c = false) (cs : List Char) {rest : List Char}
    (hrest : (lexeme c cs).rest = [] → ∀ d, rest.head? = some d → ¬GoesOn (lexeme c cs).text d) :
    lexeme c (cs ++ rest) = { lexeme c cs with rest := (lexeme c cs).rest ++ rest } := by
  by_cases hletter : isLetter c = true
  · rw [lexeme_of_isLetter hletter] at hrest ⊢
    obtain ⟨htake, hdrop⟩ := takeWhile_append_of_head cs fun hnil d hd =>
      Bool.eq_false_iff.2 fun hd' => hrest hnil d hd (GoesOn.letter (forall_mem_run hletter cs) hd')
    rw [lexeme_of_isLetter hletter, htake, hdrop]
  by_cases hdigit : c.isDigit = true
  · rw [lexeme_of_isDigit hdigit] at hrest ⊢
    obtain ⟨htake, hdrop⟩ := takeWhile_append_of_head cs fun hnil d hd =>
      Bool.eq_false_iff.2 fun hd' => hrest hnil d hd (GoesOn.digit (forall_mem_run hdigit cs) hd')
    rw [lexeme_of_isDigit hdigit, htake, hdrop]
  have hmark : isMark c = true :=
    isMark_iff.2 ⟨Bool.eq_false_iff.2 hletter, Bool.eq_false_iff.2 hdigit, hc⟩
  rw [lexeme_of_isMark hmark, symbol?_cons] at hrest ⊢
  rw [lexeme_of_isMark hmark, symbol?_cons]
  cases cs with
  | nil =>
    cases rest with
    | nil =>
      simp only [List.nil_append, List.take_nil, List.drop_nil]
      cases Kind.ofSymbol? (String.ofList [c]) <;> rfl
    | cons d rest =>
      -- the mark is alone, whether it is a symbol or not
      have halone : ¬GoesOn [c] d := by
        cases hsymbol : Kind.ofSymbol? (String.ofList [c]) <;>
        · simp only [List.take_nil, List.drop_nil, hsymbol] at hrest
          exact hrest rfl d rfl
      have hnone := Kind.ofSymbol?_of_not_goesOn halone
      simp only [List.nil_append, List.take_succ_cons, List.take_zero, List.take_nil, hnone]
      cases Kind.ofSymbol? (String.ofList [c]) <;> rfl
  | cons d cs =>
    simp only [List.cons_append, List.take_succ_cons, List.take_zero, List.drop_succ_cons,
      List.drop_zero]
    cases Kind.ofSymbol? (String.ofList [c, d]) with
    | some k => rfl
    | none => cases Kind.ofSymbol? (String.ofList [c]) <;> rfl

end MonkeySyntax
