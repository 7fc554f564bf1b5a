import Mathlib.Data.Nat.Digits.Defs
import MonkeySyntax.Proofs.Munching
import MonkeySyntax.Proofs.Nesting
import MonkeySyntax.Proofs.Spacing
import MonkeySyntax.Proofs.Traversal

namespace MonkeySyntax

open Production

namespace Node

def children : Node → List Node
  | .identifier .. | .integer .. | .boolean .. | .placeholder .. => []
  | .unary _ _ e => [e]
  | .binary _ l _ r => [l, r]
  | .conditional _ c b a => c :: b :: a.toList
  | .function _ ps b => ps ++ [b]
  | .call _ f as => f :: as
  | .letStatement _ x v => [x, v]
  | .returnStatement _ v | .expressionStatement _ v => [v]
  | .block _ ss => ss

def bodies : Node → List Node
  | .conditional _ _ b a => b :: a.toList
  | .function _ _ b => [b]
  | _ => []

theorem partsAll_append (ns ms : List Node) :
    partsAll (ns ++ ms) = partsAll ns ++ partsAll ms := by
  induction ns with
  | nil => rfl
  | cons n ns ih => rw [List.cons_append, partsAll, partsAll, ih, List.append_assoc]

theorem depthOfAll_append (ns ms : List Node) :
    depthOfAll (ns ++ ms) = max (depthOfAll ns) (depthOfAll ms) := by
  induction ns with
  | nil => exact (Nat.zero_max _).symm
  | cons n ns ih => rw [List.cons_append, depthOfAll, depthOfAll, ih, Nat.max_assoc]

theorem parts_eq (n : Node) : n.parts = n :: partsAll n.children := by
  cases n with
  | conditional t c b a => cases a <;> simp [children]
  | function t ps b => simp [children, partsAll_append]
  | _ => simp [children]

theorem depth_eq (n : Node) : n.depth = depthOfAll n.children + 1 := by
  cases n with
  | conditional t c b a => cases a <;> simp [children, depth, depthOfAll, Nat.max_assoc]
  | function t ps b => simp [children, depth, depthOfAll, depthOfAll_append]
  | _ => simp [children, depth, depthOfAll]

theorem depth_lt_of_mem_children {n m : Node} (h : m ∈ n.children) : m.depth < n.depth := by
  rw [depth_eq n]
  exact Nat.lt_succ_of_le (depthOfAll_le_iff.1 (Nat.le_refl _) m h)

/-- What holds of a node whenever it holds of the nodes right below it holds of all nodes. -/
theorem induction_children {P : Node → Prop} (h : ∀ n, (∀ c ∈ n.children, P c) → P n) (n : Node) :
    P n :=
  h n fun c _ => induction_children h c
termination_by n.depth
decreasing_by exact depth_lt_of_mem_children ‹_›

theorem mem_parts {n m : Node} : m ∈ n.parts ↔ m = n ∨ ∃ c ∈ n.children, m ∈ c.parts := by
  rw [parts_eq, List.mem_cons, mem_partsAll]

/-- A node below the root of a tree has a parent in the tree. -/
theorem exists_parent {n m : Node} (hm : m ∈ n.parts) :
    m = n ∨ ∃ q ∈ n.parts, m ∈ q.children := by
  induction n using induction_children with
  | h n ih =>
    refine (mem_parts.1 hm).imp_right ?_
    rintro ⟨c, hc, hmc⟩
    rcases ih c hc hmc with rfl | ⟨q, hq, hmq⟩
    · exact ⟨n, mem_parts.2 (Or.inl rfl), hc⟩
    · exact ⟨q, mem_parts.2 (Or.inr ⟨c, hc, hq⟩), hmq⟩

end Node

def signs : List (String × Kind) := [("!", .bang), ("-", .minus)]

def operators : List (String × Kind) :=
  [("+", .plus), ("-", .minus), ("*", .asterisk), ("/", .slash), ("<", .lt), (">", .gt),
   ("==", .eq), ("!=", .notEq)]

def digitValue (c : Char) : Nat := c.toNat - '0'.toNat

namespace Node

/-- Whether nodes of this form belong to a place. -/
def fits (n : Node) : Place → Bool
  | .expression =>
    match n with
    | .identifier .. | .integer .. | .boolean .. | .unary .. | .binary .. | .conditional ..
    | .function .. | .call .. => true
    | _ => false
  | .name =>
    match n with
    | .identifier .. => true
    | _ => false
  | .statement =>
    match n with
    | .letStatement .. | .returnStatement .. | .expressionStatement .. => true
    | _ => false
  | .block =>
    match n with
    | .block .. => true
    | _ => false

/-- Whether a node agrees with its token and the forms of the nodes right below it belong where
they stand. -/
def IsSound : Node → Prop
  | .identifier t x =>
    t.kind = .ident ∧ x = t.literal ∧ IsWord x.toList ∧ ∀ k, (x, k) ∉ Kind.words
  | .integer t v =>
    t.kind = .int ∧ IsDigits t.literal.toList ∧
      v = (Nat.ofDigits 10 (t.literal.toList.reverse.map digitValue) : Nat) ∧
      0 ≤ v ∧ v ≤ 2 ^ 64 - 1
  | .boolean t v => (v = true ↔ t.kind = .wordTrue) ∧ (v = false ↔ t.kind = .wordFalse)
  | .unary t op e => op = t.literal ∧ (op, t.kind) ∈ signs ∧ e.fits .expression
  | .binary t l op r =>
    op = t.literal ∧ (op, t.kind) ∈ operators ∧ t.kind ∈ Rules.standard.operatorKinds ∧
      l.fits .expression ∧ r.fits .expression
  | .conditional t c b a =>
    t.kind = .wordIf ∧ t.literal = "if" ∧ c.fits .expression ∧ b.fits .block ∧
      ∀ b' ∈ a, b'.fits .block
  | .function t ps b =>
    t.kind = .wordFn ∧ t.literal = "fn" ∧ (∀ p ∈ ps, p.fits .name) ∧ b.fits .block
  | .call t f as =>
    t.kind = .lparen ∧ t.literal = "(" ∧ f.fits .expression ∧ ∀ a ∈ as, a.fits .expression
  | .placeholder _ => False
  | .letStatement t x v =>
    t.kind = .wordLet ∧ t.literal = "let" ∧ x.fits .name ∧ v.fits .expression
  | .returnStatement t v => t.kind = .wordReturn ∧ t.literal = "return" ∧ v.fits .expression
  | .expressionStatement t v => t.kind ∉ [.illegal, .wordLet, .wordReturn] ∧ v.fits .expression
  | .block t ss => t.kind = .lbrace ∧ t.literal = "\x7b" ∧ ∀ s ∈ ss, s.fits .statement

end Node

/-- The value of a numeral is that of its digits, the last one counting once. -/
theorem decimalValue_eq_ofDigits (cs : List Char) :
    decimalValue cs = Nat.ofDigits 10 (cs.reverse.map digitValue) := by
  induction cs using List.reverseRecOn with
  | nil => rfl
  | append_singleton cs c ih =>
    -- the last digit counts once, and each one in front of it ten times what it counted
    calc decimalValue (cs ++ [c])
        = 10 * decimalValue cs + digitValue c := by
          unfold decimalValue
          rw [List.foldl_append]
          rfl
      _ = digitValue c + 10 * Nat.ofDigits 10 (cs.reverse.map digitValue) := by
          rw [ih, Nat.add_comm]
      _ = Nat.ofDigits 10 ((cs ++ [c]).reverse.map digitValue) := by
          rw [List.reverse_append, List.reverse_singleton, List.singleton_append, List.map_cons,
            Nat.ofDigits_cons]

/-- The text of a token is a lexeme of its kind, unless it is illegal. -/
theorem Lexical.isLexeme {k : Kind} {cs : List Char} (h : Lexical k cs) (hk : k ≠ .illegal) :
    IsLexeme cs k := by
  cases h with
  | @word _ cs hcs hletters hword =>
    cases cs with
    | nil => exact absurd rfl hcs
    | cons c cs => exact isLexeme_cons_iff.2 (Or.inl ⟨hletters, hword⟩)
  | numeral hcs hdigits => exact IsLexeme.numeral ⟨hcs, fun c hc => isDigit_iff.1 (hdigits c hc)⟩
  | symbol hsymbol => exact IsLexeme.symbol (Kind.mem_symbols hsymbol)
  | illegal => exact absurd rfl hk

theorem Token.Is.isName {t : Token} (h : t.Is .ident) :
    IsWord t.literal.toList ∧ ∀ k, (t.literal, k) ∉ Kind.words := by
  have hwords : ∀ w ∈ Kind.words, w.2 ≠ .ident := by decide
  have hsymbols : ∀ s ∈ Kind.symbols, s.2 ≠ .ident := by decide
  have hlexical : Lexical .ident t.literal.toList := h.kind_eq ▸ h.isLexical
  cases hlexical.isLexeme (by decide) with
  | reserved hword hk => exact absurd rfl (hwords _ hk)
  | name hword hk =>
    rw [String.ofList_toList] at hk
    exact ⟨hword, hk⟩
  | symbol hk => exact absurd rfl (hsymbols _ hk)

theorem Token.Is.isDigits {t : Token} (h : t.Is .int) : IsDigits t.literal.toList := by
  have hlexical : Lexical .int t.literal.toList := h.kind_eq ▸ h.isLexical
  obtain ⟨hne, hdigits⟩ := hlexical.digits
  exact ⟨hne, fun c hc => isDigit_iff.1 (hdigits c hc)⟩

theorem Token.mem_signs {t : Token} (h : t.Is .bang ∨ t.Is .minus) :
    (t.literal, t.kind) ∈ signs := by
  rcases h with h | h
  · rw [h.kind_eq, h.literal_eq (s := "!") (by decide)]
    decide
  · rw [h.kind_eq, h.literal_eq (s := "-") (by decide)]
    decide

theorem Token.mem_operators {t : Token} (h : t.kind.IsBinary) (ht : t.IsLexical) :
    (t.literal, t.kind) ∈ operators := by
  have hclosed : t.kind ≠ .ident ∧ t.kind ≠ .int ∧ t.kind ≠ .illegal :=
    ⟨h.ne (by decide), h.ne (by decide), h.ne (by decide)⟩
  have hall : ∀ a ∈ Kind.words ++ Kind.symbols, a.2.IsBinary → a ∈ operators := by decide +kernel
  have hmem := ht.mem_tables hclosed
  rw [String.ofList_toList] at hmem
  exact hall _ hmem h

theorem WellFormed.fits {p : Place} {n : Node} (h : WellFormed p n) : n.fits p = true := by
  cases h <;> rfl

/-- What is well-formed is sound, but for what the token of an expression statement is. -/
theorem WellFormed.isSound {p : Place} {n : Node} (h : WellFormed p n)
    (hfirst : ∀ t v, n = .expressionStatement t v → t.kind.StartsExpression) : n.IsSound := by
  cases h with
  | identifier ht | name ht => exact ⟨ht.kind_eq, rfl, ht.isName⟩
  | @integer t ht hd hv =>
    refine ⟨ht.kind_eq, ht.isDigits, congrArg _ (decimalValue_eq_ofDigits _),
      Int.natCast_nonneg _, ?_⟩
    have hle : decimalValue t.literal.toList ≤ 2 ^ 64 - 1 := hv
    omega
  | @boolean t ht =>
    rcases ht with ht | ht
    · have hk := ht.kind_eq
      simp [Node.IsSound, hk]
    · have hk := ht.kind_eq
      simp [Node.IsSound, hk]
  | unary ht he => exact ⟨rfl, Token.mem_signs ht, he.fits⟩
  | binary ht ht' hl hr =>
    exact ⟨rfl, Token.mem_operators ht ht', ht.mem_operatorKinds, hl.fits, hr.fits⟩
  | conditional ht hc hb =>
    exact ⟨ht.kind_eq, ht.literal_eq (by decide), hc.fits, hb.fits, fun b' hb' => nomatch hb'⟩
  | choice ht hc hb ha =>
    refine ⟨ht.kind_eq, ht.literal_eq (by decide), hc.fits, hb.fits, fun b' hb' => ?_⟩
    cases hb'
    exact ha.fits
  | function ht hps hb =>
    exact ⟨ht.kind_eq, ht.literal_eq (by decide), fun p hp => (hps p hp).fits, hb.fits⟩
  | call ht hf has =>
    exact ⟨ht.kind_eq, ht.literal_eq (by decide), hf.fits, fun a ha => (has a ha).fits⟩
  | letStatement ht hx hv =>
    exact ⟨ht.kind_eq, ht.literal_eq (by decide), hx.fits, hv.fits⟩
  | returnStatement ht hv => exact ⟨ht.kind_eq, ht.literal_eq (by decide), hv.fits⟩
  | @expressionStatement t v hv =>
    -- the kinds that the token must not have start no expression
    have hstarts : t.kind.StartsExpression := hfirst t v rfl
    refine ⟨fun hmem => ?_, hv.fits⟩
    revert hstarts
    revert hmem
    cases t.kind <;> decide
  | block ht hss => exact ⟨ht.kind_eq, ht.literal_eq (by decide), fun s hs => (hss s hs).fits⟩

/-- What is spelled by tokens of a text is well-formed at some place. -/
theorem Node.IsSpelled.exists_wellFormed {n : Node} {us : List Token} (h : n.IsSpelled us)
    (hus : ∀ t ∈ us, t.IsLexical) : ∃ p, WellFormed p n := by
  cases n with
  | letStatement t x v =>
    have hs : Spells (.statement (.letStatement t x v)) us := h
    exact ⟨.statement, hs.wellFormed hus⟩
  | returnStatement t v =>
    have hs : Spells (.statement (.returnStatement t v)) us := h
    exact ⟨.statement, hs.wellFormed hus⟩
  | expressionStatement t v =>
    have hs : Spells (.statement (.expressionStatement t v)) us := h
    exact ⟨.statement, hs.wellFormed hus⟩
  | block t ss =>
    have hb : Spells (.block (.block t ss)) us := h
    exact ⟨.block, hb.wellFormed hus⟩
  | _ =>
    obtain ⟨k, he⟩ := h
    exact ⟨.expression, he.wellFormed hus⟩

/-- What tokens of a text spell is sound. -/
theorem Node.IsSpelled.isSound {n : Node} {us : List Token} (h : n.IsSpelled us)
    (hus : ∀ t ∈ us, t.IsLexical) : n.IsSound := by
  obtain ⟨p, hwf⟩ := h.exists_wellFormed hus
  refine hwf.isSound ?_
  -- the token of an expression statement is the first one of its expression
  rintro t v rfl
  have hs : Spells (.statement (.expressionStatement t v)) us := h
  cases hs with
  | expressionStatement he => exact he.startsWith

/-- A node of a program that was read is spelled by tokens of the text. -/
theorem exists_isSpelled_of_mem {limit : Nat} {source : String} {n : Node}
    (hn : n ∈ (parseWithin limit source).program.parts) :
    ∃ us, us <:+: (Cursor.ofString source).rest ∧ n.IsSpelled us := by
  obtain ⟨s, hs, hn⟩ := Node.mem_partsAll.1 hn
  obtain ⟨us, hrow, hspells⟩ := (standIn_of_runFrom limit (.ofString source)).exists_spelled hs
  obtain ⟨vs, hvs, hspelled⟩ := hspells.standsIn hn
  exact ⟨vs, hvs.trans hrow, hspelled⟩

/-- Every node of what is read is sound, also between statements that were given up. -/
theorem isSound_of_mem {limit : Nat} {source : String} {n : Node}
    (hn : n ∈ (parseWithin limit source).program.parts) : n.IsSound := by
  obtain ⟨us, hrow, hspelled⟩ := exists_isSpelled_of_mem hn
  exact hspelled.isSound fun t ht => isLexical_of_mem_lex (hrow.subset ht)

theorem wellFormed_of_mem_statements {limit : Nat} {source : String} {s : Node}
    (hs : s ∈ (parseWithin limit source).program.statements) : WellFormed .statement s := by
  obtain ⟨us, hrow, hspells⟩ := (standIn_of_runFrom limit (.ofString source)).exists_spelled hs
  exact hspells.wellFormed fun t ht => isLexical_of_mem_lex (hrow.subset ht)

theorem fits_of_mem_statements {limit : Nat} {source : String} {s : Node}
    (hs : s ∈ (parseWithin limit source).program.statements) : s.fits .statement = true :=
  (wellFormed_of_mem_statements hs).fits

/-- A block fits where a block has to stand and nowhere else. -/
theorem Node.fits_eq_false {b : Node} (hb : b.fits .block = true) {p : Place} (hp : p ≠ .block) :
    b.fits p = false := by
  cases b with
  | block =>
    cases p with
    | block => exact absurd rfl hp
    | _ => rfl
  | _ => cases hb

/-- A block right below a sound node is one of its bodies. -/
theorem Node.IsSound.mem_bodies {n b : Node} (h : n.IsSound) (hb : b ∈ n.children)
    (hblock : b.fits .block = true) : b ∈ n.bodies := by
  -- everywhere else another form belongs
  have hnot {m : Node} {p : Place} (hm : m.fits p = true) (hp : p ≠ .block) : b ≠ m := by
    rintro rfl
    rw [Node.fits_eq_false hblock hp] at hm
    cases hm
  cases n with
  | identifier | integer | boolean | placeholder => cases hb
  | unary t op e =>
    obtain ⟨-, -, he⟩ := h
    exact absurd (List.mem_singleton.1 hb) (hnot he (by decide))
  | binary t l op r =>
    obtain ⟨-, -, -, hl, hr⟩ := h
    rcases List.mem_pair.1 hb with hb | hb
    · exact absurd hb (hnot hl (by decide))
    · exact absurd hb (hnot hr (by decide))
  | conditional t c b' a =>
    obtain ⟨-, -, hc, -⟩ := h
    exact (List.mem_cons.1 hb).resolve_left (hnot hc (by decide))
  | function t ps b' =>
    obtain ⟨-, -, hps, -⟩ := h
    exact (List.mem_append.1 hb).resolve_left fun hb => hnot (hps b hb) (by decide) rfl
  | call t f as =>
    obtain ⟨-, -, hf, has⟩ := h
    rcases List.mem_cons.1 hb with hb | hb
    · exact absurd hb (hnot hf (by decide))
    · exact absurd rfl (hnot (has b hb) (by decide))
  | letStatement t x v =>
    obtain ⟨-, -, hx, hv⟩ := h
    rcases List.mem_pair.1 hb with hb | hb
    · exact absurd hb (hnot hx (by decide))
    · exact absurd hb (hnot hv (by decide))
  | returnStatement t v =>
    obtain ⟨-, -, hv⟩ := h
    exact absurd (List.mem_singleton.1 hb) (hnot hv (by decide))
  | expressionStatement t v =>
    obtain ⟨-, hv⟩ := h
    exact absurd (List.mem_singleton.1 hb) (hnot hv (by decide))
  | block t ss =>
    obtain ⟨-, -, hss⟩ := h
    exact absurd rfl (hnot (hss b hb) (by decide))

/-- What is read from a text, with or without defects, is made of sound nodes that keep tokens of
the text. The program is a list of statements, and blocks are bodies of other nodes. -/
theorem isSound_of_parse (limit : Nat) (source : String) :
    (∀ s ∈ (parseWithin limit source).program.statements, s.fits .statement = true) ∧
      ∀ n ∈ (parseWithin limit source).program.parts, n.token ∈ tokenize source ∧ n.IsSound ∧
        (n.fits .block = true → ∃ q ∈ (parseWithin limit source).program.parts, n ∈ q.bodies) := by
  refine ⟨fun s hs => fits_of_mem_statements hs, fun n hn => ?_⟩
  refine ⟨(mem_tokenize_of_read limit source).1 n hn, isSound_of_mem hn, fun hblock => ?_⟩
  obtain ⟨s, hs, hns⟩ := Node.mem_partsAll.1 hn
  rcases Node.exists_parent hns with rfl | ⟨q, hq, hnq⟩
  · -- the statement itself is none
    have hstatement := fits_of_mem_statements hs
    rw [Node.fits_eq_false hblock (by decide)] at hstatement
    cases hstatement
  · have hmem : q ∈ (parseWithin limit source).program.parts :=
      Node.mem_partsAll.2 ⟨s, hs, hq⟩
    exact ⟨q, hmem, (isSound_of_mem hmem).mem_bodies hnq hblock⟩

end MonkeySyntax
