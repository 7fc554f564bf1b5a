import MonkeySyntax.Proofs.Legible

namespace MonkeySyntax

namespace Node

mutual

/-- The tokens of the canonical text of a node, without places. -/
def row : Node → List Token
  | .identifier t _ | .integer t _ | .boolean t _ | .placeholder t => [t.bare]
  | .unary t _ e => ⟨.lparen, "(", .nowhere⟩ :: t.bare :: (e.row ++ [⟨.rparen, ")", .nowhere⟩])
  | .binary t l _ r =>
    ⟨.lparen, "(", .nowhere⟩ :: (l.row ++ t.bare :: (r.row ++ [⟨.rparen, ")", .nowhere⟩]))
  | .conditional t c b none => t.bare :: (c.row ++ b.row)
  | .conditional t c b (some a) =>
    t.bare :: (c.row ++ (b.row ++ ⟨.wordElse, "else", .nowhere⟩ :: a.row))
  | .function t ps b =>
    t.bare :: ⟨.lparen, "(", .nowhere⟩ :: (itemRow ps ++ ⟨.rparen, ")", .nowhere⟩ :: b.row)
  | .call t f as => f.row ++ t.bare :: (itemRow as ++ [⟨.rparen, ")", .nowhere⟩])
  | .letStatement t x v =>
    t.bare :: (x.row ++ ⟨.assign, "=", .nowhere⟩ :: (v.row ++ [⟨.semicolon, ";", .nowhere⟩]))
  | .returnStatement t v => t.bare :: (v.row ++ [⟨.semicolon, ";", .nowhere⟩])
  | .expressionStatement _ v => v.row
  | .block t ss => t.bare :: (rows ss ++ [⟨.rbrace, "\x7d", .nowhere⟩])

def rows : List Node → List Token
  | [] => []
  | s :: ss => s.row ++ rows ss

def itemRow : List Node → List Token
  | [] => []
  | n :: ns => n.row ++ furtherRow ns

def furtherRow : List Node → List Token
  | [] => []
  | n :: ns => ⟨.comma, ",", .nowhere⟩ :: (n.row ++ furtherRow ns)

end

end Node

theorem bounds_flatMap {c : Char} (hc : isLetter c = false ∧ c.isDigit = false ∧ c ≠ '=')
    (cs : List Char) (ts : List String) :
    Bounds (ts.flatMap fun u => c :: (cs ++ u.toList)) := by
  cases ts with
  | nil => exact bounds_nil
  | cons t ts => exact bounds_cons hc _

theorem cutInto_furtherRow {ns : List Node} (hns : ∀ n ∈ ns, CutInto n.row n.text.toList) :
    CutInto (Node.furtherRow ns)
      ((Node.texts ns).flatMap fun u => ',' :: ([' '] ++ u.toList)) := by
  induction ns with
  | nil => exact cutInto_nil
  | cons n ns ih =>
    obtain ⟨hn, hns⟩ := List.forall_mem_cons.1 hns
    -- a comma, a space, the text of the item and the items behind it
    have hitem := hn.append (ih hns) (bounds_flatMap (by decide) [' '] _)
    exact hitem.space.mark (c := ',') (k := .comma) (by decide) (noEquals_cons (by decide) _)

theorem cutInto_itemRow {ns : List Node} (hns : ∀ n ∈ ns, CutInto n.row n.text.toList) :
    CutInto (Node.itemRow ns) (", ".intercalate (Node.texts ns)).toList := by
  cases ns with
  | nil => exact cutInto_nil
  | cons n ns =>
    obtain ⟨hn, hns⟩ := List.forall_mem_cons.1 hns
    rw [Node.texts, toList_intercalate]
    exact hn.append (cutInto_furtherRow hns) (bounds_flatMap (by decide) [' '] _)

theorem cutInto_layout_rows {c : Char} (hc : c = ' ' ∨ c = '\n') {ss : List Node}
    (hss : ∀ s ∈ ss, CutInto s.row s.text.toList) :
    CutInto (Node.rows ss) ((Node.texts ss).flatMap fun u => c :: ([] ++ u.toList)) := by
  have hlayout : isLayout c = true := by
    rcases hc with rfl | rfl <;> decide
  have hbound : isLetter c = false ∧ c.isDigit = false ∧ c ≠ '=' := by
    rcases hc with rfl | rfl <;> decide
  induction ss with
  | nil => exact cutInto_nil
  | cons s ss ih =>
    obtain ⟨hs, hss⟩ := List.forall_mem_cons.1 hss
    exact (hs.append (ih hss) (bounds_flatMap hbound [] _)).layout hlayout

theorem cutInto_rows {c : Char} (hc : c = ' ' ∨ c = '\n') {ss : List Node}
    (hss : ∀ s ∈ ss, CutInto s.row s.text.toList) :
    CutInto (Node.rows ss) ((String.ofList [c]).intercalate (Node.texts ss)).toList := by
  cases ss with
  | nil => exact cutInto_nil
  | cons s ss =>
    obtain ⟨hs, hss⟩ := List.forall_mem_cons.1 hss
    have hbound : isLetter c = false ∧ c.isDigit = false ∧ c ≠ '=' := by
      rcases hc with rfl | rfl <;> decide
    rw [Node.texts, toList_intercalate, String.toList_ofList]
    exact hs.append (cutInto_layout_rows hc hss) (bounds_flatMap hbound [] _)

theorem cutInto_unary {t : Token} {e : Node} (ht : t.Is .bang ∨ t.Is .minus)
    (he : WellFormed .expression e) (ih : CutInto e.row e.text.toList) :
    CutInto (Node.unary t t.literal e).row (Node.unary t t.literal e).text.toList := by
  have hliteral : t.literal = "!" ∧ t.kind = .bang ∨ t.literal = "-" ∧ t.kind = .minus :=
    ht.imp (fun ht => ⟨ht.literal_eq (by decide), ht.kind_eq⟩)
      (fun ht => ⟨ht.literal_eq (by decide), ht.kind_eq⟩)
  have hsymbol : Kind.ofSymbol? t.literal = some t.kind := by
    rcases hliteral with ⟨hs, hk⟩ | ⟨hs, hk⟩ <;> rw [hs, hk] <;> decide
  have hsign (cs : List Char) : NoEquals (t.literal.toList ++ cs) := by
    rcases hliteral with ⟨hs, -⟩ | ⟨hs, -⟩ <;> rw [hs] <;> exact noEquals_cons (by decide) cs
  have htext : (Node.unary t t.literal e).text.toList =
      '(' :: (t.literal.toList ++ (e.text.toList ++ [')'])) := by
    simp [Node.text]
  have hclose := ih.append (cutInto_mark (c := ')') (k := .rparen) (by decide))
    (bounds_cons (by decide) _)
  have hsigned := hclose.symbol hsymbol (he.noEquals (Or.inl rfl) _)
  rw [htext]
  exact hsigned.mark (c := '(') (k := .lparen) (by decide) (hsign _)

theorem cutInto_binary {t : Token} {l r : Node} (ht : t.kind.IsBinary) (ht' : t.IsLexical)
    (hl : WellFormed .expression l) (ihl : CutInto l.row l.text.toList)
    (ihr : CutInto r.row r.text.toList) :
    CutInto (Node.binary t l t.literal r).row (Node.binary t l t.literal r).text.toList := by
  have hk : t.kind ≠ .illegal := ht.ne (by decide)
  have htext : (Node.binary t l t.literal r).text.toList =
      '(' :: (l.text.toList ++ ' ' :: (t.literal.toList ++ ' ' :: (r.text.toList ++ [')']))) := by
    simp [Node.text]
  have hright := (ihr.append (cutInto_mark (c := ')') (k := .rparen) (by decide))
    (bounds_cons (by decide) _)).space
  have hoperator := (hright.literal ht' hk (bounds_cons (by decide) _)).space
  have hleft := ihl.append hoperator (bounds_cons (by decide) _)
  rw [htext]
  exact hleft.mark (c := '(') (k := .lparen) (by decide) (hl.noEquals (Or.inl rfl) _)

theorem isLexical_else : (⟨.wordElse, "else", .nowhere⟩ : Token).IsLexical :=
  Lexical.word (by decide) (List.all_eq_true.1 (by decide)) (by decide)

theorem cutInto_conditional {t : Token} {c b : Node} (ht : t.Is .wordIf)
    (ihc : CutInto c.row c.text.toList) (ihb : CutInto b.row b.text.toList) :
    CutInto (Node.conditional t c b none).row (Node.conditional t c b none).text.toList := by
  -- no parentheses are written around the condition
  have htext : (Node.conditional t c b none).text.toList =
      t.literal.toList ++ ' ' :: (c.text.toList ++ ' ' :: b.text.toList) := by
    rw [ht.literal_eq (s := "if") (by decide)]
    simp [Node.text]
  have hcondition := (ihc.append ihb.space (bounds_cons (by decide) _)).space
  rw [htext]
  exact hcondition.word ht (by decide) (bounds_cons (by decide) _)

theorem cutInto_choice {t : Token} {c b a : Node} (ht : t.Is .wordIf)
    (ihc : CutInto c.row c.text.toList) (ihb : CutInto b.row b.text.toList)
    (iha : CutInto a.row a.text.toList) :
    CutInto (Node.conditional t c b (some a)).row
      (Node.conditional t c b (some a)).text.toList := by
  have htext : (Node.conditional t c b (some a)).text.toList =
      t.literal.toList ++ ' ' :: (c.text.toList ++ ' ' :: (b.text.toList ++
        ' ' :: ("else".toList ++ ' ' :: a.text.toList))) := by
    rw [ht.literal_eq (s := "if") (by decide)]
    simp [Node.text]
  have helse := (iha.space.literal isLexical_else (by decide) (bounds_cons (by decide) _)).space
  have hblocks := (ihb.append helse (bounds_cons (by decide) _)).space
  have hcondition := (ihc.append hblocks (bounds_cons (by decide) _)).space
  rw [htext]
  exact hcondition.word ht (by decide) (bounds_cons (by decide) _)

theorem cutInto_function {t : Token} {ps : List Node} {b : Node} (ht : t.Is .wordFn)
    (hps : ∀ p ∈ ps, WellFormed .name p) (ihps : ∀ p ∈ ps, CutInto p.row p.text.toList)
    (ihb : CutInto b.row b.text.toList) :
    CutInto (Node.function t ps b).row (Node.function t ps b).text.toList := by
  have htext : (Node.function t ps b).text.toList =
      t.literal.toList ++ '(' :: ((", ".intercalate (Node.texts ps)).toList ++
        ')' :: ' ' :: b.text.toList) := by
    simp [Node.text]
  have hclose := ihb.space.mark (c := ')') (k := .rparen) (by decide) (noEquals_cons (by decide) _)
  have hlist := ((cutInto_itemRow ihps).append hclose (bounds_cons (by decide) _)).mark
    (c := '(') (k := .lparen) (by decide) (noEquals_texts hps (Or.inr rfl) (by decide) _ _)
  rw [htext]
  exact hlist.word ht (by decide) (bounds_cons (by decide) _)

theorem cutInto_call {t : Token} {f : Node} {as : List Node} (ht : t.Is .lparen)
    (has : ∀ a ∈ as, WellFormed .expression a) (ihf : CutInto f.row f.text.toList)
    (ihas : ∀ a ∈ as, CutInto a.row a.text.toList) :
    CutInto (Node.call t f as).row (Node.call t f as).text.toList := by
  have hliteral : t.literal = "(" := ht.literal_eq (by decide)
  have hsymbol : Kind.ofSymbol? t.literal = some t.kind := by
    rw [hliteral, ht.kind_eq]
    decide
  have htext : (Node.call t f as).text.toList =
      f.text.toList ++
        (t.literal.toList ++ ((", ".intercalate (Node.texts as)).toList ++ [')'])) := by
    rw [hliteral]
    simp [Node.text]
  have hclose := (cutInto_itemRow ihas).append (cutInto_mark (c := ')') (k := .rparen) (by decide))
    (bounds_cons (by decide) _)
  have hlist := hclose.symbol hsymbol (noEquals_texts has (Or.inl rfl) (by decide) _ _)
  have hbounds (cs : List Char) : Bounds (t.literal.toList ++ cs) := by
    rw [hliteral]
    exact bounds_cons (by decide) cs
  -- the parenthesis of the call bounds the callee
  rw [htext]
  exact ihf.append hlist (hbounds _)

theorem cutInto_letStatement {t : Token} {x v : Node} (ht : t.Is .wordLet)
    (ihx : CutInto x.row x.text.toList) (ih : CutInto v.row v.text.toList) :
    CutInto (Node.letStatement t x v).row (Node.letStatement t x v).text.toList := by
  have htext : (Node.letStatement t x v).text.toList =
      t.literal.toList ++ ' ' :: (x.text.toList ++ ' ' :: '=' :: ' ' ::
        (v.text.toList ++ [';'])) := by
    simp [Node.text]
  have hvalue := (ih.append (cutInto_mark (c := ';') (k := .semicolon) (by decide))
    (bounds_cons (by decide) _)).space
  have hassign := (hvalue.mark (c := '=') (k := .assign) (by decide)
    (noEquals_cons (by decide) _)).space
  have hname := (ihx.append hassign (bounds_cons (by decide) _)).space
  rw [htext]
  exact hname.word ht (by decide) (bounds_cons (by decide) _)

theorem cutInto_returnStatement {t : Token} {v : Node} (ht : t.Is .wordReturn)
    (ih : CutInto v.row v.text.toList) :
    CutInto (Node.returnStatement t v).row (Node.returnStatement t v).text.toList := by
  have htext : (Node.returnStatement t v).text.toList =
      t.literal.toList ++ ' ' :: (v.text.toList ++ [';']) := by
    simp [Node.text]
  have hvalue := (ih.append (cutInto_mark (c := ';') (k := .semicolon) (by decide))
    (bounds_cons (by decide) _)).space
  rw [htext]
  exact hvalue.word ht (by decide) (bounds_cons (by decide) _)

theorem cutInto_block {t : Token} {ss : List Node} (ht : t.Is .lbrace)
    (hss : ∀ s ∈ ss, CutInto s.row s.text.toList) :
    CutInto (Node.block t ss).row (Node.block t ss).text.toList := by
  have htext : (Node.block t ss).text.toList =
      t.literal.toList ++ ' ' :: ((" ".intercalate (Node.texts ss)).toList ++ [' ', '\x7d']) := by
    rw [ht.literal_eq (s := "\x7b") (by decide)]
    simp [Node.text]
  have hclose := (cutInto_mark (c := '\x7d') (k := .rbrace) (by decide)).space
  have hbody := ((cutInto_rows (Or.inl rfl) hss).append hclose (bounds_cons (by decide) _)).space
  rw [htext]
  exact hbody.word ht (by decide) (bounds_cons (by decide) _)

/-- The text of a tree is cut into the row of the tree. -/
theorem WellFormed.cutInto {l : Place} {n : Node} (h : WellFormed l n) :
    CutInto n.row n.text.toList := by
  induction h with
  | identifier ht | integer ht | name ht => exact ht.cutInto (by decide)
  | boolean ht => rcases ht with ht | ht <;> exact ht.cutInto (by decide)
  | unary ht he ih => exact cutInto_unary ht he ih
  | binary ht ht' hl hr ihl ihr => exact cutInto_binary ht ht' hl ihl ihr
  | conditional ht hc hb ihc ihb => exact cutInto_conditional ht ihc ihb
  | choice ht hc hb ha ihc ihb iha => exact cutInto_choice ht ihc ihb iha
  | function ht hps hb ihps ihb => exact cutInto_function ht hps ihps ihb
  | call ht hf has ihf ihas => exact cutInto_call ht has ihf ihas
  | letStatement ht hx hv ihx ihv => exact cutInto_letStatement ht ihx ihv
  | returnStatement ht hv ih => exact cutInto_returnStatement ht ih
  | expressionStatement hv ih => exact ih
  | block ht hss ih => exact cutInto_block ht ih

/-- The tokens of the text of a program. -/
theorem map_bare_rest_text {p : Program} (hp : ∀ s ∈ p.statements, WellFormed .statement s) :
    (Cursor.ofString p.text).rest.map Token.bare = Node.rows p.statements := by
  -- the whole text stands in front of the end, which is a boundary
  have hcut := cutInto_rows (Or.inr rfl) fun s hs => (hp s hs).cutInto
  obtain ⟨us, q, hus, hrow⟩ := hcut .start [] boundary_nil
  have htokens : (lex q []).tokens = [] := by rw [lex]
  unfold Cuts at hus
  rw [List.append_nil, htokens, List.append_nil] at hus
  have hrest : (Cursor.ofString p.text).rest = us := hus
  rw [hrest]
  exact hrow

theorem nextKind_map_bare (us : List Token) : nextKind (us.map Token.bare) = nextKind us := by
  cases us <;> rfl

def Node.opening : Node → Kind
  | .identifier .. => .ident
  | .integer .. => .int
  | .boolean t _ | .placeholder t => t.kind
  | .unary .. | .binary .. => .lparen
  | .conditional .. => .wordIf
  | .function .. => .wordFn
  | .call _ f _ => f.opening
  | .letStatement .. => .wordLet
  | .returnStatement .. => .wordReturn
  | .expressionStatement _ v => v.opening
  | .block .. => .lbrace

theorem WellFormed.nextKind_row {l : Place} {n : Node} (h : WellFormed l n) (ts : List Token) :
    nextKind (n.row ++ ts) = n.opening := by
  induction h generalizing ts with
  | identifier ht | integer ht | conditional ht | choice ht | function ht | name ht
  | letStatement ht | returnStatement ht | block ht => exact ht.kind_eq
  | boolean | unary | binary => rfl
  | call _ _ _ ih =>
    rw [Node.row, List.append_assoc]
    exact ih _
  | expressionStatement _ ih => exact ih ts

/-- The row of an expression starts with no sign, and with a parenthesis if what stands first in it
is an operation. -/
theorem WellFormed.opening_of_expression {l : Place} {n : Node} (h : WellFormed l n)
    (hl : l = .expression) :
    n.opening ∈ [Kind.ident, .int, .wordTrue, .wordFalse, .lparen, .wordIf, .wordFn] ∧
      (n.opening = .lparen ↔ n.leftmost.isOperation = true) := by
  induction h with
  | identifier | integer | conditional | choice | function | unary | binary =>
    simp [Node.opening, Node.leftmost, Node.isOperation]
  | boolean ht =>
    rcases ht with ht | ht <;>
      simp [Node.opening, Node.leftmost, Node.isOperation, ht.kind_eq]
  | call ht hf has ih => exact ih rfl
  | name | letStatement | returnStatement | expressionStatement | block => cases hl

theorem WellFormed.nextKind_block {b : Node} (h : WellFormed .block b) :
    nextKind b.row = .lbrace := by
  cases h with
  | block ht => exact ht.kind_eq

/-- An expression goes on with the statement behind it if it takes it in. -/
theorem WellFormed.nextKind_rows {t : Token} {e s : Node} (h : WellFormed .statement s)
    (ss : List Node) :
    (nextKind (Node.rows (s :: ss)) = .lparen ↔
        Node.takesIn (.expressionStatement t e) s = true) ∧
      nextKind (Node.rows (s :: ss)) ≠ .minus := by
  have hword {u : Token} {k : Kind} {us : List Token} (hu : u.Is k)
      (hk : k ≠ .lparen ∧ k ≠ .minus) : nextKind (u.bare :: us) ≠ .lparen ∧
        nextKind (u.bare :: us) ≠ .minus := by
    have hkind : nextKind (u.bare :: us) = k := hu.kind_eq
    rw [hkind]
    exact hk
  cases h with
  | letStatement hu | returnStatement hu =>
    obtain ⟨hparen, hminus⟩ := hword hu (by decide)
    exact ⟨⟨fun h => absurd h hparen, nofun⟩, hminus⟩
  | expressionStatement he =>
    obtain ⟨hmem, hparen⟩ := he.opening_of_expression rfl
    have hkind := he.nextKind_row (Node.rows ss)
    refine ⟨(hkind ▸ hparen).trans he.takesIn_iff.symm, fun hminus => ?_⟩
    rw [← hkind] at hmem
    rw [Node.rows, Node.row] at hminus
    rw [hminus] at hmem
    exact absurd hmem (by decide)

end MonkeySyntax
