import MonkeySyntax.Proofs.Anatomy
import MonkeySyntax.Proofs.Lines
import MonkeySyntax.Proofs.Settling
import MonkeySyntax.Tree.Text

namespace MonkeySyntax

open Production

def isCanonical (c : Char) : Bool :=
  isLetter c || c.isDigit || " =+-!*/<>,;()\x7b\x7d".toList.contains c

abbrev IsCanonical : String → Prop := MadeOf fun c => isCanonical c

theorem toNat_between {a b c : Char} (h : a ≤ c ∧ c ≤ b) (ha : 0x20 ≤ a.toNat)
    (hb : b.toNat < 0x7F) : 0x20 ≤ c.toNat ∧ c.toNat < 0x7F := by
  have hvalues : a.toNat ≤ c.toNat ∧ c.toNat ≤ b.toNat := by
    simp only [Char.le_def, UInt32.le_iff_toNat_le] at h
    exact h
  omega

/-- The characters of canonical texts are ASCII characters that show. -/
theorem isCanonical_bounds {c : Char} (h : isCanonical c) : 0x20 ≤ c.toNat ∧ c.toNat < 0x7F := by
  have hsigns : MadeOf (fun d => 0x20 ≤ d.toNat ∧ d.toNat < 0x7F) " =+-!*/<>,;()\x7b\x7d" := by
    decide
  rw [isCanonical, Bool.or_eq_true, Bool.or_eq_true] at h
  rcases h with (hletter | hdigit) | hsign
  · rcases isLetter_iff.mp hletter with hlower | hupper | rfl
    · exact toNat_between hlower (by decide) (by decide)
    · exact toNat_between hupper (by decide) (by decide)
    · decide
  · exact toNat_between (isDigit_iff.mp hdigit) (by decide) (by decide)
  · apply hsigns
    exact List.contains_iff_mem.mp hsign

theorem IsCanonical.allPrintable {s : String} (h : IsCanonical s) : AllPrintable s := by
  refine h.mono fun c hc => ?_
  have hbounds := isCanonical_bounds hc
  rw [isPrintable, if_pos hbounds.2]
  exact decide_eq_true hbounds.1

/-- A lexeme that fits a rule is written in canonical characters. -/
theorem Lexical.isCanonical {k : Kind} {cs : List Char} (h : Lexical k cs) (hk : k ≠ .illegal) :
    ∀ c ∈ cs, isCanonical c := by
  cases h with
  | word hcs hletters hword =>
    intro c hc
    simp [MonkeySyntax.isCanonical, hletters c hc]
  | numeral hcs hdigits =>
    intro c hc
    simp [MonkeySyntax.isCanonical, hdigits c hc]
  | symbol hsymbol =>
    have hsymbols : ∀ a ∈ Kind.symbols, IsCanonical a.1 := by decide
    have htext := hsymbols _ (Kind.mem_symbols hsymbol)
    intro c hc
    apply htext
    rw [String.toList_ofList]
    exact hc
  | illegal => contradiction

theorem Token.Is.isCanonical {t : Token} {k : Kind} (h : t.Is k) (hk : k ≠ .illegal) :
    IsCanonical t.literal := by
  have hlexical : Lexical k t.literal.toList := h.kind_eq ▸ h.isLexical
  exact hlexical.isCanonical hk

/-- The text of a well-formed tree is canonical. -/
theorem WellFormed.isCanonical_text {p : Place} {n : Node} (h : WellFormed p n) :
    IsCanonical n.text := by
  -- between the texts of its children, a node has the text of its token and some that are fixed
  have hcomma : IsCanonical ", " := by decide
  have hspace : IsCanonical " " := by decide
  have hopen : IsCanonical "(" := by decide
  have hclose : IsCanonical ")" := by decide
  have hend : IsCanonical ";" := by decide
  have hlist {sep : String} (hsep : IsCanonical sep) {ns : List Node}
      (hns : ∀ m ∈ ns, IsCanonical m.text) : IsCanonical (sep.intercalate (Node.texts ns)) := by
    rw [Node.texts_eq_map]
    apply hsep.intercalate
    exact List.forall_mem_map.mpr hns
  induction h with
  | identifier ht | name ht => exact ht.isCanonical (by decide)
  | integer ht hdigits hv => exact ht.isCanonical (by decide)
  | boolean ht =>
    rcases ht with ht | ht <;> exact ht.isCanonical (by decide)
  | unary ht he ih =>
    have hsign : IsCanonical _ := ht.elim (·.isCanonical (by decide)) (·.isCanonical (by decide))
    rw [Node.text]
    exact ((hopen.append hsign).append ih).append hclose
  | binary ht ht' hl hr ihl ihr =>
    have hsign : IsCanonical _ := Lexical.isCanonical ht' (ht.ne (by decide))
    have hleft := ((hopen.append ihl).append hspace).append hsign
    rw [Node.text]
    exact ((hleft.append hspace).append ihr).append hclose
  | conditional ht hc hb ihc ihb =>
    have hif : IsCanonical "if " := by decide
    rw [Node.text]
    exact ((hif.append ihc).append hspace).append ihb
  | choice ht hc hb ha ihc ihb iha =>
    have hif : IsCanonical "if " := by decide
    have helse : IsCanonical " else " := by decide
    rw [Node.text]
    exact ((((hif.append ihc).append hspace).append ihb).append helse).append iha
  | function ht hps hb ihps ihb =>
    have hword : IsCanonical _ := ht.isCanonical (by decide)
    have hbody : IsCanonical ") " := by decide
    rw [Node.text]
    exact (((hword.append hopen).append (hlist hcomma ihps)).append hbody).append ihb
  | call ht hf has ihf ihas =>
    rw [Node.text]
    exact ((ihf.append hopen).append (hlist hcomma ihas)).append hclose
  | letStatement ht hx hv ihx ihv =>
    have hword : IsCanonical _ := ht.isCanonical (by decide)
    have hassign : IsCanonical " = " := by decide
    rw [Node.text]
    exact ((((hword.append hspace).append ihx).append hassign).append ihv).append hend
  | returnStatement ht hv ihv =>
    have hword : IsCanonical _ := ht.isCanonical (by decide)
    rw [Node.text]
    exact ((hword.append hspace).append ihv).append hend
  | expressionStatement hv ihv => exact ihv
  | block ht hss ih =>
    have hbegin : IsCanonical "\x7b " := by decide
    have hfinish : IsCanonical " \x7d" := by decide
    rw [Node.text]
    exact (hbegin.append (hlist hspace ih)).append hfinish

theorem isCanonical_of_mem_statements {limit : Nat} {source : String} {s : Node}
    (hs : s ∈ (parseWithin limit source).statements) : IsCanonical s.text :=
  (wellFormed_of_mem_statements hs).isCanonical_text

/-- A token whose value is too great is an integer of the text. -/
theorem is_int_of_outOfRange {limit : Nat} {source : String} {t : Token}
    (h : .integerOutOfRange t ∈ (parseWithin limit source).defects) : t.Is .int := by
  obtain ⟨b, d, hreach, hfault⟩ :=
    exists_fault_of_mem_defects (forward_statementWithin .standard limit) h
  have hsettled := settled_statementWithin limit b
  rw [hfault] at hsettled
  obtain ⟨-, ⟨rfl, hkind, -⟩, -⟩ := hsettled
  -- the fault lies at the token on which reading stopped, and this is one of the text
  have hreach' := hreach.trans ((forward_statementWithin .standard limit).error hfault).1
  have hmem : d.current ∈ (Cursor.ofString source).rest := by
    apply hreach'.suffix.mem
    exact current_mem_rest (by rw [hkind]; decide)
  exact ⟨hkind, isLexical_of_mem_lex hmem⟩

theorem Token.allPrintable_describe (t : Token) : AllPrintable t.describe := by
  unfold describe
  split
  · decide +kernel
  · exact allPrintable_quoted t.literal

/-- A message is printable if the literal that it shows without quotes is. -/
theorem Defect.allPrintable_message {e : Defect}
    (h : ∀ t, e = .integerOutOfRange t → AllPrintable t.literal) : AllPrintable e.message := by
  cases e with
  | unexpected wanted found =>
    have hfront : AllPrintable "expected next token to be " := by decide +kernel
    have hmiddle : AllPrintable ", got " := by decide +kernel
    have hback : AllPrintable " instead" := by decide +kernel
    have hwanted := (hfront.append wanted.allPrintable_name).append hmiddle
    exact (hwanted.append found.allPrintable_describe).append hback
  | noOperand found =>
    have hfront : AllPrintable "no prefix parse function for " := by decide +kernel
    have hmiddle : AllPrintable " (" := by decide +kernel
    have hback : AllPrintable ") found" := by decide +kernel
    have hkind := (hfront.append found.kind.allPrintable_name).append hmiddle
    exact (hkind.append found.allPrintable_describe).append hback
  | unterminatedBlock brace =>
    change AllPrintable "unterminated block: expected RBRACE, got end of input"
    decide +kernel
  | malformedInteger t =>
    have hfront : AllPrintable "could not parse " := by decide +kernel
    have hback : AllPrintable " as integer" := by decide +kernel
    exact (hfront.append (allPrintable_quoted t.literal)).append hback
  | integerOutOfRange t =>
    have hfront : AllPrintable "integer literal " := by decide +kernel
    have hmiddle : AllPrintable " is out of range (max " := by decide +kernel
    have hback : AllPrintable ")" := by decide +kernel
    -- the only literal that a message shows as it is
    have hliteral := (hfront.append (h t rfl)).append hmiddle
    exact (hliteral.append (allPrintable_repr maxInteger)).append hback
  | nestedTooDeeply =>
    change AllPrintable "expression nested too deeply"
    decide +kernel

theorem Diagnostic.allPrintable_text {d : Diagnostic} (h : AllPrintable d.message) :
    AllPrintable d.text := by
  unfold text
  split
  · exact h
  · have hline : AllPrintable " (line " := by decide +kernel
    have hcol : AllPrintable ", col " := by decide +kernel
    have hback : AllPrintable ")" := by decide +kernel
    have hfront := (h.append hline).append (allPrintable_toString d.position.line)
    exact ((hfront.append hcol).append (allPrintable_toString d.position.column)).append hback

/-- Every defect of a text is reported in printable characters. -/
theorem allPrintable_of_mem_defects {limit : Nat} {source : String} {e : Defect}
    (he : e ∈ (parseWithin limit source).defects) : AllPrintable e.text := by
  apply Diagnostic.allPrintable_text
  apply Defect.allPrintable_message
  rintro t rfl
  exact ((is_int_of_outOfRange he).isCanonical (by decide)).allPrintable

end MonkeySyntax
