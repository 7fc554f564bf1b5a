import MonkeySyntax.Proofs.WellFormed

namespace MonkeySyntax

/-- From the text `cs` at `p` on, the tokens `us` are cut off, and the text `ds` at `q` is left. -/
def Cuts (p : Position) (cs : List Char) (us : List Token) (q : Position) (ds : List Char) : Prop :=
  (lex p cs).tokens = us ++ (lex q ds).tokens

section

variable {p q r : Position} {cs ds es rest : List Char} {us vs : List Token}

theorem Cuts.refl (p : Position) (cs : List Char) : Cuts p cs [] p cs := rfl

theorem Cuts.trans (h : Cuts p cs us q ds) (h' : Cuts q ds vs r es) :
    Cuts p cs (us ++ vs) r es := by
  unfold Cuts at h h' ⊢
  rw [h, h', List.append_assoc]

theorem Cuts.layout {c : Char} (hc : isLayout c = true) (h : Cuts (p.next c) cs us q ds) :
    Cuts p (c :: cs) us q ds := by
  unfold Cuts
  rw [lex, if_pos hc]
  exact h

/-- A lexeme at the front is cut off as one token. -/
theorem Cuts.of_lexeme {k : Kind} {rest : List Char}
    (hcs : ∃ c cs', cs = c :: cs' ∧ isLayout c = false ∧ lexeme c (cs' ++ rest) = ⟨k, cs, rest⟩)
    (h : Cuts (p.past cs) rest us q ds) :
    Cuts p (cs ++ rest) (⟨k, String.ofList cs, p⟩ :: us) q ds := by
  obtain ⟨c, cs', rfl, hc, hlexeme⟩ := hcs
  unfold Cuts
  rw [List.cons_append, lex, if_neg (by rw [hc]; decide), hlexeme]
  exact congrArg _ h

/-- The literal of a token is cut off as this token, at another place. -/
theorem Cuts.literal {t : Token} (ht : t.IsLexical) (hk : t.kind ≠ .illegal)
    (hrest : Boundary rest) (h : Cuts (p.past t.literal.toList) rest us q ds) :
    Cuts p (t.literal.toList ++ rest) ({ t with position := p } :: us) q ds := by
  have hcut := Cuts.of_lexeme (lexeme_of_lexical ht hk hrest) h
  rw [String.ofList_toList] at hcut
  exact hcut

/-- The literal of a symbol is cut off whatever follows, but for an equals sign. -/
theorem Cuts.symbol {t : Token} (ht : Kind.ofSymbol? t.literal = some t.kind)
    (hrest : rest.head? ≠ some '=') (h : Cuts (p.past t.literal.toList) rest us q ds) :
    Cuts p (t.literal.toList ++ rest) ({ t with position := p } :: us) q ds := by
  have ht' : Kind.ofSymbol? (String.ofList t.literal.toList) = some t.kind := by
    rw [String.ofList_toList]
    exact ht
  have hcut := Cuts.of_lexeme (lexeme_of_symbol ht' hrest) h
  rw [String.ofList_toList] at hcut
  exact hcut

theorem Cuts.mark {c : Char} {k : Kind} (hc : Kind.ofSymbol? (String.ofList [c]) = some k)
    (hrest : rest.head? ≠ some '=') (h : Cuts (p.past [c]) rest us q ds) :
    Cuts p (c :: rest) (⟨k, String.ofList [c], p⟩ :: us) q ds :=
  Cuts.of_lexeme (lexeme_of_symbol hc hrest) h

end

/-- Whether a text is cut into the tokens of a row, places apart, wherever it stands in front of a
boundary. -/
def CutInto (row : List Token) (cs : List Char) : Prop :=
  ∀ p rest, Boundary rest → ∃ us q, Cuts p (cs ++ rest) us q rest ∧ us.map Token.bare = row

def Bounds (cs : List Char) : Prop :=
  ∀ rest, Boundary rest → Boundary (cs ++ rest)

def NoEquals (cs : List Char) : Prop :=
  ∀ rest, Boundary rest → (cs ++ rest).head? ≠ some '='

theorem bounds_nil : Bounds [] :=
  fun _ hrest => hrest

theorem bounds_cons {c : Char} (h : isLetter c = false ∧ c.isDigit = false ∧ c ≠ '=')
    (cs : List Char) : Bounds (c :: cs) :=
  fun rest _ => boundary_cons h (cs ++ rest)

theorem noEquals_nil : NoEquals [] :=
  fun _ hrest => hrest.head_ne

theorem noEquals_cons {c : Char} (hc : c ≠ '=') (cs : List Char) : NoEquals (c :: cs) := by
  intro rest _ hhead
  injection hhead with hhead
  exact hc hhead

section

variable {us vs : List Token} {cs ds : List Char}

theorem cutInto_nil : CutInto [] [] := by
  intro p rest _
  exact ⟨[], p, Cuts.refl p rest, rfl⟩

/-- Texts are cut one after the other where the second one is a boundary, whatever stands behind it.
-/
theorem CutInto.append (h : CutInto us cs) (h' : CutInto vs ds) (hds : Bounds ds) :
    CutInto (us ++ vs) (cs ++ ds) := by
  intro p rest hrest
  obtain ⟨us', q, hus, rfl⟩ := h p (ds ++ rest) (hds rest hrest)
  obtain ⟨vs', r, hvs, rfl⟩ := h' q rest hrest
  rw [List.append_assoc]
  exact ⟨us' ++ vs', r, hus.trans hvs, List.map_append⟩

theorem CutInto.layout {c : Char} (h : CutInto us cs) (hc : isLayout c = true) :
    CutInto us (c :: cs) := by
  intro p rest hrest
  obtain ⟨us', q, hus, hrow⟩ := h (p.next c) rest hrest
  exact ⟨us', q, Cuts.layout hc hus, hrow⟩

theorem CutInto.space (h : CutInto us cs) : CutInto us (' ' :: cs) :=
  h.layout (by decide)

/-- The literal of any token in front of a boundary is cut off as this token. -/
theorem CutInto.literal {t : Token} (h : CutInto us cs) (ht : t.IsLexical) (hk : t.kind ≠ .illegal)
    (hcs : Bounds cs) : CutInto (t.bare :: us) (t.literal.toList ++ cs) := by
  intro p rest hrest
  -- the rest is cut where the literal ends, and the token stands where the literal starts
  obtain ⟨us', q, hus, rfl⟩ := h (p.past t.literal.toList) rest hrest
  rw [List.append_assoc]
  exact ⟨_, q, Cuts.literal ht hk (hcs rest hrest) hus, rfl⟩

theorem CutInto.word {t : Token} {k : Kind} (h : CutInto us cs) (ht : t.Is k) (hk : k ≠ .illegal)
    (hcs : Bounds cs) : CutInto (t.bare :: us) (t.literal.toList ++ cs) := by
  apply h.literal ht.isLexical _ hcs
  rw [ht.kind_eq]
  exact hk

theorem CutInto.symbol {t : Token} (h : CutInto us cs) (ht : Kind.ofSymbol? t.literal = some t.kind)
    (hcs : NoEquals cs) : CutInto (t.bare :: us) (t.literal.toList ++ cs) := by
  intro p rest hrest
  obtain ⟨us', q, hus, rfl⟩ := h (p.past t.literal.toList) rest hrest
  rw [List.append_assoc]
  exact ⟨_, q, Cuts.symbol ht (hcs rest hrest) hus, rfl⟩

theorem CutInto.mark {c : Char} {k : Kind} (h : CutInto us cs)
    (hc : Kind.ofSymbol? (String.ofList [c]) = some k) (hcs : NoEquals cs) :
    CutInto (⟨k, String.ofList [c], .nowhere⟩ :: us) (c :: cs) := by
  intro p rest hrest
  obtain ⟨us', q, hus, rfl⟩ := h (p.past [c]) rest hrest
  exact ⟨_, q, Cuts.mark hc (hcs rest hrest) hus, rfl⟩

end

/-- A word alone gives its token at another place. -/
theorem Token.Is.cutInto {t : Token} {k : Kind} (h : t.Is k) (hk : k ≠ .illegal) :
    CutInto [t.bare] t.literal.toList := by
  have hcut := cutInto_nil.word h hk bounds_nil
  rw [List.append_nil] at hcut
  exact hcut

theorem cutInto_mark {c : Char} {k : Kind} (hc : Kind.ofSymbol? (String.ofList [c]) = some k) :
    CutInto [⟨k, String.ofList [c], .nowhere⟩] [c] :=
  cutInto_nil.mark hc noEquals_nil

end MonkeySyntax
