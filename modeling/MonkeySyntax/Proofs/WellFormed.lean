import MonkeySyntax.Proofs.Lexemes
import MonkeySyntax.Proofs.Spelling

/-!
# Well-formed trees

The trees that texts have: nodes stand where they belong, hold the tokens they were read from, and
agree with them. Two trees are alike when they differ only in the places of their tokens and in the
tokens of expressions that stand as statements, which belong to the expressions as well.
-/

namespace MonkeySyntax

def Token.bare (t : Token) : Token :=
  { t with position := .nowhere }

@[simp] theorem Token.kind_bare (t : Token) : t.bare.kind = t.kind := rfl

namespace Node

mutual

/-- A tree without the places of its tokens and without the tokens of expression statements. -/
def bare : Node → Node
  | .identifier t x => .identifier t.bare x
  | .integer t v => .integer t.bare v
  | .boolean t v => .boolean t.bare v
  | .unary t op e => .unary t.bare op e.bare
  | .binary t l op r => .binary t.bare l.bare op r.bare
  | .conditional t c b none => .conditional t.bare c.bare b.bare none
  | .conditional t c b (some a) => .conditional t.bare c.bare b.bare (some a.bare)
  | .function t ps b => .function t.bare (bareAll ps) b.bare
  | .call t f as => .call t.bare f.bare (bareAll as)
  | .placeholder t => .placeholder t.bare
  | .letStatement t x v => .letStatement t.bare x.bare v.bare
  | .returnStatement t v => .returnStatement t.bare v.bare
  | .expressionStatement _ v => .expressionStatement (.finish .nowhere) v.bare
  | .block t ss => .block t.bare (bareAll ss)

def bareAll : List Node → List Node
  | [] => []
  | n :: ns => n.bare :: bareAll ns

end

end Node

structure Token.Is (t : Token) (k : Kind) : Prop where
  kind_eq : t.kind = k
  isLexical : t.IsLexical

theorem Token.Is.literal_eq {t : Token} {k : Kind} {s : String} (h : t.Is k)
    (hs : (s, k) ∈ Kind.words ++ Kind.symbols) : t.literal = s := by
  have hlexical : Lexical k t.literal.toList := h.kind_eq ▸ h.isLexical
  have htext := hlexical.eq_of_mem_tables hs
  rw [String.ofList_toList] at htext
  exact htext

inductive Place where
  | expression
  | name
  | statement
  | block
deriving DecidableEq

inductive WellFormed : Place → Node → Prop
  | identifier {t : Token} (ht : t.Is .ident) : WellFormed .expression (.identifier t t.literal)
  | integer {t : Token} (ht : t.Is .int) (hdigits : t.literal.toList.length ≤ maxDigits)
      (hv : decimalValue t.literal.toList ≤ maxInteger) :
      WellFormed .expression (.integer t (decimalValue t.literal.toList))
  | boolean {t : Token} (ht : t.Is .wordTrue ∨ t.Is .wordFalse) :
      WellFormed .expression (.boolean t (t.kind = .wordTrue))
  | unary {t : Token} {e : Node} (ht : t.Is .bang ∨ t.Is .minus) (he : WellFormed .expression e) :
      WellFormed .expression (.unary t t.literal e)
  | binary {t : Token} {l r : Node} (ht : t.kind.IsBinary) (ht' : t.IsLexical)
      (hl : WellFormed .expression l) (hr : WellFormed .expression r) :
      WellFormed .expression (.binary t l t.literal r)
  | conditional {t : Token} {c b : Node} (ht : t.Is .wordIf) (hc : WellFormed .expression c)
      (hb : WellFormed .block b) : WellFormed .expression (.conditional t c b none)
  | choice {t : Token} {c b a : Node} (ht : t.Is .wordIf) (hc : WellFormed .expression c)
      (hb : WellFormed .block b) (ha : WellFormed .block a) :
      WellFormed .expression (.conditional t c b (some a))
  | function {t : Token} {ps : List Node} {b : Node} (ht : t.Is .wordFn)
      (hps : ∀ p ∈ ps, WellFormed .name p) (hb : WellFormed .block b) :
      WellFormed .expression (.function t ps b)
  | call {t : Token} {f : Node} {as : List Node} (ht : t.Is .lparen) (hf : WellFormed .expression f)
      (has : ∀ a ∈ as, WellFormed .expression a) : WellFormed .expression (.call t f as)
  | name {t : Token} (ht : t.Is .ident) : WellFormed .name (.identifier t t.literal)
  | letStatement {t : Token} {x v : Node} (ht : t.Is .wordLet) (hx : WellFormed .name x)
      (hv : WellFormed .expression v) : WellFormed .statement (.letStatement t x v)
  | returnStatement {t : Token} {v : Node} (ht : t.Is .wordReturn) (hv : WellFormed .expression v) :
      WellFormed .statement (.returnStatement t v)
  | expressionStatement {t : Token} {v : Node} (hv : WellFormed .expression v) :
      WellFormed .statement (.expressionStatement t v)
  | block {t : Token} {ss : List Node} (ht : t.Is .lbrace)
      (hss : ∀ s ∈ ss, WellFormed .statement s) : WellFormed .block (.block t ss)

def Slot.place : Slot → Place
  | .parameter => .name
  | .argument => .expression

def Phrase.WellFormed : Phrase → Prop
  | .expression _ e => MonkeySyntax.WellFormed .expression e
  | .item s n => MonkeySyntax.WellFormed s.place n
  | .further s ns | .items s ns => ∀ n ∈ ns, MonkeySyntax.WellFormed s.place n
  | .statement s => MonkeySyntax.WellFormed .statement s
  | .statements ss => ∀ s ∈ ss, MonkeySyntax.WellFormed .statement s
  | .block b => MonkeySyntax.WellFormed .block b

/-- What tokens of a text spell is well-formed. -/
theorem Spells.wellFormed {φ : Phrase} {us : List Token} (h : Spells φ us)
    (hus : ∀ t ∈ us, t.IsLexical) : φ.WellFormed := by
  -- the tokens of a part are among those of the whole
  induction h with
  | identifier ht => exact WellFormed.identifier ⟨ht, hus _ List.mem_cons_self⟩
  | integer ht hd hv =>
    exact WellFormed.integer ⟨ht, hus _ List.mem_cons_self⟩ hd.length_le hv
  | boolean ht =>
    have hlexical := hus _ List.mem_cons_self
    exact WellFormed.boolean (ht.imp (fun ht => ⟨ht, hlexical⟩) (fun ht => ⟨ht, hlexical⟩))
  | grouped hl he hr ih =>
    simp only [List.forall_mem_cons, List.forall_mem_append] at hus
    exact ih hus.2.1
  | conditional ht hl hc hr hb ihc ihb =>
    simp only [List.forall_mem_cons, List.forall_mem_append] at hus
    obtain ⟨ht', -, hus, -, hvs⟩ := hus
    exact WellFormed.conditional ⟨ht, ht'⟩ (ihc hus) (ihb hvs)
  | choice ht hl hc hr hb ho ha ihc ihb iha =>
    simp only [List.forall_mem_cons, List.forall_mem_append] at hus
    obtain ⟨ht', -, hus, -, hvs, -, hws⟩ := hus
    exact WellFormed.choice ⟨ht, ht'⟩ (ihc hus) (ihb hvs) (iha hws)
  | function ht hl hps hr hb ihps ihb =>
    simp only [List.forall_mem_cons, List.forall_mem_append] at hus
    obtain ⟨ht', -, hus, -, hvs⟩ := hus
    exact WellFormed.function ⟨ht, ht'⟩ (ihps hus) (ihb hvs)
  | call hf hk hl has hr ihf ihas =>
    simp only [List.forall_mem_cons, List.forall_mem_append] at hus
    obtain ⟨hus, hl', hvs, -⟩ := hus
    exact WellFormed.call ⟨hl, hl'⟩ (ihf hus) (ihas hvs)
  | unary ht he hk ih =>
    obtain ⟨ht', hus⟩ := List.forall_mem_cons.1 hus
    exact WellFormed.unary (ht.imp (fun ht => ⟨ht, ht'⟩) (fun ht => ⟨ht, ht'⟩)) (ih hus)
  | binary ht hl hk hr hm ihl ihr =>
    simp only [List.forall_mem_cons, List.forall_mem_append] at hus
    obtain ⟨hus, ht', hvs⟩ := hus
    exact WellFormed.binary ht ht' (ihl hus) (ihr hvs)
  | parameter ht => exact WellFormed.name ⟨ht, hus _ List.mem_cons_self⟩
  | argument he ih => exact ih hus
  | noFurther | noItems | noStatements => exact fun n hn => nomatch hn
  | further ht hn hns ihn ihns =>
    simp only [List.forall_mem_cons, List.forall_mem_append] at hus
    exact List.forall_mem_cons.2 ⟨ihn hus.2.1, ihns hus.2.2⟩
  | items hn hns ihn ihns =>
    obtain ⟨hus, hvs⟩ := List.forall_mem_append.1 hus
    exact List.forall_mem_cons.2 ⟨ihn hus, ihns hvs⟩
  | letStatement ht hx ha he ih =>
    simp only [List.forall_mem_cons] at hus
    obtain ⟨ht', hx', -, hus⟩ := hus
    exact WellFormed.letStatement ⟨ht, ht'⟩ (WellFormed.name ⟨hx, hx'⟩) (ih hus)
  | returnStatement ht he ih =>
    obtain ⟨ht', hus⟩ := List.forall_mem_cons.1 hus
    exact WellFormed.returnStatement ⟨ht, ht'⟩ (ih hus)
  | expressionStatement he ih => exact WellFormed.expressionStatement (ih hus)
  | terminated hs ht hss ihs ihss =>
    simp only [List.forall_mem_cons, List.forall_mem_append] at hus
    exact List.forall_mem_cons.2 ⟨ihs hus.1, ihss hus.2.2⟩
  | apart hs hss hvs ihs ihss =>
    obtain ⟨hus, hvs⟩ := List.forall_mem_append.1 hus
    exact List.forall_mem_cons.2 ⟨ihs hus, ihss hvs⟩
  | block hl hss hr ih =>
    simp only [List.forall_mem_cons, List.forall_mem_append] at hus
    exact WellFormed.block ⟨hl, hus.1⟩ (ih hus.2.1)

end MonkeySyntax
