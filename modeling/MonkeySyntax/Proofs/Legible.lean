import MonkeySyntax.Proofs.Cutting
import MonkeySyntax.Tree.Text

namespace MonkeySyntax

namespace Node

/-- Whether the text of an expression is in parentheses of its own. -/
def isOperation : Node → Bool
  | .unary .. | .binary .. => true
  | _ => false

/-- Whether a statement takes in the front of the next one when they are written one behind the
other: an expression in front of a parenthesis becomes a callee. -/
def takesIn : Node → Node → Bool
  | .expressionStatement _ _, .expressionStatement _ e => e.text.toList.head? == some '('
  | _, _ => false

def separate : List Node → Bool
  | s :: t :: ss => !takesIn s t && separate (t :: ss)
  | _ => true

mutual

/-- Whether the text of a tree tells where its parts end. -/
def legible : Node → Bool
  | .unary _ _ e => e.legible
  | .binary _ l _ r => l.legible && r.legible
  | .conditional _ c b none => c.isOperation && (c.legible && b.legible)
  | .conditional _ c b (some a) => c.isOperation && (c.legible && (b.legible && a.legible))
  | .function _ _ b => b.legible
  | .call _ f as => f.legible && legibleAll as
  | .letStatement _ _ v | .returnStatement _ v | .expressionStatement _ v => v.legible
  | .block _ ss => separate ss && legibleAll ss
  | .identifier .. | .integer .. | .boolean .. | .placeholder .. => true

def legibleAll : List Node → Bool
  | [] => true
  | n :: ns => n.legible && legibleAll ns

end

theorem legible_of_mem {ns : List Node} (h : legibleAll ns = true) :
    ∀ n ∈ ns, n.legible = true := by
  induction ns with
  | nil => exact fun n hn => nomatch hn
  | cons n ns ih =>
    obtain ⟨hn, hns⟩ := Bool.and_eq_true_iff.1 h
    exact List.forall_mem_cons.2 ⟨hn, ih hns⟩

end Node

def Program.legible (p : Program) : Bool :=
  Node.separate p.statements && Node.legibleAll p.statements

mutual

/-- The text of a tree does not depend on places. -/
theorem Node.text_bare : (n : Node) → n.bare.text = n.text
  | .identifier .. | .integer .. | .boolean .. | .placeholder .. => rfl
  | .unary _ _ e => by simp only [bare, text, text_bare e]
  | .binary _ l _ r => by simp only [bare, text, text_bare l, text_bare r]
  | .conditional _ c b none => by simp only [bare, text, text_bare c, text_bare b]
  | .conditional _ c b (some a) => by
    simp only [bare, text, text_bare c, text_bare b, text_bare a]
  | .function t ps b => by simp only [bare, text, texts_bareAll ps, text_bare b, Token.bare]
  | .call _ f as => by simp only [bare, text, text_bare f, texts_bareAll as]
  | .letStatement t x v => by simp only [bare, text, text_bare x, text_bare v, Token.bare]
  | .returnStatement t v => by simp only [bare, text, text_bare v, Token.bare]
  | .expressionStatement _ v => by simp only [bare, text, text_bare v]
  | .block _ ss => by simp only [bare, text, texts_bareAll ss]

theorem Node.texts_bareAll : (ns : List Node) → texts (bareAll ns) = texts ns
  | [] => rfl
  | n :: ns => by simp only [bareAll, texts, text_bare n, texts_bareAll ns]

end

theorem Node.texts_eq_of_bareAll {ns ms : List Node} (h : bareAll ns = bareAll ms) :
    texts ns = texts ms := by
  calc texts ns = texts (bareAll ns) := (texts_bareAll ns).symm
    _ = texts (bareAll ms) := by rw [h]
    _ = texts ms := texts_bareAll ms

/-- Texts with something between them are the first one and what is added for each further one. -/
theorem toList_intercalate (sep t : String) (ts : List String) :
    (sep.intercalate (t :: ts)).toList =
      t.toList ++ ts.flatMap fun u => sep.toList ++ u.toList := by
  induction ts generalizing t with
  | nil => rw [String.intercalate_singleton, List.flatMap_nil, List.append_nil]
  | cons u ts ih =>
    rw [String.intercalate_cons_cons, String.toList_append, String.toList_append, ih,
      List.flatMap_cons, List.append_assoc, List.append_assoc]

/-- The expression that stands first in a chain of calls. -/
def Node.leftmost : Node → Node
  | .call _ f _ => f.leftmost
  | e => e

theorem Token.Is.exists_head {t : Token} {k : Kind} (h : t.Is k) (hk : k ≠ .illegal)
    (hk' : ∀ s ∈ Kind.symbols, s.2 ≠ k) (cs : List Char) :
    ∃ c ds, t.literal.toList ++ cs = c :: ds ∧ c ≠ '=' ∧ c ≠ '(' := by
  have hlexical : Lexical k t.literal.toList := h.kind_eq ▸ h.isLexical
  obtain ⟨c, ds, hcs, hc⟩ := hlexical.exists_head hk hk'
  refine ⟨c, ds ++ cs, by rw [hcs]; rfl, ?_, ?_⟩
  · rintro rfl
    exact absurd hc (by decide)
  · rintro rfl
    exact absurd hc (by decide)

/-- The text of an expression starts with a parenthesis if what stands first in it is an
operation. -/
theorem WellFormed.exists_head {l : Place} {n : Node} (h : WellFormed l n)
    (hl : l = .expression ∨ l = .name) :
    ∃ c cs, n.text.toList = c :: cs ∧ c ≠ '=' ∧ (c = '(' ↔ n.leftmost.isOperation = true) := by
  have hword {t : Token} {k : Kind} {n : Node} (ht : t.Is k) (hk : k ≠ .illegal)
      (hk' : ∀ s ∈ Kind.symbols, s.2 ≠ k) (hn : n.leftmost.isOperation = false)
      (htext : ∃ cs, n.text.toList = t.literal.toList ++ cs) :
      ∃ c cs, n.text.toList = c :: cs ∧ c ≠ '=' ∧ (c = '(' ↔ n.leftmost.isOperation = true) := by
    obtain ⟨cs, htext⟩ := htext
    obtain ⟨c, ds, hcs, hequals, hparen⟩ := ht.exists_head hk hk' cs
    rw [htext, hcs, hn]
    exact ⟨c, ds, rfl, hequals, by simpa using hparen⟩
  induction h with
  | identifier ht | name ht | integer ht =>
    exact hword ht (by decide) (by decide) rfl ⟨[], (List.append_nil _).symm⟩
  | boolean ht =>
    rcases ht with ht | ht <;>
      exact hword ht (by decide) (by decide) rfl ⟨[], (List.append_nil _).symm⟩
  -- operations are written in parentheses, whatever their operands start with
  | unary | binary =>
    refine ⟨'(', ?_⟩
    simp only [Node.text, String.toList_append]
    exact ⟨_, rfl, by decide, iff_of_true trivial rfl⟩
  | conditional ht | choice ht =>
    refine hword ht (by decide) (by decide) rfl ?_
    rw [ht.literal_eq (s := "if") (by decide)]
    simp only [Node.text, String.toList_append]
    exact ⟨_, rfl⟩
  | function ht =>
    refine hword ht (by decide) (by decide) rfl ?_
    simp only [Node.text, String.toList_append, List.append_assoc]
    exact ⟨_, rfl⟩
  | call ht hf has ih =>
    obtain ⟨c, cs, hcs, hequals, hparen⟩ := ih (Or.inl rfl)
    simp only [Node.text, String.toList_append, hcs]
    exact ⟨c, _, rfl, hequals, hparen⟩
  | letStatement | returnStatement | expressionStatement | block =>
    rcases hl with hl | hl <;> cases hl

/-- Only an operation writes a parenthesis in front, so a text starts with one just where what
stands first in it is an operation. -/
theorem WellFormed.head_text {e : Node} (h : WellFormed .expression e) :
    e.text.toList.head? = some '(' ↔ e.leftmost.isOperation = true := by
  obtain ⟨c, cs, hcs, -, hparen⟩ := h.exists_head (Or.inl rfl)
  rw [hcs, List.head?_cons, Option.some_inj, hparen]

theorem WellFormed.noEquals {l : Place} {n : Node} (h : WellFormed l n)
    (hl : l = .expression ∨ l = .name) (cs : List Char) : NoEquals (n.text.toList ++ cs) := by
  obtain ⟨c, ds, hds, hequals, -⟩ := h.exists_head hl
  rw [hds]
  exact noEquals_cons hequals (ds ++ cs)

theorem noEquals_texts {l : Place} {ns : List Node} (hns : ∀ n ∈ ns, WellFormed l n)
    (hl : l = .expression ∨ l = .name) {c : Char} (hc : c ≠ '=') (sep : String) (cs : List Char) :
    NoEquals ((sep.intercalate (Node.texts ns)).toList ++ c :: cs) := by
  cases ns with
  | nil => exact noEquals_cons hc cs
  | cons n ns =>
    rw [Node.texts, toList_intercalate, List.append_assoc]
    exact (hns n List.mem_cons_self).noEquals hl _

/-- One expression takes in another one behind it if what stands first in that is an operation. -/
theorem WellFormed.takesIn_iff {t u : Token} {e e' : Node} (h : WellFormed .expression e') :
    Node.takesIn (.expressionStatement t e) (.expressionStatement u e') = true ↔
      e'.leftmost.isOperation = true := by
  rw [Node.takesIn, beq_iff_eq]
  exact h.head_text

end MonkeySyntax
