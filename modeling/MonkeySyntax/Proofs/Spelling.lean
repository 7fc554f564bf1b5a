import MonkeySyntax.Grammar.Program

/-!
# How trees are spelled

The trees of the language and the rows of tokens that spell them, without a parser. Every
expression has a strength, which is how tightly its outermost construct holds together: an operator
asks of its operands that they hold together more tightly than itself, and parentheses make every
expression as strong as a name. Parentheses may stand around any expression, any number of them.
-/

namespace MonkeySyntax

def Kind.IsBinary (k : Kind) : Prop :=
  Precedence.lowest.level < k.precedence.level ∧ k ≠ .lparen

/-- A row of decimal digits that is short enough to be converted. -/
structure Token.IsNumeral (t : Token) : Prop where
  ne_nil : t.literal.toList ≠ []
  digits : ∀ c ∈ t.literal.toList, c.isDigit
  length_le : t.literal.toList.length ≤ maxDigits

/-- The strength of an expression that holds together on its own. -/
def atomic : Nat := Precedence.call.level + 1

inductive Slot where
  | parameter
  | argument

inductive Phrase where
  | expression (strength : Nat) (e : Node)
  | item (s : Slot) (n : Node)
  | further (s : Slot) (ns : List Node)
  | items (s : Slot) (ns : List Node)
  /-- A statement without the semicolon that may end it. -/
  | statement (s : Node)
  | statements (ss : List Node)
  | block (b : Node)

def nextKind (ts : List Token) : Kind :=
  (ts.head?.map Token.kind).getD .eof

@[simp] theorem nextKind_nil : nextKind [] = .eof := rfl

@[simp] theorem nextKind_cons (t : Token) (ts : List Token) : nextKind (t :: ts) = t.kind := rfl

def lastKind (ts : List Token) : Kind :=
  nextKind ts.reverse

@[simp] theorem lastKind_singleton (t : Token) : lastKind [t] = t.kind := rfl

theorem lastKind_append {us : List Token} (h : us ≠ []) (ts : List Token) :
    lastKind (ts ++ us) = lastKind us := by
  unfold lastKind
  rw [List.reverse_append]
  cases hus : us.reverse with
  | nil => exact absurd (List.reverse_eq_nil_iff.1 hus) h
  | cons t us => rfl

theorem lastKind_cons {us : List Token} (h : us ≠ []) (t : Token) :
    lastKind (t :: us) = lastKind us :=
  lastKind_append h [t]

/-- Whether tokens can follow a statement that has no semicolon. The other tokens that continue an
expression start no statement. -/
def Apart (ts : List Token) : Prop :=
  nextKind ts ≠ .minus ∧ nextKind ts ≠ .lparen

inductive Spells : Phrase → List Token → Prop
  | identifier {t : Token} (ht : t.kind = .ident) :
      Spells (.expression atomic (.identifier t t.literal)) [t]
  | integer {t : Token} (ht : t.kind = .int) (hd : t.IsNumeral)
      (hv : decimalValue t.literal.toList ≤ maxInteger) :
      Spells (.expression atomic (.integer t (decimalValue t.literal.toList))) [t]
  | boolean {t : Token} (ht : t.kind = .wordTrue ∨ t.kind = .wordFalse) :
      Spells (.expression atomic (.boolean t (t.kind = .wordTrue))) [t]
  | grouped {l r : Token} {k : Nat} {e : Node} {us : List Token} (hl : l.kind = .lparen)
      (he : Spells (.expression k e) us) (hr : r.kind = .rparen) :
      Spells (.expression atomic e) (l :: (us ++ [r]))
  | conditional {t l r : Token} {k : Nat} {c b : Node} {us vs : List Token}
      (ht : t.kind = .wordIf) (hl : l.kind = .lparen) (hc : Spells (.expression k c) us)
      (hr : r.kind = .rparen) (hb : Spells (.block b) vs) :
      Spells (.expression atomic (.conditional t c b none)) (t :: l :: (us ++ r :: vs))
  | choice {t l r o : Token} {k : Nat} {c b a : Node} {us vs ws : List Token}
      (ht : t.kind = .wordIf) (hl : l.kind = .lparen) (hc : Spells (.expression k c) us)
      (hr : r.kind = .rparen) (hb : Spells (.block b) vs) (ho : o.kind = .wordElse)
      (ha : Spells (.block a) ws) :
      Spells (.expression atomic (.conditional t c b (some a)))
        (t :: l :: (us ++ r :: (vs ++ o :: ws)))
  | function {t l r : Token} {ps : List Node} {b : Node} {us vs : List Token}
      (ht : t.kind = .wordFn) (hl : l.kind = .lparen) (hps : Spells (.items .parameter ps) us)
      (hr : r.kind = .rparen) (hb : Spells (.block b) vs) :
      Spells (.expression atomic (.function t ps b)) (t :: l :: (us ++ r :: vs))
  | call {l r : Token} {k : Nat} {f : Node} {as : List Node} {us vs : List Token}
      (hf : Spells (.expression k f) us) (hk : Precedence.call.level ≤ k) (hl : l.kind = .lparen)
      (has : Spells (.items .argument as) vs) (hr : r.kind = .rparen) :
      Spells (.expression Precedence.call.level (.call l f as)) (us ++ l :: (vs ++ [r]))
  | unary {t : Token} {k : Nat} {e : Node} {us : List Token}
      (ht : t.kind = .bang ∨ t.kind = .minus) (he : Spells (.expression k e) us)
      (hk : Precedence.unary.level ≤ k) :
      Spells (.expression Precedence.unary.level (.unary t t.literal e)) (t :: us)
  -- operators of one level group to the left, so only the left operand may be as weak as the whole
  | binary {t : Token} {k m : Nat} {l r : Node} {us vs : List Token} (ht : t.kind.IsBinary)
      (hl : Spells (.expression k l) us) (hk : t.kind.precedence.level ≤ k)
      (hr : Spells (.expression m r) vs) (hm : t.kind.precedence.level < m) :
      Spells (.expression t.kind.precedence.level (.binary t l t.literal r)) (us ++ t :: vs)
  | parameter {t : Token} (ht : t.kind = .ident) :
      Spells (.item .parameter (.identifier t t.literal)) [t]
  | argument {k : Nat} {e : Node} {us : List Token} (he : Spells (.expression k e) us) :
      Spells (.item .argument e) us
  | noFurther {s : Slot} : Spells (.further s []) []
  | further {s : Slot} {t : Token} {n : Node} {ns : List Node} {us vs : List Token}
      (ht : t.kind = .comma) (hn : Spells (.item s n) us) (hns : Spells (.further s ns) vs) :
      Spells (.further s (n :: ns)) (t :: (us ++ vs))
  | noItems {s : Slot} : Spells (.items s []) []
  | items {s : Slot} {n : Node} {ns : List Node} {us vs : List Token}
      (hn : Spells (.item s n) us) (hns : Spells (.further s ns) vs) :
      Spells (.items s (n :: ns)) (us ++ vs)
  | letStatement {t x a : Token} {k : Nat} {e : Node} {us : List Token} (ht : t.kind = .wordLet)
      (hx : x.kind = .ident) (ha : a.kind = .assign) (he : Spells (.expression k e) us) :
      Spells (.statement (.letStatement t (.identifier x x.literal) e)) (t :: x :: a :: us)
  | returnStatement {t : Token} {k : Nat} {e : Node} {us : List Token} (ht : t.kind = .wordReturn)
      (he : Spells (.expression k e) us) :
      Spells (.statement (.returnStatement t e)) (t :: us)
  | expressionStatement {t : Token} {k : Nat} {e : Node} {us : List Token}
      (he : Spells (.expression k e) (t :: us)) :
      Spells (.statement (.expressionStatement t e)) (t :: us)
  | noStatements : Spells (.statements []) []
  | terminated {t : Token} {s : Node} {ss : List Node} {us vs : List Token}
      (hs : Spells (.statement s) us) (ht : t.kind = .semicolon)
      (hss : Spells (.statements ss) vs) : Spells (.statements (s :: ss)) (us ++ t :: vs)
  | apart {s : Node} {ss : List Node} {us vs : List Token} (hs : Spells (.statement s) us)
      (hss : Spells (.statements ss) vs) (hvs : Apart vs) :
      Spells (.statements (s :: ss)) (us ++ vs)
  | block {l r : Token} {ss : List Node} {us : List Token} (hl : l.kind = .lbrace)
      (hss : Spells (.statements ss) us) (hr : r.kind = .rbrace) :
      Spells (.block (.block l ss)) (l :: (us ++ [r]))

def Kind.StartsExpression (k : Kind) : Prop :=
  k ∈ Rules.standard.operandKinds

def Kind.EndsExpression (k : Kind) : Prop :=
  k ∈ [Kind.ident, .int, .wordTrue, .wordFalse, .rparen, .rbrace]

def Kind.StartsStatement (k : Kind) : Prop :=
  k = .wordLet ∨ k = .wordReturn ∨ k.StartsExpression

def Phrase.StartsWith : Phrase → Kind → Prop
  | .expression _ _, k | .item _ _, k => k.StartsExpression
  | .further _ _, k => k = .eof ∨ k = .comma
  | .items _ _, k => k = .eof ∨ k.StartsExpression
  | .statement _, k => k.StartsStatement
  | .statements _, k => k = .eof ∨ k.StartsStatement
  | .block _, k => k = .lbrace

def Phrase.EndsWith : Phrase → Kind → Prop
  | .expression _ _, k | .item _ _, k | .statement _, k | .block _, k => k.EndsExpression
  | .further _ _, k | .items _ _, k => k = .eof ∨ k.EndsExpression
  | .statements _, _ => True

instance (k : Kind) : Decidable k.IsBinary := inferInstanceAs (Decidable (_ ∧ _))

instance (k : Kind) : Decidable k.StartsExpression := inferInstanceAs (Decidable (_ ∈ _))

instance (k : Kind) : Decidable k.EndsExpression := inferInstanceAs (Decidable (_ ∈ _))

instance (k : Kind) : Decidable k.StartsStatement := inferInstanceAs (Decidable (_ ∨ _))

theorem Kind.IsBinary.mem_operatorKinds {k : Kind} (h : k.IsBinary) :
    k ∈ Rules.standard.operatorKinds := by
  revert h
  cases k <;> decide

theorem Kind.IsBinary.level_lt {k : Kind} (h : k.IsBinary) :
    k.precedence.level < Precedence.unary.level := by
  revert h
  cases k <;> decide

theorem Kind.IsBinary.ne {k k' : Kind} (h : k.IsBinary) (hk' : ¬k'.IsBinary) : k ≠ k' := by
  rintro rfl
  exact hk' h

theorem nextKind_append (ts us : List Token) (h : nextKind ts ≠ .eof) :
    nextKind (ts ++ us) = nextKind ts := by
  cases ts with
  | nil => exact absurd rfl h
  | cons t ts => rfl

theorem Kind.ne_eof_of_startsStatement {k : Kind} (h : k.StartsStatement) : k ≠ .eof := by
  rintro rfl
  exact absurd h (by decide)

/-- The first token of a row is one that its phrase can start with. -/
theorem Spells.startsWith {φ : Phrase} {us : List Token} (h : Spells φ us) :
    φ.StartsWith (nextKind us) := by
  -- the first token of a phrase is that of its first part, which is not empty
  have hfront {us vs : List Token} (hk : (nextKind us).StartsStatement) :
      nextKind (us ++ vs) = nextKind us :=
    nextKind_append us vs (Kind.ne_eof_of_startsStatement hk)
  induction h with
  | identifier ht | integer ht | parameter ht | conditional ht | choice ht | function ht
  | grouped ht =>
    change Kind.StartsExpression _
    rw [nextKind_cons, ht]
    decide
  | boolean ht | unary ht =>
    change Kind.StartsExpression _
    rw [nextKind_cons]
    rcases ht with ht | ht <;> rw [ht] <;> decide
  | call _ _ _ _ _ ih | binary _ _ _ _ _ ih =>
    change Kind.StartsExpression _
    rw [hfront (Or.inr (Or.inr ih))]
    exact ih
  | argument _ ih => exact ih
  | letStatement ht => exact Or.inl ht
  | returnStatement ht => exact Or.inr (Or.inl ht)
  | expressionStatement _ ih => exact Or.inr (Or.inr ih)
  | noFurther | noItems | noStatements => exact Or.inl rfl
  | further ht => exact Or.inr ht
  | items _ _ ih =>
    change _ ∨ Kind.StartsExpression _
    rw [hfront (Or.inr (Or.inr ih))]
    exact Or.inr ih
  | terminated _ _ _ ih | apart _ _ _ ih =>
    change _ ∨ Kind.StartsStatement _
    rw [hfront ih]
    exact Or.inr ih
  | block ht => exact ht

theorem endsExpression_append {us vs : List Token} (h : (lastKind vs).EndsExpression) :
    (lastKind (us ++ vs)).EndsExpression := by
  rw [lastKind_append (fun hnil => absurd h (by rw [hnil]; decide))]
  exact h

theorem endsExpression_cons {t : Token} {us : List Token} (h : (lastKind us).EndsExpression) :
    (lastKind (t :: us)).EndsExpression :=
  @endsExpression_append [t] us h

/-- The last token of a row is one that its phrase can end with. -/
theorem Spells.endsWith {φ : Phrase} {us : List Token} (h : Spells φ us) :
    φ.EndsWith (lastKind us) := by
  -- the last token of a phrase is that of its last part, which is not empty
  have hitems {us vs : List Token} (hus : (lastKind us).EndsExpression)
      (hvs : lastKind vs = .eof ∨ (lastKind vs).EndsExpression) :
      lastKind (us ++ vs) = .eof ∨ (lastKind (us ++ vs)).EndsExpression := by
    by_cases hnil : vs = []
    · rw [hnil, List.append_nil]
      exact Or.inr hus
    · rw [lastKind_append hnil]
      exact hvs
  induction h with
  | identifier ht | integer ht | parameter ht =>
    change Kind.EndsExpression _
    rw [lastKind_singleton, ht]
    decide
  | boolean ht =>
    change Kind.EndsExpression _
    rcases ht with ht | ht <;> rw [lastKind_singleton, ht] <;> decide
  | grouped _ _ hr | block _ _ hr =>
    refine endsExpression_cons (endsExpression_append ?_)
    rw [lastKind_singleton, hr]
    decide
  | call _ _ _ _ hr =>
    refine endsExpression_append (endsExpression_cons (endsExpression_append ?_))
    rw [lastKind_singleton, hr]
    decide
  | conditional _ _ _ _ _ _ ih | function _ _ _ _ _ _ ih =>
    exact endsExpression_cons (endsExpression_cons (endsExpression_append (endsExpression_cons ih)))
  | choice _ _ _ _ _ _ _ _ _ ih =>
    exact endsExpression_cons (endsExpression_cons (endsExpression_append (endsExpression_cons
      (endsExpression_append (endsExpression_cons ih)))))
  | unary _ _ _ ih | returnStatement _ _ ih => exact endsExpression_cons ih
  | binary _ _ _ _ _ _ ih => exact endsExpression_append (endsExpression_cons ih)
  | argument _ ih | expressionStatement _ ih => exact ih
  | noFurther | noItems => exact Or.inl rfl
  | @further s t n ns us vs _ _ _ ihn ihns =>
    exact @hitems (t :: us) vs (endsExpression_cons ihn) ihns
  | items _ _ ihn ihns => exact hitems ihn ihns
  | letStatement _ _ _ _ ih =>
    exact endsExpression_cons (endsExpression_cons (endsExpression_cons ih))
  | noStatements | terminated | apart => trivial

/-- An expression takes at least one token. -/
theorem Spells.ne_nil_of_expression {k : Nat} {e : Node} {us : List Token}
    (h : Spells (.expression k e) us) : us ≠ [] := by
  rintro rfl
  exact Kind.ne_eof_of_startsStatement (Or.inr (Or.inr h.startsWith)) rfl

theorem Spells.ne_nil_of_statement {s : Node} {us : List Token}
    (h : Spells (.statement s) us) : us ≠ [] := by
  rintro rfl
  exact Kind.ne_eof_of_startsStatement h.startsWith rfl

end MonkeySyntax
