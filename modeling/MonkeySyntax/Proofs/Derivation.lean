import MonkeySyntax.Proofs.Chain
import MonkeySyntax.Proofs.Forward
import MonkeySyntax.Proofs.Soundness

/-!
# The grammar

The context-free grammar of the language, which derives one row of tokens in many ways: it knows
nothing of binding power, and a statement may end anywhere. Reading knows no choice. It makes of
every derivable row the one tree that is strict, and a statement without a semicolon goes on for as
long as it can. The work is to show that this loses no row: a minus or a parenthesis that another
derivation puts at the front of a statement continues the statement in front of it just as well.
-/

namespace MonkeySyntax

open Production

inductive Nonterminal where
  | expression
  | item (s : Slot)
  | further (s : Slot)
  | items (s : Slot)
  | clause
  | statement
  | statements
  | block

def binaryKinds : List Kind :=
  [.plus, .minus, .asterisk, .slash, .lt, .gt, .eq, .notEq]

inductive Derives : Nonterminal → List Token → Prop
  | identifier {t : Token} (ht : t.kind = .ident) : Derives .expression [t]
  | integer {t : Token} (ht : t.kind = .int) (hv : decimalValue t.literal.toList ≤ maxInteger) :
      Derives .expression [t]
  | boolean {t : Token} (ht : t.kind = .wordTrue ∨ t.kind = .wordFalse) : Derives .expression [t]
  | unary {t : Token} {us : List Token} (ht : t.kind = .bang ∨ t.kind = .minus)
      (he : Derives .expression us) : Derives .expression (t :: us)
  | binary {t : Token} {us vs : List Token} (hl : Derives .expression us)
      (ht : t.kind ∈ binaryKinds) (hr : Derives .expression vs) :
      Derives .expression (us ++ t :: vs)
  | grouped {l r : Token} {us : List Token} (hl : l.kind = .lparen) (he : Derives .expression us)
      (hr : r.kind = .rparen) : Derives .expression (l :: (us ++ [r]))
  | conditional {t l r : Token} {us vs : List Token} (ht : t.kind = .wordIf)
      (hl : l.kind = .lparen) (hc : Derives .expression us) (hr : r.kind = .rparen)
      (hb : Derives .block vs) : Derives .expression (t :: l :: (us ++ r :: vs))
  | choice {t l r o : Token} {us vs ws : List Token} (ht : t.kind = .wordIf)
      (hl : l.kind = .lparen) (hc : Derives .expression us) (hr : r.kind = .rparen)
      (hb : Derives .block vs) (ho : o.kind = .wordElse) (ha : Derives .block ws) :
      Derives .expression (t :: l :: (us ++ r :: (vs ++ o :: ws)))
  | function {t l r : Token} {us vs : List Token} (ht : t.kind = .wordFn) (hl : l.kind = .lparen)
      (hps : Derives (.items .parameter) us) (hr : r.kind = .rparen) (hb : Derives .block vs) :
      Derives .expression (t :: l :: (us ++ r :: vs))
  | call {l r : Token} {us vs : List Token} (hf : Derives .expression us) (hl : l.kind = .lparen)
      (has : Derives (.items .argument) vs) (hr : r.kind = .rparen) :
      Derives .expression (us ++ l :: (vs ++ [r]))
  | parameter {t : Token} (ht : t.kind = .ident) : Derives (.item .parameter) [t]
  | argument {us : List Token} (he : Derives .expression us) : Derives (.item .argument) us
  | noFurther {s : Slot} : Derives (.further s) []
  | further {s : Slot} {t : Token} {us vs : List Token} (ht : t.kind = .comma)
      (hn : Derives (.item s) us) (hns : Derives (.further s) vs) :
      Derives (.further s) (t :: (us ++ vs))
  | noItems {s : Slot} : Derives (.items s) []
  | items {s : Slot} {us vs : List Token} (hn : Derives (.item s) us)
      (hns : Derives (.further s) vs) : Derives (.items s) (us ++ vs)
  | letClause {t x a : Token} {us : List Token} (ht : t.kind = .wordLet) (hx : x.kind = .ident)
      (ha : a.kind = .assign) (he : Derives .expression us) : Derives .clause (t :: x :: a :: us)
  | returnClause {t : Token} {us : List Token} (ht : t.kind = .wordReturn)
      (he : Derives .expression us) : Derives .clause (t :: us)
  | expressionClause {us : List Token} (he : Derives .expression us) : Derives .clause us
  | terminated {t : Token} {us : List Token} (hs : Derives .clause us) (ht : t.kind = .semicolon) :
      Derives .statement (us ++ [t])
  | unterminated {us : List Token} (hs : Derives .clause us) : Derives .statement us
  | noStatements : Derives .statements []
  | statements {us vs : List Token} (hs : Derives .statement us) (hss : Derives .statements vs) :
      Derives .statements (us ++ vs)
  | block {l r : Token} {us : List Token} (hl : l.kind = .lbrace) (hss : Derives .statements us)
      (hr : r.kind = .rbrace) : Derives .block (l :: (us ++ [r]))

theorem mem_binaryKinds {k : Kind} : k ∈ binaryKinds ↔ k.IsBinary := by
  cases k <;> decide

def Phrase.nonterminal : Phrase → Nonterminal
  | .expression _ _ => .expression
  | .item s _ => .item s
  | .further s _ => .further s
  | .items s _ => .items s
  | .statement _ => .clause
  | .statements _ => .statements
  | .block _ => .block

/-- The grammar derives all that is spelled: it asks less of an expression and of where a statement
ends. -/
theorem Spells.derives {φ : Phrase} {us : List Token} (h : Spells φ us) :
    Derives φ.nonterminal us := by
  induction h with
  | identifier ht => exact Derives.identifier ht
  | integer ht hd hv => exact Derives.integer ht hv
  | boolean ht => exact Derives.boolean ht
  | grouped hl he hr ih => exact Derives.grouped hl ih hr
  | conditional ht hl hc hr hb ihc ihb => exact Derives.conditional ht hl ihc hr ihb
  | choice ht hl hc hr hb ho ha ihc ihb iha => exact Derives.choice ht hl ihc hr ihb ho iha
  | function ht hl hps hr hb ihps ihb => exact Derives.function ht hl ihps hr ihb
  | call hf hk hl has hr ihf ihas => exact Derives.call ihf hl ihas hr
  | unary ht he hk ih => exact Derives.unary ht ih
  | binary ht hl hk hr hm ihl ihr => exact Derives.binary ihl (mem_binaryKinds.2 ht) ihr
  | parameter ht => exact Derives.parameter ht
  | argument he ih => exact Derives.argument ih
  | noFurther => exact Derives.noFurther
  | further ht hn hns ihn ihns => exact Derives.further ht ihn ihns
  | noItems => exact Derives.noItems
  | items hn hns ihn ihns => exact Derives.items ihn ihns
  | letStatement ht hx ha he ih => exact Derives.letClause ht hx ha ih
  | returnStatement ht he ih => exact Derives.returnClause ht ih
  | expressionStatement he ih => exact Derives.expressionClause ih
  | noStatements => exact Derives.noStatements
  | @terminated t s ss us vs hs ht hss ihs ihss =>
    have hcons : us ++ t :: vs = (us ++ [t]) ++ vs := by
      rw [List.append_assoc, List.singleton_append]
    rw [hcons]
    exact Derives.statements (Derives.terminated ihs ht) ihss
  | apart hs hss hvs ihs ihss => exact Derives.statements (Derives.unterminated ihs) ihss
  | block hl hss hr ih => exact Derives.block hl ih hr

def Chain.join {t : Token} (c : Chain) (ht : t.kind.IsBinary) (d : Chain) : Chain :=
  ⟨c.first, c.links ++ ⟨t, d.first, ht⟩ :: d.links⟩

theorem Chain.tokens_join {t : Token} (c : Chain) (ht : t.kind.IsBinary) (d : Chain) :
    (c.join ht d).tokens = c.tokens ++ t :: d.tokens := by
  simp only [join, tokens, Link.tokens, List.flatMap_append, List.flatMap_cons, List.append_assoc,
    List.cons_append]

def Chain.sign {t : Token} (c : Chain) (ht : t.kind = .bang ∨ t.kind = .minus) : Chain :=
  ⟨{ c.first with
      signs := t :: c.first.signs
      areSigns := List.forall_mem_cons.2 ⟨ht, c.first.areSigns⟩ }, c.links⟩

theorem Chain.tokens_sign {t : Token} (c : Chain) (ht : t.kind = .bang ∨ t.kind = .minus) :
    (c.sign ht).tokens = t :: c.tokens := rfl

def Operand.apply (o : Operand) (as : List Arguments) : Operand :=
  { o with calls := o.calls ++ as }

theorem Operand.tokens_apply (o : Operand) (as : List Arguments) :
    (o.apply as).tokens = o.tokens ++ as.flatMap Arguments.tokens := by
  simp only [apply, tokens, List.flatMap_append, List.append_assoc]

/-- Calls behind a chain belong to its last operand. -/
theorem Chain.exists_apply (c : Chain) (as : List Arguments) :
    ∃ d : Chain, d.tokens = c.tokens ++ as.flatMap Arguments.tokens := by
  obtain ⟨o, ls⟩ := c
  rcases List.eq_nil_or_concat ls with rfl | ⟨ls, l, rfl⟩
  · -- without links the last operand is the first one
    refine ⟨⟨o.apply as, []⟩, ?_⟩
    simp only [tokens, Operand.tokens_apply, List.flatMap_nil, List.append_nil]
  · refine ⟨⟨o, ls ++ [{ l with operand := l.operand.apply as }]⟩, ?_⟩
    simp only [tokens, Link.tokens, Operand.tokens_apply, List.concat_eq_append,
      List.flatMap_append, List.flatMap_cons, List.flatMap_nil, List.append_nil,
      List.append_assoc, List.cons_append]

/-- What a chain looks like that spells an expression of some strength: only weak expressions have
operators between operands, and only those and signed ones start with a sign. -/
structure Chain.Fits (c : Chain) (k : Nat) : Prop where
  links_eq_nil : Precedence.unary.level ≤ k → c.links = []
  signs_eq_nil : Precedence.call.level ≤ k → c.first.signs = []

/-- Every expression is a chain. -/
theorem Spells.exists_chain {φ : Phrase} {us : List Token} (h : Spells φ us) :
    ∀ k e, φ = .expression k e → ∃ c : Chain, c.tokens = us ∧ c.Fits k := by
  have hprimary {e : Node} {us : List Token} (h : Spells (.expression atomic e) us) :
      ∃ c : Chain, c.tokens = us ∧ c.Fits atomic := by
    refine ⟨⟨⟨[], e, us, [], (fun _ h => absurd h List.not_mem_nil), h⟩, []⟩, ?_,
      fun _ => rfl, fun _ => rfl⟩
    exact (List.append_nil _).trans (List.append_nil _)
  -- what is neither signed nor called nor joined by an operator is one operand
  induction h with
  | identifier ht =>
    rintro k e ⟨⟩
    exact hprimary (Spells.identifier ht)
  | integer ht hd hv =>
    rintro k e ⟨⟩
    exact hprimary (Spells.integer ht hd hv)
  | boolean ht =>
    rintro k e ⟨⟩
    exact hprimary (Spells.boolean ht)
  | grouped hl he hr =>
    rintro k e ⟨⟩
    exact hprimary (Spells.grouped hl he hr)
  | conditional ht hl hc hr hb =>
    rintro k e ⟨⟩
    exact hprimary (Spells.conditional ht hl hc hr hb)
  | choice ht hl hc hr hb ho ha =>
    rintro k e ⟨⟩
    exact hprimary (Spells.choice ht hl hc hr hb ho ha)
  | function ht hl hps hr hb =>
    rintro k e ⟨⟩
    exact hprimary (Spells.function ht hl hps hr hb)
  | @call l r k f as us vs hf hk hl has hr ihf =>
    rintro k' e ⟨⟩
    obtain ⟨⟨o, ls⟩, htokens, hlinks, hsigns⟩ := ihf k f rfl
    -- a callee is too strong to have operators, so the call goes to its only operand
    obtain rfl : ls = [] := hlinks (Nat.le_trans (by decide) hk)
    refine ⟨⟨o.apply [⟨l, as, vs, r, hl, has, hr⟩], []⟩, ?_, fun _ => rfl, fun _ => hsigns hk⟩
    rw [← htokens]
    simp only [Chain.tokens, Operand.tokens_apply, Arguments.tokens, List.flatMap_cons,
      List.flatMap_nil, List.append_nil]
  | @unary t k e us ht he hk ih =>
    rintro k' e' ⟨⟩
    obtain ⟨c, htokens, hlinks, -⟩ := ih k e rfl
    refine ⟨c.sign ht, ?_, fun _ => hlinks hk, fun h => absurd h (by decide)⟩
    rw [Chain.tokens_sign, htokens]
  | @binary t k m l r us vs ht hl hk hr hm ihl ihr =>
    rintro k' e ⟨⟩
    obtain ⟨c, hc, -⟩ := ihl k l rfl
    obtain ⟨d, hd, -⟩ := ihr m r rfl
    have hlt : t.kind.precedence.level < Precedence.unary.level := ht.level_lt
    have hlt' : t.kind.precedence.level < Precedence.call.level :=
      Nat.lt_of_lt_of_le hlt (by decide)
    refine ⟨c.join ht d, ?_, fun h => absurd h (Nat.not_le.2 hlt),
      fun h => absurd h (Nat.not_le.2 hlt')⟩
    rw [Chain.tokens_join, hc, hd]
  | _ => rintro k e ⟨⟩

theorem apart_cons {t : Token} {k : Kind} (ht : t.kind = k) (hk : k ≠ .minus ∧ k ≠ .lparen)
    (ts : List Token) : Apart (t :: ts) := by
  unfold Apart
  rw [nextKind_cons, ht]
  exact hk

theorem apart_append {us : List Token} (h : nextKind us ≠ .eof) (vs : List Token) :
    Apart (us ++ vs) ↔ Apart us := by
  unfold Apart
  rw [nextKind_append us vs h]

/-- A primary expression that could continue an operand is in parentheses, and so it is also the
argument list of a call. -/
theorem Spells.exists_arguments {e : Node} {us : List Token}
    (h : Spells (.expression atomic e) us) (hus : ¬Apart us) :
    ∃ a : Arguments, a.tokens = us := by
  generalize hφ : Phrase.expression atomic e = φ at h
  cases h with
  | @grouped l r k e us hl he hr =>
    refine ⟨⟨l, [e], us, r, hl, ?_, hr⟩, rfl⟩
    have hitems := Spells.items (Spells.argument he) Spells.noFurther
    rw [List.append_nil] at hitems
    exact hitems
  | identifier ht | integer ht | conditional ht | choice ht | function ht =>
    exact absurd (apart_cons ht (by decide) _) hus
  | boolean ht => rcases ht with ht | ht <;> exact absurd (apart_cons ht (by decide) _) hus
  | @binary t k m l r us vs ht =>
    have hlt := ht.level_lt
    injection hφ with hk
    rw [← hk] at hlt
    exact absurd hlt (by decide)
  | _ => cases hφ

/-- A chain that starts with a minus or a parenthesis continues the chain in front of it. -/
theorem Chain.exists_append (c d : Chain) (hd : ¬Apart d.tokens) :
    ∃ e : Chain, e.tokens = c.tokens ++ d.tokens := by
  obtain ⟨⟨signs, primary, body, calls, hsigns, hprimary⟩, ls⟩ := d
  cases signs with
  | cons t ts =>
    -- the sign becomes an operator between the two
    obtain ⟨ht, hts⟩ := List.forall_mem_cons.1 hsigns
    have hminus : t.kind = .minus := by
      rcases ht with ht | ht
      · exact absurd (apart_cons ht (by decide) _) hd
      · exact ht
    have hbinary : t.kind.IsBinary := by
      rw [hminus]
      decide
    refine ⟨c.join hbinary ⟨⟨ts, primary, body, calls, hts, hprimary⟩, ls⟩, ?_⟩
    rw [tokens_join]
    rfl
  | nil =>
    -- the parentheses become those of a call
    have hbody : nextKind body ≠ .eof :=
      Kind.ne_eof_of_startsStatement (Or.inr (Or.inr hprimary.startsWith))
    have hfront : ¬Apart body := by
      simp only [tokens, Operand.tokens, List.nil_append, List.append_assoc] at hd
      rw [apart_append hbody] at hd
      exact hd
    obtain ⟨a, ha⟩ := hprimary.exists_arguments hfront
    obtain ⟨e, he⟩ := c.exists_apply (a :: calls)
    refine ⟨⟨e.first, e.links ++ ls⟩, ?_⟩
    calc e.first.tokens ++ (e.links ++ ls).flatMap Link.tokens
        = e.tokens ++ ls.flatMap Link.tokens := by
          rw [tokens, List.flatMap_append, List.append_assoc]
      _ = c.tokens ++ (body ++ calls.flatMap Arguments.tokens ++ ls.flatMap Link.tokens) := by
          rw [he, List.flatMap_cons, ha, List.append_assoc]

def Numerals (ts : List Token) : Prop :=
  ∀ t ∈ ts, t.kind = .int → t.IsNumeral

theorem numerals_append {us vs : List Token} :
    Numerals (us ++ vs) ↔ Numerals us ∧ Numerals vs :=
  List.forall_mem_append

theorem numerals_cons {t : Token} {ts : List Token} :
    Numerals (t :: ts) ↔ (t.kind = .int → t.IsNumeral) ∧ Numerals ts :=
  List.forall_mem_cons

inductive Opens : List Token → Prop
  | letClause {t x a : Token} (ht : t.kind = .wordLet) (hx : x.kind = .ident)
      (ha : a.kind = .assign) : Opens [t, x, a]
  | returnClause {t : Token} (ht : t.kind = .wordReturn) : Opens [t]
  | expressionClause : Opens []

/-- What makes an expression a clause makes it a statement. -/
theorem Opens.spells {ts us : List Token} (h : Opens ts) {k : Nat} {e : Node}
    (he : Spells (.expression k e) us) : ∃ s, Spells (.statement s) (ts ++ us) := by
  cases h with
  | letClause ht hx ha => exact ⟨_, Spells.letStatement ht hx ha he⟩
  | returnClause ht => exact ⟨_, Spells.returnStatement ht he⟩
  | expressionClause =>
    cases us with
    | nil => exact absurd rfl he.ne_nil_of_expression
    | cons t us => exact ⟨_, Spells.expressionStatement he⟩

def IsClause (ts : List Token) : Prop :=
  ∃ us vs k e, ts = us ++ vs ∧ Opens us ∧ Spells (.expression k e) vs

def Nonterminal.IsSpelled : Nonterminal → List Token → Prop
  | .expression, ts => ∃ k e, Spells (.expression k e) ts
  | .item s, ts => ∃ n, Spells (.item s n) ts
  | .further s, ts => ∃ ns, Spells (.further s ns) ts
  | .items s, ts => ∃ ns, Spells (.items s ns) ts
  | .clause, ts => IsClause ts
  | .statement, ts => IsClause ts ∨ ∃ us t, ts = us ++ [t] ∧ t.kind = .semicolon ∧ IsClause us
  | .statements, ts => ∃ ss, Spells (.statements ss) ts
  | .block, ts => ∃ b, Spells (.block b) ts

theorem Chain.isSpelled {c : Chain} {ts : List Token} (h : c.tokens = ts) :
    Nonterminal.expression.IsSpelled ts := by
  obtain ⟨k, hspells⟩ := c.spells
  exact ⟨k, c.tree, h ▸ hspells⟩

/-- Chains with an operator between them are one chain, whose tree need not keep either of theirs.
-/
theorem isSpelled_binary {t : Token} {us vs : List Token}
    (hl : Nonterminal.expression.IsSpelled us) (ht : t.kind.IsBinary)
    (hr : Nonterminal.expression.IsSpelled vs) :
    Nonterminal.expression.IsSpelled (us ++ t :: vs) := by
  obtain ⟨k, l, hl⟩ := hl
  obtain ⟨m, r, hr⟩ := hr
  obtain ⟨c, rfl, -⟩ := hl.exists_chain k l rfl
  obtain ⟨d, rfl, -⟩ := hr.exists_chain m r rfl
  exact Chain.isSpelled (c.tokens_join ht d)

theorem isSpelled_unary {t : Token} {us : List Token} (ht : t.kind = .bang ∨ t.kind = .minus)
    (he : Nonterminal.expression.IsSpelled us) : Nonterminal.expression.IsSpelled (t :: us) := by
  obtain ⟨k, e, he⟩ := he
  obtain ⟨c, rfl, -⟩ := he.exists_chain k e rfl
  exact Chain.isSpelled (c.tokens_sign ht)

/-- Arguments behind a chain belong to its last operand. -/
theorem isSpelled_call {l r : Token} {as : List Node} {us vs : List Token}
    (hf : Nonterminal.expression.IsSpelled us) (hl : l.kind = .lparen)
    (has : Spells (.items .argument as) vs) (hr : r.kind = .rparen) :
    Nonterminal.expression.IsSpelled (us ++ l :: (vs ++ [r])) := by
  obtain ⟨k, f, hf⟩ := hf
  obtain ⟨c, rfl, -⟩ := hf.exists_chain k f rfl
  obtain ⟨d, hd⟩ := c.exists_apply [⟨l, as, vs, r, hl, has, hr⟩]
  refine Chain.isSpelled (hd.trans ?_)
  rw [List.flatMap_cons, List.flatMap_nil, List.append_nil]
  rfl

/-- An expression that could continue the clause in front of it is taken into the clause. -/
theorem Opens.exists_merged {ts us vs : List Token} {k : Nat} {e s : Node} (h : Opens ts)
    (he : Spells (.expression k e) us) (hs : Spells (.statement s) vs) (hvs : ¬Apart vs) :
    ∃ s', Spells (.statement s') (ts ++ (us ++ vs)) := by
  obtain ⟨c, rfl, -⟩ := he.exists_chain k e rfl
  cases hs with
  | letStatement ht | returnStatement ht => exact absurd (apart_cons ht (by decide) _) hvs
  | @expressionStatement t m e' vs he' =>
    obtain ⟨d, hd, -⟩ := he'.exists_chain m e' rfl
    rw [← hd] at hvs
    obtain ⟨c', hc'⟩ := c.exists_append d hvs
    obtain ⟨n, hspells⟩ := c'.spells
    rw [hc', hd] at hspells
    exact h.spells hspells

/-- A clause that goes on in the statement behind it takes that one in, and leaves the others. -/
theorem IsClause.exists_merged {us vs : List Token} {ss : List Node} (h : IsClause us)
    (hss : Spells (.statements ss) vs) (hvs : ¬Apart vs) :
    ∃ ss', ss'.length = ss.length ∧ Spells (.statements ss') (us ++ vs) := by
  obtain ⟨ts, ws, k, e, rfl, hopens, he⟩ := h
  -- the first statement behind the clause is an expression, which continues that of the clause
  have hmerged {s : Node} {us vs : List Token} (hs : Spells (.statement s) us)
      (hus : ¬Apart (us ++ vs)) : ∃ s', Spells (.statement s') (ts ++ (ws ++ us)) := by
    rw [apart_append (Kind.ne_eof_of_startsStatement hs.startsWith)] at hus
    exact hopens.exists_merged he hs hus
  cases hss with
  | noStatements => exact absurd ⟨by decide, by decide⟩ hvs
  | @terminated t s ss us vs hs ht hss =>
    obtain ⟨s', hs'⟩ := hmerged hs hvs
    have hspells := Spells.terminated hs' ht hss
    simp only [List.append_assoc] at hspells ⊢
    exact ⟨s' :: ss, rfl, hspells⟩
  | @apart s ss us vs hs hss hapart =>
    obtain ⟨s', hs'⟩ := hmerged hs hvs
    have hspells := Spells.apart hs' hss hapart
    simp only [List.append_assoc] at hspells ⊢
    exact ⟨s' :: ss, rfl, hspells⟩

/-- A clause without a semicolon takes from the statement behind it what continues it. -/
theorem IsClause.isSpelled_append {us vs : List Token} {ss : List Node} (h : IsClause us)
    (hss : Spells (.statements ss) vs) : Nonterminal.statements.IsSpelled (us ++ vs) := by
  -- the statement ends here unless a minus or a parenthesis stands behind it
  by_cases hvs : Apart vs
  · obtain ⟨ts, ws, k, e, rfl, hopens, he⟩ := h
    obtain ⟨s, hs⟩ := hopens.spells he
    exact ⟨s :: ss, Spells.apart hs hss hvs⟩
  · obtain ⟨ss', -, hspells⟩ := h.exists_merged hss hvs
    exact ⟨ss', hspells⟩

/-- By induction on the derivation: only a clause without a semicolon is not spelled where it is
derived, since it may go on in the statement behind it. -/
theorem isSpelled_of_derives {n : Nonterminal} {ts : List Token} (h : Derives n ts)
    (hts : Numerals ts) : n.IsSpelled ts := by
  induction h with
  | identifier ht => exact ⟨_, _, Spells.identifier ht⟩
  | integer ht hv => exact ⟨_, _, Spells.integer ht (hts _ List.mem_cons_self ht) hv⟩
  | boolean ht => exact ⟨_, _, Spells.boolean ht⟩
  | unary ht he ih => exact isSpelled_unary ht (ih (numerals_cons.1 hts).2)
  | binary hl ht hr ihl ihr =>
    obtain ⟨hus, hvs⟩ := numerals_append.1 hts
    exact isSpelled_binary (ihl hus) (mem_binaryKinds.1 ht) (ihr (numerals_cons.1 hvs).2)
  | grouped hl he hr ih =>
    simp only [numerals_cons, numerals_append] at hts
    obtain ⟨k, e, hspells⟩ := ih hts.2.1
    exact ⟨_, e, Spells.grouped hl hspells hr⟩
  | conditional ht hl hc hr hb ihc ihb =>
    simp only [numerals_cons, numerals_append] at hts
    obtain ⟨-, -, hus, -, hvs⟩ := hts
    obtain ⟨k, c, hc'⟩ := ihc hus
    obtain ⟨b, hb'⟩ := ihb hvs
    exact ⟨_, _, Spells.conditional ht hl hc' hr hb'⟩
  | choice ht hl hc hr hb ho ha ihc ihb iha =>
    simp only [numerals_cons, numerals_append] at hts
    obtain ⟨-, -, hus, -, hvs, -, hws⟩ := hts
    obtain ⟨k, c, hc'⟩ := ihc hus
    obtain ⟨b, hb'⟩ := ihb hvs
    obtain ⟨a, ha'⟩ := iha hws
    exact ⟨_, _, Spells.choice ht hl hc' hr hb' ho ha'⟩
  | function ht hl hps hr hb ihps ihb =>
    simp only [numerals_cons, numerals_append] at hts
    obtain ⟨-, -, hus, -, hvs⟩ := hts
    obtain ⟨ps, hps'⟩ := ihps hus
    obtain ⟨b, hb'⟩ := ihb hvs
    exact ⟨_, _, Spells.function ht hl hps' hr hb'⟩
  | call hf hl has hr ihf ihas =>
    simp only [numerals_cons, numerals_append] at hts
    obtain ⟨hus, -, hvs, -⟩ := hts
    obtain ⟨as, has'⟩ := ihas hvs
    exact isSpelled_call (ihf hus) hl has' hr
  | parameter ht => exact ⟨_, Spells.parameter ht⟩
  | argument he ih =>
    obtain ⟨k, e, hspells⟩ := ih hts
    exact ⟨e, Spells.argument hspells⟩
  | noFurther => exact ⟨[], Spells.noFurther⟩
  | further ht hn hns ihn ihns =>
    simp only [numerals_cons, numerals_append] at hts
    obtain ⟨-, hus, hvs⟩ := hts
    obtain ⟨n, hn'⟩ := ihn hus
    obtain ⟨ns, hns'⟩ := ihns hvs
    exact ⟨n :: ns, Spells.further ht hn' hns'⟩
  | noItems => exact ⟨[], Spells.noItems⟩
  | items hn hns ihn ihns =>
    obtain ⟨hus, hvs⟩ := numerals_append.1 hts
    obtain ⟨n, hn'⟩ := ihn hus
    obtain ⟨ns, hns'⟩ := ihns hvs
    exact ⟨n :: ns, Spells.items hn' hns'⟩
  | @letClause t x a us ht hx ha he ih =>
    simp only [numerals_cons] at hts
    obtain ⟨k, e, hspells⟩ := ih hts.2.2.2
    exact ⟨[t, x, a], us, k, e, rfl, Opens.letClause ht hx ha, hspells⟩
  | @returnClause t us ht he ih =>
    obtain ⟨k, e, hspells⟩ := ih (numerals_cons.1 hts).2
    exact ⟨[t], us, k, e, rfl, Opens.returnClause ht, hspells⟩
  | @expressionClause us he ih =>
    obtain ⟨k, e, hspells⟩ := ih hts
    exact ⟨[], us, k, e, rfl, Opens.expressionClause, hspells⟩
  | @terminated t us hs ht ih => exact Or.inr ⟨us, t, rfl, ht, ih (numerals_append.1 hts).1⟩
  | unterminated hs ih => exact Or.inl (ih hts)
  | noStatements => exact ⟨[], Spells.noStatements⟩
  | @statements us vs hs hss ihs ihss =>
    obtain ⟨hus, hvs⟩ := numerals_append.1 hts
    obtain ⟨ss, hspells⟩ := ihss hvs
    rcases ihs hus with hclause | ⟨us, t, rfl, ht, ⟨_, _, k, e, rfl, hopens, he⟩⟩
    · exact hclause.isSpelled_append hspells
    · obtain ⟨s, hs⟩ := hopens.spells he
      rw [List.append_assoc]
      exact ⟨s :: ss, Spells.terminated hs ht hspells⟩
  | block hl hss hr ih =>
    simp only [numerals_cons, numerals_append] at hts
    obtain ⟨ss, hspells⟩ := ih hts.2.1
    exact ⟨_, Spells.block hl hspells hr⟩

/-- Every derivable row of tokens spells statements, in one strict way. -/
theorem spells_of_derives {ts : List Token} (h : Derives .statements ts) (hts : Numerals ts) :
    ∃ ss, Spells (.statements ss) ts :=
  isSpelled_of_derives h hts

theorem dropLast_tokenize (source : String) :
    (tokenize source).dropLast = (Cursor.ofString source).rest :=
  List.dropLast_concat

theorem numerals_ofString {source : String}
    (h : ∀ t ∈ (Cursor.ofString source).rest, t.kind = .int →
      t.literal.toList.length ≤ maxDigits) : Numerals (Cursor.ofString source).rest := by
  intro t ht hint
  have hlexical : Lexical .int t.literal.toList := hint ▸ isLexical_of_mem_lex ht
  obtain ⟨hne, hdigits⟩ := hlexical.digits
  exact ⟨hne, hdigits, h t ht hint⟩

/-- A text is read without a defect exactly if the grammar derives its tokens. -/
theorem defects_eq_nil_iff_derives (limit : Nat) (source : String)
    (hdigits : ∀ t ∈ tokenize source, t.kind = .int → t.literal.toList.length ≤ maxDigits)
    (hdeep : (parseWithin limit source).withinLimit) :
    (parseWithin limit source).oversized = none ∧
      ((parseWithin limit source).defects = [] ↔
        Derives .statements (tokenize source).dropLast) := by
  have hrest : ∀ t ∈ (Cursor.ofString source).rest, t.kind = .int →
      t.literal.toList.length ≤ maxDigits :=
    fun t ht => hdigits t (List.mem_append_left _ ht)
  have hoversized : (parseWithin limit source).oversized = none := oversized_eq_none hrest
  rw [dropLast_tokenize]
  -- both directions go through the strict spelling, of which reading finds the only one
  refine ⟨hoversized, fun h => ?_, fun h => ?_⟩
  · exact (spells_of_parse h hoversized).derives
  · obtain ⟨ss, hspells⟩ := spells_of_derives h (numerals_ofString hrest)
    have hrun : parseWithin limit source = _ := hspells.read limit hdeep
    rw [hrun, Run.defects_map_ok]

theorem derives_of_parse_greedy :
    (∀ t ∈ tokenize "let f = fn(x) \x7b -x \x7d f (1) -y !b", t.kind = .int →
      t.literal.toList.length ≤ maxDigits) ∧
    (parseWithin 9 "let f = fn(x) \x7b -x \x7d f (1) -y !b").withinLimit ∧
    Derives .statements (tokenize "let f = fn(x) \x7b -x \x7d f (1) -y !b").dropLast := by
  have hdigits : ∀ t ∈ tokenize "let f = fn(x) \x7b -x \x7d f (1) -y !b", t.kind = .int →
      t.literal.toList.length ≤ maxDigits := by decide +kernel
  have hdeep :
      (parseWithin 9 "let f = fn(x) \x7b -x \x7d f (1) -y !b").withinLimit := by
    decide +kernel
  refine ⟨hdigits, hdeep, (defects_eq_nil_iff_derives 9 _ hdigits hdeep).2.1 ?_⟩
  decide +kernel

end MonkeySyntax
