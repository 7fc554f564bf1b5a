import MonkeySyntax.Proofs.Leading

/-!
# What is spelled is read

Every spelling of a phrase is read as that phrase, whatever stands behind it, as long as the next
token does not continue the phrase. For an expression that is asked for at some level this says
more: once the tokens of the expression are read, reading continues it by the tokens behind it as
an operand of that level.
-/

namespace MonkeySyntax

/-- Whether tokens behind an expression of strength `k` leave it as it is. -/
def Follows (k : Nat) (ts : List Token) : Prop :=
  (nextKind ts).precedence.level ≤ k ∧ nextKind ts ≠ .wordElse

theorem Follows.mono {k m : Nat} {ts : List Token} (h : Follows k ts) (hkm : k ≤ m) :
    Follows m ts :=
  ⟨Nat.le_trans h.1 hkm, h.2⟩

theorem follows_cons {k : Nat} {t : Token} {ts : List Token}
    (hk : t.kind.precedence.level ≤ k) (ht : t.kind ≠ .wordElse) : Follows k (t :: ts) :=
  ⟨hk, ht⟩

theorem follows_rparen {t : Token} (ht : t.kind = .rparen) (ts : List Token) :
    Follows Precedence.lowest.level (t :: ts) := by
  apply follows_cons <;> rw [ht] <;> decide

theorem Spells.follows_further {s : Slot} {ns : List Node} {us ts : List Token}
    (h : Spells (.further s ns) us) (hts : nextKind ts = .rparen) :
    Follows Precedence.lowest.level (us ++ ts) := by
  have hstart : us = [] ∨ nextKind (us ++ ts) = .comma := by
    cases h with
    | noFurther => exact Or.inl rfl
    | further ht => exact Or.inr ht
  unfold Follows
  rcases hstart with rfl | hcomma
  · rw [List.nil_append, hts]
    decide
  · rw [hcomma]
    decide

/-- Statements that may stand behind one without a semicolon leave it as it is. -/
theorem Spells.follows_apart {ss : List Node} {us ts : List Token}
    (h : Spells (.statements ss) us) (hus : Apart us)
    (hts : nextKind ts = .rbrace ∨ nextKind ts = .eof) :
    Follows Precedence.lowest.level (us ++ ts) ∧ nextKind (us ++ ts) ≠ .semicolon := by
  unfold Follows
  cases us with
  | nil => rcases hts with hts | hts <;> rw [List.nil_append, hts] <;> decide
  | cons t us =>
    have hstart : t.kind = .eof ∨ t.kind.StartsStatement := h.startsWith
    have hapart : t.kind ≠ .minus ∧ t.kind ≠ .lparen := hus
    rw [List.cons_append, nextKind_cons]
    revert hstart hapart
    cases t.kind <;> decide

namespace Production

variable {sub : Nat → Production Node} {level : Nat}

/-- An expression ends where the next token does not bind tighter than the level asked for. -/
theorem leads_extend_stop {rules : Rules} (e : Node) (t : Token) {ts : List Token}
    (hts : (nextKind ts).precedence.level ≤ level) :
    Leads (extend sub rules level e) (t :: ts) (pure e) ts := by
  apply Leads.iterate_stop
  intro stop
  refine Or.inr ⟨t, ?_⟩
  change (if _ ∧ level < (Cursor.before (t :: ts) stop).peek.kind.precedence.level ∧ _ then _
    else pure none : Production (Option Node)) _ = _
  rw [kind_peek, if_neg (fun h => absurd h.2.1 (Nat.not_lt.2 hts))]

/-- One operator or call is taken, and the repetition goes on with the longer operand. -/
theorem Leads.extend_next {left n : Node} {op : Token} {ts us : List Token}
    (hop : op.kind ∈ Rules.standard.operatorKinds) (hlevel : level < op.kind.precedence.level)
    (hle : us.length ≤ ts.length) (t : Token)
    (h : Leads (if op.kind = .lparen then call sub left else binary sub left) (op :: ts)
      (pure n) us) :
    Leads (extend sub .standard level left) (t :: op :: ts) (extend sub .standard level n) us := by
  have hsemicolon : op.kind ≠ .semicolon := by
    intro heq
    rw [heq] at hop
    exact absurd hop (by decide)
  apply Leads.iterate_next
  · refine Leads.of_step (fun stop => ?_) (h.bind fun n => pure (some n))
    rw [continuation_eq]
    exact if_pos ⟨hsemicolon, hlevel, hop⟩
  · simp only [List.length_cons]
    omega

theorem Leads.extend_binary {l r : Node} {op : Token} {us ts : List Token}
    (hop : op.kind.IsBinary) (hlevel : level < op.kind.precedence.level) (t : Token)
    (h : Leads (sub op.kind.precedence.level) (us ++ ts) (pure r) ts) :
    Leads (extend sub .standard level l) (t :: op :: (us ++ ts))
      (extend sub .standard level (.binary op l op.literal r)) ts := by
  have hread : Leads (binary sub l) (op :: (us ++ ts)) (pure (.binary op l op.literal r)) ts := by
    unfold binary
    exact Leads.current (Leads.advance (h.bind _))
  apply Leads.extend_next hop.mem_operatorKinds hlevel
  · exact List.length_append ▸ Nat.le_add_left ts.length us.length
  · rw [if_neg hop.2]
    exact hread

theorem Leads.extend_call {f : Node} {as : List Node} {lp : Token} {us ts : List Token}
    (hlp : lp.kind = .lparen) (hlevel : level < Precedence.call.level)
    (hle : us.length ≤ ts.length) (t : Token)
    (h : Leads (arguments sub) (lp :: ts) (pure as) us) :
    Leads (extend sub .standard level f) (t :: lp :: ts)
      (extend sub .standard level (.call lp f as)) us := by
  have hread : Leads (call sub f) (lp :: ts) (pure (.call lp f as)) us := by
    unfold call
    exact Leads.current (h.bind _)
  apply Leads.extend_next (by rw [hlp]; decide) (by rw [hlp]; exact hlevel) hle
  rw [if_pos hlp]
  exact hread

/-- An expression is an operand and what continues it. -/
theorem Leads.expression_of_operand {limit : Nat} {e : Node} {ts us : List Token}
    (h : Leads (operand (within limit) .standard) ts (pure e) us) :
    Leads (within (limit + 1) level) ts
      (extend (within limit) .standard level e) us :=
  h.bind (extend (within limit) .standard level)

theorem Leads.operand {t : Token} {k : Kind} {y : Production Node} {ts us : List Token}
    (hk : t.kind = k) (hstart : k.StartsExpression)
    (h : Leads (primary sub k) (t :: ts) y us) :
    Leads (operand sub .standard) (t :: ts) y us := by
  subst hk
  refine Leads.of_step (fun stop => ?_) h
  rw [operand_eq]
  exact if_pos hstart

theorem leads_identifier (t : Token) (ts : List Token) :
    Leads identifier (t :: ts) (pure (.identifier t t.literal)) ts :=
  Leads.current (Leads.refl _ _ _)

theorem Leads.integer {t : Token} (ht : t.IsNumeral)
    (hv : decimalValue t.literal.toList ≤ maxInteger) (ts : List Token) :
    Leads integer (t :: ts) (pure (.integer t (decimalValue t.literal.toList))) ts :=
  fun stop => Or.inr ⟨t, integer_eq_of_isNumeral (c := .before (t :: ts) stop) ht hv⟩

/-- The first statement of a block is read, and then the others. -/
theorem Leads.blockStatements_cons {brace : Token} {s : Node} {ss : List Node}
    {ts us vs : List Token} (h : Leads (statement sub) ts (pure s) us)
    (hstart : (nextKind ts).StartsStatement) (hlt : us.length < ts.length)
    (h' : Leads (blockStatements sub brace) us (pure ss) vs) :
    Leads (blockStatements sub brace) ts (pure (s :: ss)) vs := by
  -- neither the closing brace nor the end of the text starts a statement
  have hne (k : Kind) (hk : ¬k.StartsStatement) (stop : Position) :
      (Cursor.before ts stop).current.kind ≠ k := by
    rw [kind_current]
    rintro rfl
    exact hk hstart
  apply Leads.many_next
  intro stop
  rw [current_bind, if_neg (hne .rbrace (by decide) stop), if_neg (hne .eof (by decide) stop)]
  rcases h.advanced (fun s => pure (some s)) stop with hgave | hs
  · exact Or.inl hgave
  · exact Or.inr ⟨us, hs, hlt, h'⟩

end Production

open Production

def Phrase.IsRead : Phrase → List Token → Prop
  | .expression k e, us => ∀ limit level rest, level ≤ Precedence.unary.level →
      (level < k ∨ Precedence.unary.level ≤ k) → Follows k rest →
      Leads (within (limit + 1) level) (us ++ rest)
        (extend (within limit) .standard level e) rest
  | .item s n, us => ∀ limit t rest, Follows Precedence.lowest.level rest →
      Leads (s.production (within limit)) (t :: (us ++ rest)) (pure n) rest
  | .further s ns, us => ∀ limit t rest, nextKind rest = .rparen →
      Leads (furtherItems (s.production (within limit))) (t :: (us ++ rest))
        (pure ns) rest
  | .items s ns, us => ∀ limit t r rest, r.kind = .rparen →
      Leads (s.list (within limit)) (t :: (us ++ r :: rest)) (pure ns) rest
  | .statement s, us => ∀ limit rest, Follows Precedence.lowest.level rest →
      Leads (Production.statement (within limit)) (us ++ rest)
        (do allow .semicolon; return s) rest
  | .statements ss, us => ∀ limit brace r rest, r.kind = .rbrace →
      Leads (blockStatements (within limit) brace) (us ++ r :: rest) (pure ss) rest
  | .block b, us => ∀ limit rest,
      Leads (Production.block (within limit)) (us ++ rest) (pure b) rest

theorem Spells.lowest_lt {k : Nat} {e : Node} {us : List Token}
    (h : Spells (.expression k e) us) : Precedence.lowest.level < k := by
  generalize hφ : Phrase.expression k e = φ at h
  cases h <;> cases hφ <;> first | decide | exact ‹Kind.IsBinary _›.1

section

variable {k : Nat} {e : Node} {us : List Token}

/-- An expression of the level asked for is read up to a token that does not continue it. -/
theorem IsRead.expression (h : (Phrase.expression k e).IsRead us) (limit level : Nat)
    (rest : List Token) (hlevel : level ≤ Precedence.unary.level)
    (hk : level < k ∨ Precedence.unary.level ≤ k) (hrest : Follows level rest) :
    Leads (within limit level) (us ++ rest) (pure e) rest := by
  cases limit with
  | zero => exact Leads.of_gaveUp fun stop => ⟨_, _, rfl⟩
  | succ limit =>
    have hle : level ≤ k := by omega
    exact (h limit level rest hlevel hk (hrest.mono hle)).trans
      fun t => leads_extend_stop e t hrest.1

theorem IsRead.nextExpression (h : (Phrase.expression k e).IsRead us)
    (hk : Precedence.lowest.level < k) (limit : Nat) (t : Token) (rest : List Token)
    (hrest : Follows Precedence.lowest.level rest) :
    Leads (Production.nextExpression (within limit)) (t :: (us ++ rest))
      (pure e) rest := by
  unfold Production.nextExpression
  exact Leads.advance (IsRead.expression h limit _ rest (by decide) (Or.inl hk) hrest)

end

theorem IsRead.terminated {s : Node} {us : List Token} (h : (Phrase.statement s).IsRead us)
    (limit : Nat) {t : Token} (ht : t.kind = .semicolon) (ts : List Token) :
    Leads (Production.statement (within limit)) (us ++ t :: ts) (pure s) ts := by
  have hnext : Follows Precedence.lowest.level (t :: ts) := by
    apply follows_cons <;> rw [ht] <;> decide
  apply (h limit (t :: ts) hnext).trans
  intro u
  exact Leads.allow ht (Leads.refl _ _ _)

theorem IsRead.apart {s : Node} {us : List Token} (h : (Phrase.statement s).IsRead us)
    (limit : Nat) {ts : List Token} (hts : Follows Precedence.lowest.level ts)
    (hsemicolon : nextKind ts ≠ .semicolon) :
    Leads (Production.statement (within limit)) (us ++ ts) (pure s) ts := by
  apply (h limit ts hts).trans
  intro u
  exact Leads.allow_of_ne hsemicolon (Leads.refl _ _ _)

theorem IsRead.expect_block {α : Type} {b : Node} {f : Node → Production α} {y : Production α}
    {us ts vs : List Token} (hb : Spells (.block b) us) (h : (Phrase.block b).IsRead us)
    {limit : Nat} {t : Token} (h' : ∀ u, Leads (f b) (u :: ts) y vs) :
    Leads (do expect .lbrace; f (← Production.block (within limit))) (t :: (us ++ ts)) y vs := by
  have hstart : nextKind us = .lbrace := hb.startsWith
  cases us with
  | nil => cases hstart
  | cons u us =>
    rw [List.cons_append]
    exact Leads.expect hstart ((h limit ts).bind_next h')

section

variable {t l r : Token} {k : Nat} {us vs : List Token}

theorem IsRead.grouped {e : Node} (hl : l.kind = .lparen) (hk : Precedence.lowest.level < k)
    (he : (Phrase.expression k e).IsRead us) (hr : r.kind = .rparen) :
    (Phrase.expression atomic e).IsRead (l :: (us ++ [r])) := by
  intro limit level rest _ _ _
  have hread :
      Leads (Production.grouped (within limit)) (l :: (us ++ r :: rest)) (pure e) rest := by
    unfold Production.grouped
    apply (IsRead.nextExpression he hk limit l _ (follows_rparen hr rest)).bind_next
    intro t
    exact Leads.expect hr (Leads.refl _ _ _)
  simp only [List.cons_append, List.append_assoc, List.nil_append]
  exact Leads.expression_of_operand (Leads.operand hl (by decide) hread)

/-- A choice up to the end of its first block: what is left is to look for an else. -/
theorem IsRead.consequence {c b : Node} {limit : Nat} {y : Production Node} {ts ws : List Token}
    (hl : l.kind = .lparen) (hk : Precedence.lowest.level < k)
    (hc : (Phrase.expression k c).IsRead us) (hr : r.kind = .rparen) (hb : Spells (.block b) vs)
    (ihb : (Phrase.block b).IsRead vs)
    (h : ∀ u v : Token, u.kind = nextKind ts → Leads (if u.kind = .wordElse then do
        Production.advance
        expect .lbrace
        return .conditional t c b (some (← Production.block (within limit)))
      else return .conditional t c b none) (v :: ts) y ws) :
    Leads (Production.conditional (within limit)) (t :: l :: (us ++ r :: (vs ++ ts))) y ws := by
  unfold Production.conditional
  apply Leads.current
  apply Leads.expect hl
  apply (IsRead.nextExpression hc hk limit l _ (follows_rparen hr _)).bind_next
  intro u
  apply Leads.expect hr
  apply IsRead.expect_block hb ihb
  intro v
  apply Leads.peek
  intro w hw
  exact h w v hw

theorem IsRead.conditional {c b : Node} (ht : t.kind = .wordIf) (hl : l.kind = .lparen)
    (hk : Precedence.lowest.level < k) (hc : (Phrase.expression k c).IsRead us)
    (hr : r.kind = .rparen) (hb : Spells (.block b) vs) (ihb : (Phrase.block b).IsRead vs) :
    (Phrase.expression atomic (.conditional t c b none)).IsRead (t :: l :: (us ++ r :: vs)) := by
  intro limit level rest _ _ hrest
  have hread : Leads (Production.conditional (within limit))
      (t :: l :: (us ++ r :: (vs ++ rest))) (pure (.conditional t c b none)) rest := by
    apply IsRead.consequence hl hk hc hr hb ihb
    intro u v hu
    -- no else stands behind the block, so the choice ends here
    have helse : u.kind ≠ .wordElse := by
      rw [hu]
      exact hrest.2
    rw [if_neg helse]
    exact Leads.refl _ _ _
  simp only [List.cons_append, List.append_assoc]
  exact Leads.expression_of_operand (Leads.operand ht (by decide) hread)

theorem IsRead.choice {o : Token} {c b a : Node} {ws : List Token} (ht : t.kind = .wordIf)
    (hl : l.kind = .lparen) (hk : Precedence.lowest.level < k)
    (hc : (Phrase.expression k c).IsRead us) (hr : r.kind = .rparen) (hb : Spells (.block b) vs)
    (ihb : (Phrase.block b).IsRead vs) (ho : o.kind = .wordElse) (ha : Spells (.block a) ws)
    (iha : (Phrase.block a).IsRead ws) :
    (Phrase.expression atomic (.conditional t c b (some a))).IsRead
      (t :: l :: (us ++ r :: (vs ++ o :: ws))) := by
  intro limit level rest _ _ _
  have hread : Leads (Production.conditional (within limit))
      (t :: l :: (us ++ r :: (vs ++ o :: (ws ++ rest)))) (pure (.conditional t c b (some a)))
      rest := by
    apply IsRead.consequence hl hk hc hr hb ihb
    intro u v hu
    have helse : u.kind = .wordElse := hu.trans ho
    rw [if_pos helse]
    apply Leads.advance
    apply IsRead.expect_block ha iha
    intro x
    exact Leads.refl _ _ _
  simp only [List.cons_append, List.append_assoc]
  exact Leads.expression_of_operand (Leads.operand ht (by decide) hread)

theorem IsRead.function {ps : List Node} {b : Node} (ht : t.kind = .wordFn) (hl : l.kind = .lparen)
    (hps : (Phrase.items .parameter ps).IsRead us) (hr : r.kind = .rparen)
    (hb : Spells (.block b) vs) (ihb : (Phrase.block b).IsRead vs) :
    (Phrase.expression atomic (.function t ps b)).IsRead (t :: l :: (us ++ r :: vs)) := by
  intro limit level rest _ _ _
  have hread : Leads (functionLiteral (within limit)) (t :: l :: (us ++ r :: (vs ++ rest)))
      (pure (.function t ps b)) rest := by
    unfold functionLiteral
    apply Leads.current
    apply Leads.expect hl
    apply (hps limit l r (vs ++ rest) hr).bind_next
    intro u
    apply IsRead.expect_block hb ihb
    intro v
    exact Leads.refl _ _ _
  simp only [List.cons_append, List.append_assoc]
  exact Leads.expression_of_operand (Leads.operand ht (by decide) hread)

theorem IsRead.call {f : Node} {as : List Node} (hf : (Phrase.expression k f).IsRead us)
    (hk : Precedence.call.level ≤ k) (hl : l.kind = .lparen)
    (has : (Phrase.items .argument as).IsRead vs) (hr : r.kind = .rparen) :
    (Phrase.expression Precedence.call.level (.call l f as)).IsRead
      (us ++ l :: (vs ++ [r])) := by
  intro limit level rest hlevel _ _
  have hnext : Follows k (l :: (vs ++ r :: rest)) := by
    apply follows_cons <;> rw [hl]
    · exact hk
    · decide
  have hlt : level < k ∨ Precedence.unary.level ≤ k := Or.inr (Nat.le_trans (by decide) hk)
  simp only [List.cons_append, List.append_assoc, List.nil_append]
  -- the callee is read first, and then the loop takes the parenthesis
  apply (hf limit level _ hlevel hlt hnext).trans
  intro t
  apply Leads.extend_call hl (Nat.lt_of_le_of_lt hlevel (by decide)) _ t (has limit l r rest hr)
  simp only [List.length_append, List.length_cons]
  omega

theorem IsRead.unary {e : Node} (ht : t.kind = .bang ∨ t.kind = .minus)
    (he : (Phrase.expression k e).IsRead us) (hk : Precedence.unary.level ≤ k) :
    (Phrase.expression Precedence.unary.level (.unary t t.literal e)).IsRead (t :: us) := by
  intro limit level rest _ _ hrest
  have hread : Leads (Production.unary (within limit)) (t :: (us ++ rest))
      (pure (.unary t t.literal e)) rest := by
    unfold Production.unary
    apply Leads.current
    apply Leads.advance
    exact (IsRead.expression he limit _ rest (by decide) (Or.inr hk) hrest).bind _
  apply Leads.expression_of_operand
  rcases ht with ht | ht <;> exact Leads.operand ht (by decide) hread

theorem IsRead.binary {m : Nat} {e e' : Node} (ht : t.kind.IsBinary)
    (he : (Phrase.expression k e).IsRead us) (hk : t.kind.precedence.level ≤ k)
    (he' : (Phrase.expression m e').IsRead vs) (hm : t.kind.precedence.level < m) :
    (Phrase.expression t.kind.precedence.level (.binary t e t.literal e')).IsRead
      (us ++ t :: vs) := by
  intro limit level rest hlevel hlt hrest
  have helse : t.kind ≠ .wordElse := ht.ne (by decide)
  have hlow := ht.1
  have hunary := ht.level_lt
  have hlevel' : level < t.kind.precedence.level := by omega
  simp only [List.append_assoc, List.cons_append]
  -- the operator binds tighter than the level asked for, so the loop takes it behind its operand
  apply (he limit level _ hlevel (Or.inl (by omega)) (follows_cons hk helse)).trans
  intro u
  exact Leads.extend_binary ht hlevel' u
    (IsRead.expression he' limit _ rest (by omega) (Or.inl hm) hrest)

theorem IsRead.further {s : Slot} {n : Node} {ns : List Node} (ht : t.kind = .comma)
    (hn : (Phrase.item s n).IsRead us) (hns : Spells (.further s ns) vs)
    (ihns : (Phrase.further s ns).IsRead vs) :
    (Phrase.further s (n :: ns)).IsRead (t :: (us ++ vs)) := by
  intro limit l rest hrest
  have hitem : Leads (do
      let t ← peek
      if t.kind = .comma then
        advance
        return some (← s.production (within limit))
      else return none) (l :: t :: (us ++ (vs ++ rest))) (pure (some n)) (vs ++ rest) := by
    apply Leads.peek
    intro u hu
    rw [if_pos (by rw [hu]; exact ht)]
    exact Leads.advance ((hn limit t _ (hns.follows_further hrest)).bind _)
  simp only [List.cons_append, List.append_assoc]
  apply Leads.many_next
  intro stop
  rcases hitem stop with hgave | ⟨u, hu⟩
  · exact Or.inl hgave
  · refine Or.inr ⟨u :: (vs ++ rest), hu, ?_, ihns limit u rest hrest⟩
    simp only [List.length_append, List.length_cons]
    omega

theorem IsRead.items {s : Slot} {n : Node} {ns : List Node} (hn : Spells (.item s n) us)
    (ihn : (Phrase.item s n).IsRead us) (hns : Spells (.further s ns) vs)
    (ihns : (Phrase.further s ns).IsRead vs) :
    (Phrase.items s (n :: ns)).IsRead (us ++ vs) := by
  intro limit l r rest hr
  have hstart : (nextKind us).StartsExpression := hn.startsWith
  -- an item does not start with the parenthesis that would make the list empty
  have hfirst : nextKind (us ++ (vs ++ r :: rest)) ≠ .rparen := by
    rw [nextKind_append us _ (Kind.ne_eof_of_startsStatement (Or.inr (Or.inr hstart)))]
    intro h
    rw [h] at hstart
    exact absurd hstart (by decide)
  rw [list_eq, List.append_assoc]
  apply Leads.peek
  intro u hu
  rw [if_neg (by rw [hu]; exact hfirst)]
  have hclosing : nextKind (r :: rest) = .rparen := hr
  apply (ihn limit l _ (hns.follows_further hclosing)).bind_next
  intro v
  apply (ihns limit v (r :: rest) hr).bind_next
  intro w
  exact Leads.expect hr (Leads.refl _ _ _)

theorem IsRead.letStatement {x a : Token} {e : Node} (ht : t.kind = .wordLet)
    (hx : x.kind = .ident) (ha : a.kind = .assign) (hk : Precedence.lowest.level < k)
    (he : (Phrase.expression k e).IsRead us) :
    (Phrase.statement (.letStatement t (.identifier x x.literal) e)).IsRead
      (t :: x :: a :: us) := by
  intro limit rest hrest
  have hread : Leads (Production.letStatement (within limit)) (t :: x :: a :: (us ++ rest))
      (do allow .semicolon; return .letStatement t (.identifier x x.literal) e) rest := by
    unfold Production.letStatement
    apply Leads.current
    apply Leads.expect hx
    apply (leads_identifier x _).bind_next
    intro u
    apply Leads.expect ha
    exact (IsRead.nextExpression he hk limit a rest hrest).bind _
  exact Leads.of_step (fun stop => statement_of_let ht) hread

theorem IsRead.returnStatement {e : Node} (ht : t.kind = .wordReturn)
    (hk : Precedence.lowest.level < k) (he : (Phrase.expression k e).IsRead us) :
    (Phrase.statement (.returnStatement t e)).IsRead (t :: us) := by
  intro limit rest hrest
  have hread : Leads (Production.returnStatement (within limit)) (t :: (us ++ rest))
      (do allow .semicolon; return .returnStatement t e) rest := by
    unfold Production.returnStatement
    apply Leads.current
    exact (IsRead.nextExpression he hk limit t rest hrest).bind _
  exact Leads.of_step (fun stop => statement_of_return ht) hread

theorem IsRead.expressionStatement {e : Node} (he : Spells (.expression k e) (t :: us))
    (ih : (Phrase.expression k e).IsRead (t :: us)) :
    (Phrase.statement (.expressionStatement t e)).IsRead (t :: us) := by
  intro limit rest hrest
  have hstart : t.kind.StartsExpression := he.startsWith
  have hread : Leads (Production.expressionStatement (within limit)) (t :: (us ++ rest))
      (do allow .semicolon; return .expressionStatement t e) rest := by
    unfold Production.expressionStatement
    apply Leads.current
    exact (IsRead.expression ih limit _ rest (by decide) (Or.inl he.lowest_lt) hrest).bind _
  exact Leads.of_step (fun stop => statement_of_startsExpression hstart) hread

theorem IsRead.statements {s : Node} {ss : List Node} {ts : List Token}
    (hstart : (nextKind ts).StartsStatement) (hlt : vs.length < ts.length)
    (hread : ∀ limit r rest, r.kind = .rbrace →
      Leads (Production.statement (within limit)) (ts ++ r :: rest) (pure s) (vs ++ r :: rest))
    (hss : (Phrase.statements ss).IsRead vs) : (Phrase.statements (s :: ss)).IsRead ts := by
  intro limit brace r rest hr
  apply Leads.blockStatements_cons (hread limit r rest hr)
  · rw [nextKind_append _ _ (Kind.ne_eof_of_startsStatement hstart)]
    exact hstart
  · simp only [List.length_append, List.length_cons]
    omega
  · exact hss limit brace r rest hr

theorem Spells.startsStatement {s : Node} (hs : Spells (.statement s) us) (ts : List Token) :
    (nextKind (us ++ ts)).StartsStatement := by
  have hstart : (nextKind us).StartsStatement := hs.startsWith
  rw [nextKind_append us ts (Kind.ne_eof_of_startsStatement hstart)]
  exact hstart

theorem Spells.length_lt {s : Node} (hs : Spells (.statement s) us) (ts : List Token) :
    ts.length < (us ++ ts).length := by
  have hpos : 0 < us.length := List.length_pos_iff.2 hs.ne_nil_of_statement
  rw [List.length_append]
  omega

theorem Spells.length_lt_cons {s : Node} (hs : Spells (.statement s) us) (t : Token)
    (ts : List Token) : ts.length < (us ++ t :: ts).length :=
  Nat.lt_trans (Nat.lt_succ_self _) (hs.length_lt (t :: ts))

theorem IsRead.block {ss : List Node}
    (hss : (Phrase.statements ss).IsRead us) (hr : r.kind = .rbrace) :
    (Phrase.block (.block l ss)).IsRead (l :: (us ++ [r])) := by
  intro limit rest
  simp only [List.cons_append, List.append_assoc, List.nil_append]
  unfold Production.block
  apply Leads.current
  apply Leads.advance
  exact (hss limit l r rest hr).bind _

end

/-- All that is spelled is read, by induction on how it is spelled. -/
theorem isRead_of_spells {φ : Phrase} {us : List Token} (h : Spells φ us) : φ.IsRead us := by
  -- each case is the lemma of its construct
  induction h with
  | identifier ht =>
    intro limit level rest _ _ _
    exact Leads.expression_of_operand (Leads.operand ht (by decide) (leads_identifier _ rest))
  | integer ht hd hv =>
    intro limit level rest _ _ _
    exact Leads.expression_of_operand (Leads.operand ht (by decide) (Leads.integer hd hv rest))
  | boolean ht =>
    intro limit level rest _ _ _
    apply Leads.expression_of_operand
    rcases ht with ht | ht <;>
      exact Leads.operand ht (by decide) (Leads.current (Leads.refl _ _ _))
  | grouped hl he hr ih => exact IsRead.grouped hl he.lowest_lt ih hr
  | conditional ht hl hc hr hb ihc ihb =>
    exact IsRead.conditional ht hl hc.lowest_lt ihc hr hb ihb
  | choice ht hl hc hr hb ho ha ihc ihb iha =>
    exact IsRead.choice ht hl hc.lowest_lt ihc hr hb ihb ho ha iha
  | function ht hl hps hr hb ihps ihb => exact IsRead.function ht hl ihps hr hb ihb
  | call hf hk hl has hr ihf ihas => exact IsRead.call ihf hk hl ihas hr
  | unary ht he hk ih => exact IsRead.unary ht ih hk
  | binary ht hl hk hr hm ihl ihr => exact IsRead.binary ht ihl hk ihr hm
  | parameter ht =>
    intro limit u rest _
    exact Leads.expect ht (leads_identifier _ rest)
  | argument he ih =>
    intro limit t rest hrest
    exact IsRead.nextExpression ih he.lowest_lt limit t rest hrest
  | noFurther =>
    intro limit t rest hrest
    apply Leads.many_stop
    apply Leads.peek
    intro u hu
    rw [if_neg (by rw [hu, List.nil_append, hrest]; decide)]
    exact Leads.refl _ _ _
  | further ht hn hns ihn ihns => exact IsRead.further ht ihn hns ihns
  | noItems =>
    intro limit t r rest hr
    rw [list_eq]
    apply Leads.peek
    intro u hu
    rw [if_pos (by rw [hu]; exact hr)]
    exact Leads.advance (Leads.refl _ _ _)
  | items hn hns ihn ihns => exact IsRead.items hn ihn hns ihns
  | letStatement ht hx ha he ih => exact IsRead.letStatement ht hx ha he.lowest_lt ih
  | returnStatement ht he ih => exact IsRead.returnStatement ht he.lowest_lt ih
  | expressionStatement he ih => exact IsRead.expressionStatement he ih
  | noStatements =>
    intro limit brace r rest hr
    apply Leads.many_stop
    apply Leads.current
    rw [if_pos hr]
    exact Leads.refl _ _ _
  | @terminated t s ss us vs hs ht hss ihs ihss =>
    refine IsRead.statements (hs.startsStatement _) (hs.length_lt_cons t vs) ?_ ihss
    intro limit r rest _
    rw [List.append_assoc]
    exact IsRead.terminated ihs limit ht (vs ++ r :: rest)
  | @apart s ss us vs hs hss hvs ihs ihss =>
    refine IsRead.statements (hs.startsStatement _) (hs.length_lt vs) ?_ ihss
    intro limit r rest hr
    have hnext := hss.follows_apart hvs (show nextKind (r :: rest) = .rbrace ∨ _ from Or.inl hr)
    rw [List.append_assoc]
    exact IsRead.apart ihs limit hnext.1 hnext.2
  | block _ _ hr ih => exact IsRead.block ih hr

/-- The first of several statements is read up to the others, with its semicolon if it has one. -/
theorem Spells.statements_cons {s : Node} {ss : List Node} {ts : List Token}
    (h : Spells (.statements (s :: ss)) ts) :
    ∃ us, Spells (.statements ss) us ∧ us.length < ts.length ∧ (nextKind ts).StartsStatement ∧
      ∀ limit, Leads (statementWithin .standard limit) ts (pure s) us := by
  cases h with
  | @terminated t _ _ us vs hs ht hss =>
    exact ⟨vs, hss, hs.length_lt_cons t vs, hs.startsStatement _,
      fun limit => IsRead.terminated (isRead_of_spells hs) limit ht vs⟩
  | @apart _ _ us vs hs hss hvs =>
    have hnext := hss.follows_apart hvs (show nextKind [] = .rbrace ∨ _ from Or.inr rfl)
    rw [List.append_nil] at hnext
    exact ⟨vs, hss, hs.length_lt vs, hs.startsStatement _,
      fun limit => IsRead.apart (isRead_of_spells hs) limit hnext.1 hnext.2⟩

/-- A row of tokens that spells statements is read as these statements, without a defect. -/
theorem runFrom_of_spells {ss : List Node} {ts : List Token} (h : Spells (.statements ss) ts)
    (limit : Nat) (stop : Position) :
    let run := runFrom (statementWithin .standard limit) (.before ts stop)
    (∃ e ∈ run.defects, e.isNesting) ∨ run = ⟨ss.map .ok, .before [] stop, none⟩ := by
  intro run
  -- the statements are read one by one from the front of the tokens
  induction ss generalizing ts with
  | nil =>
    cases h
    exact Or.inr (runFrom_of_eof rfl)
  | cons s ss ih =>
    obtain ⟨us, hss, hlt, hstart, hread⟩ := h.statements_cons
    have hcurrent : (Cursor.before ts stop).current.kind ≠ .eof := by
      rw [kind_current]
      exact Kind.ne_eof_of_startsStatement hstart
    rcases hread limit stop with ⟨u, d, hx⟩ | ⟨t, hx⟩
    · exact Or.inl ⟨.nestedTooDeeply u, mem_defects_of_error hcurrent hx, rfl⟩
    · have hrun :
          run = (runFrom (statementWithin .standard limit) (.before us stop)).cons (.ok s) :=
        runFrom_of_ok hcurrent hx hlt
      rw [hrun]
      rcases ih hss with hmem | heq
      · exact Or.inl hmem
      · right
        rw [heq]
        rfl

@[simp] theorem Run.statements_map_ok (ss : List Node) (c : Cursor) :
    (⟨ss.map .ok, c, none⟩ : Run).statements = ss := by
  unfold Run.statements
  rw [List.filterMap_map]
  exact List.filterMap_some

@[simp] theorem Run.defects_map_ok (ss : List Node) (c : Cursor) :
    (⟨ss.map .ok, c, none⟩ : Run).defects = [] := by
  unfold Run.defects
  rw [List.filterMap_map]
  exact List.filterMap_eq_nil_iff.2 fun _ _ => rfl

/-- Statements that are spelled by all tokens ahead are what a run reads, unless it gives up. -/
theorem Spells.read {ss : List Node} {c : Cursor} (h : Spells (.statements ss) c.rest)
    (limit : Nat)
    (hdeep : (runFrom (statementWithin .standard limit) c).withinLimit) :
    runFrom (statementWithin .standard limit) c = ⟨ss.map .ok, .before [] c.stop, none⟩ := by
  have hc : Cursor.before c.rest c.stop = c := Cursor.ext rfl rfl
  have hrun := runFrom_of_spells h limit c.stop
  rw [hc] at hrun
  exact hrun.resolve_left fun ⟨e, he, hnesting⟩ => Run.withinLimit_iff.1 hdeep e he hnesting

end MonkeySyntax
