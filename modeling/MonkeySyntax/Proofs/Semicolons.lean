import MonkeySyntax.Proofs.Blanking
import MonkeySyntax.Proofs.Breaking
import MonkeySyntax.Proofs.Traversal

/-!
# Where a semicolon is optional

A semicolon can be left out of a text without a defect. If neither a minus nor an opening
parenthesis stands behind it, the same tree is read. Otherwise the statement in front of it goes on
in the one behind it, so the list in which it stands loses a statement. No production but that of
statements looks at the semicolon, so a text is taken apart down to the list in which it stands, and
put together again around what that list becomes.
-/

namespace MonkeySyntax

open Production

/-- The row `ts'` is `ts` without a semicolon `t` that stands in front of `vs`. -/
structure Without (t : Token) (vs ts ts' : List Token) : Prop where
  kind_eq : t.kind = .semicolon
  split : ∃ us, ts = us ++ t :: vs ∧ ts' = us ++ vs

section

variable {t a : Token} {vs ts ts' xs ys : List Token}

theorem Without.ne_nil (h : Without t vs ts ts') : ts ≠ [] := by
  obtain ⟨us, rfl, -⟩ := h.split
  exact List.append_ne_nil_of_right_ne_nil us (List.cons_ne_nil t vs)

theorem Without.cons_cases (h : Without t vs (a :: ts) ts') :
    a = t ∧ ts = vs ∧ ts' = vs ∨ ∃ xs', ts' = a :: xs' ∧ Without t vs ts xs' := by
  obtain ⟨us, heq, rfl⟩ := h.split
  cases us with
  | nil =>
    obtain ⟨rfl, rfl⟩ := List.cons.inj heq
    exact Or.inl ⟨rfl, rfl, rfl⟩
  | cons u us =>
    obtain ⟨rfl, rfl⟩ := List.cons.inj heq
    exact Or.inr ⟨us ++ vs, rfl, h.kind_eq, us, rfl, rfl⟩

theorem Without.cons (h : Without t vs (a :: ts) ts') (ha : a.kind ≠ .semicolon) :
    ∃ xs', ts' = a :: xs' ∧ Without t vs ts xs' := by
  rcases h.cons_cases with ⟨rfl, -, -⟩ | hmore
  · exact absurd h.kind_eq ha
  · exact hmore

theorem Without.not_singleton (h : Without t vs [a] ts') (ha : a.kind ≠ .semicolon) : False := by
  obtain ⟨xs', -, hmore⟩ := h.cons ha
  exact hmore.ne_nil rfl

/-- A semicolon of two rows in a row is one of the first or one of the second. -/
theorem Without.append (h : Without t vs (xs ++ ys) ts') :
    (∃ ws xs', vs = ws ++ ys ∧ ts' = xs' ++ ys ∧ Without t ws xs xs') ∨
      ∃ ys', ts' = xs ++ ys' ∧ Without t vs ys ys' := by
  obtain ⟨us, heq, rfl⟩ := h.split
  rcases List.append_eq_append_iff.1 heq with ⟨ws, rfl, rfl⟩ | ⟨ws, rfl, htail⟩
  · exact Or.inr ⟨ws ++ vs, List.append_assoc xs ws vs, h.kind_eq, ws, rfl, rfl⟩
  cases ws with
  | nil =>
    rw [List.append_nil]
    rw [List.nil_append] at htail
    exact Or.inr ⟨vs, rfl, h.kind_eq, [], htail.symm, rfl⟩
  | cons w ws =>
    obtain ⟨rfl, rfl⟩ := List.cons.inj htail
    exact Or.inl ⟨ws, us ++ ws, rfl, (List.append_assoc us ws ys).symm, h.kind_eq, us, rfl, rfl⟩

/-- Where the semicolon is not the last token, what follows it does not depend on what follows the
row. -/
theorem Without.apart_iff (h : Without t vs xs ts') (hxs : lastKind xs ≠ .semicolon)
    (ys : List Token) : Apart (vs ++ ys) ↔ Apart vs := by
  obtain ⟨us, rfl, -⟩ := h.split
  cases vs with
  | nil =>
    rw [lastKind_append (List.cons_ne_nil t []), lastKind_singleton] at hxs
    exact absurd h.kind_eq hxs
  | cons v vs => exact Iff.rfl

/-- A row that does not start with a semicolon keeps its first token. -/
theorem Without.apart (h : Without t vs ts ts') (hts : nextKind ts ≠ .semicolon)
    (hapart : Apart ts) : Apart ts' := by
  obtain ⟨us, rfl, rfl⟩ := h.split
  cases us with
  | nil => exact absurd h.kind_eq hts
  | cons u us => exact hapart

end

/-- Only the last token of statements can be a semicolon. -/
theorem Spells.lastKind_ne {φ : Phrase} {us : List Token} (h : Spells φ us)
    (hφ : ∀ ss, φ ≠ .statements ss) : lastKind us ≠ .semicolon := by
  have hends := h.endsWith
  cases φ with
  | statements ss => exact absurd rfl (hφ ss)
  | further | items =>
    -- these can be empty, and then there is no last token
    rcases hends with hends | hends
    · rw [hends]
      decide
    · exact Kind.ne_semicolon_of_endsExpression hends
  | expression | item | statement | block => exact Kind.ne_semicolon_of_endsExpression hends

/-- The token `t` ends a statement of `ss`, which is spelled by `us`, `t` and `vs`, and `ss'` has
one statement fewer. -/
structure LosesOne (t : Token) (us vs : List Token) (ss ss' : List Node) : Prop where
  stands : ∃ front back, ss = front ++ back ∧ Spells (.statements front) (us ++ [t]) ∧
    Spells (.statements back) vs
  length_eq : ss'.length + 1 = ss.length

/-- Of two phrases the first one is spelled by `ts`, and the list of statements in which `t` stands
has one statement fewer in the second one. A list in a block is found by the brace of the block. -/
inductive Loses (t : Token) : List Token → Phrase → Phrase → Prop
  | here {us vs : List Token} {ss ss' : List Node} (h : LosesOne t us vs ss ss') :
      Loses t (us ++ t :: vs) (.statements ss) (.statements ss')
  | inside {us vs ts : List Token} {l r : Token} {ss ss' : List Node} {φ φ' : Phrase}
      (hblock : .block l ss ∈ φ.parts) (hblock' : .block l ss' ∈ φ'.parts)
      (hts : l :: (us ++ t :: (vs ++ [r])) <:+: ts) (h : LosesOne t us vs ss ss') :
      Loses t ts φ φ'

inductive Phrase.Like : Phrase → Phrase → Prop
  | expression (k : Nat) (e e' : Node) : Like (.expression k e) (.expression k e')
  | item (s : Slot) (n n' : Node) : Like (.item s n) (.item s n')
  | further (s : Slot) (ns ns' : List Node) : Like (.further s ns) (.further s ns')
  | items (s : Slot) (ns ns' : List Node) : Like (.items s ns) (.items s ns')
  | statement (s s' : Node) : Like (.statement s) (.statement s')
  | statements (ss ss' : List Node) : Like (.statements ss) (.statements ss')
  | block (b b' : Node) : Like (.block b) (.block b')

theorem Phrase.Like.exists_statements {ss : List Node} {φ : Phrase}
    (h : (Phrase.statements ss).Like φ) : ∃ ss', φ = .statements ss' := by
  cases h
  exact ⟨_, rfl⟩

/-- What a phrase becomes when a semicolon `t` in front of `vs` is left out. -/
structure Respelled (t : Token) (vs ts ts' : List Token) (φ φ' : Phrase) : Prop where
  like : φ.Like φ'
  spells : Spells φ' ts'
  same : Apart vs → φ' = φ
  loses : ¬Apart vs → Loses t ts φ φ'

section

variable {t : Token} {us vs ws ts us' ts' : List Token} {φ φ' ψ ψ' : Phrase}

/-- What a list of statements loses, every phrase around it loses. -/
theorem Loses.within (h : Loses t us ψ ψ') (hψ : ∀ ss, ψ ≠ .statements ss) (hts : us <:+: ts)
    (hparts : ψ.parts ⊆ φ.parts) (hparts' : ψ'.parts ⊆ φ'.parts) : Loses t ts φ φ' := by
  cases h with
  | here h => exact absurd rfl (hψ _)
  | inside hblock hblock' hrow h =>
    exact Loses.inside (hparts hblock) (hparts' hblock') (hrow.trans hts) h

/-- What a part becomes the whole becomes. -/
theorem Respelled.within (h : Respelled t ws us us' ψ ψ') (hψ : ∀ ss, ψ ≠ .statements ss)
    (hapart : Apart vs ↔ Apart ws) (hlike : φ.Like φ') (hspells : Spells φ' ts')
    (hsame : ψ' = ψ → φ' = φ) (hts : us <:+: ts) (hparts : ψ.parts ⊆ φ.parts)
    (hparts' : ψ'.parts ⊆ φ'.parts) : Respelled t vs ts ts' φ φ' where
  like := hlike
  spells := hspells
  same := fun hvs => hsame (h.same (hapart.1 hvs))
  loses := fun hvs => (h.loses fun hws => hvs (hapart.2 hws)).within hψ hts hparts hparts'

/-- A semicolon in the rest of statements is one in the statements. -/
theorem Loses.statements {s : Node} {ss ss' : List Node}
    (h : Loses t vs (.statements ss) (.statements ss'))
    (hfront : ∀ {front us' rest}, vs = us' ++ t :: rest → Spells (.statements front) (us' ++ [t]) →
      Spells (.statements (s :: front)) (us ++ (us' ++ [t]))) :
    Loses t (us ++ vs) (.statements (s :: ss)) (.statements (s :: ss')) := by
  cases h with
  | @here us' rest _ _ h =>
    obtain ⟨front, back, hss, hspells, hback⟩ := h.stands
    rw [← List.append_assoc]
    refine Loses.here ⟨⟨s :: front, back, ?_, ?_, hback⟩, congrArg Nat.succ h.length_eq⟩
    · rw [hss, List.cons_append]
    · rw [List.append_assoc]
      exact hfront rfl hspells
  | inside hblock hblock' hrow h =>
    exact Loses.inside (List.mem_append_right _ hblock) (List.mem_append_right _ hblock')
      (hrow.trans (List.suffix_append us vs).isInfix) h

/-- The statements of a block are found by its brace. -/
theorem Loses.block {l r : Token} {ss ss' : List Node}
    (h : Loses t us (.statements ss) (.statements ss')) :
    Loses t (l :: (us ++ [r])) (.block (.block l ss)) (.block (.block l ss')) := by
  cases h with
  | @here us vs _ _ h =>
    refine Loses.inside (l := l) (r := r) List.mem_cons_self List.mem_cons_self ?_ h
    rw [List.append_assoc]
    exact List.infix_rfl
  | inside hblock hblock' hrow h =>
    exact Loses.inside (List.mem_cons_of_mem _ hblock) (List.mem_cons_of_mem _ hblock')
      (hrow.trans (List.infix_cons (List.prefix_append us [r]).isInfix)) h

end

/-- Without its semicolon a statement is a clause. -/
theorem Spells.isClause {s : Node} {us : List Token} (h : Spells (.statement s) us) :
    IsClause us := by
  cases h with
  | @letStatement t x a k e us ht hx ha he =>
    exact ⟨[t, x, a], us, k, e, rfl, Opens.letClause ht hx ha, he⟩
  | @returnStatement t k e us ht he => exact ⟨[t], us, k, e, rfl, Opens.returnClause ht, he⟩
  | @expressionStatement t k e us he =>
    exact ⟨[], t :: us, k, e, rfl, Opens.expressionClause, he⟩

def Phrase.IsRespelled (φ : Phrase) (ts : List Token) : Prop :=
  ∀ {t : Token} {vs ts' : List Token}, Without t vs ts ts' → ∃ φ', Respelled t vs ts ts' φ φ'

section

variable {a l r : Token} {k m : Nat} {e : Node} {us vs ws : List Token}

theorem isRespelled_singleton {φ : Phrase} (ha : a.kind ≠ .semicolon) : φ.IsRespelled [a] :=
  fun h => (h.not_singleton ha).elim

theorem isRespelled_nil {φ : Phrase} : φ.IsRespelled [] :=
  fun h => absurd rfl h.ne_nil

theorem IsRespelled.grouped (hl : l.kind = .lparen) (he : Spells (.expression k e) us)
    (hr : r.kind = .rparen) (ih : (Phrase.expression k e).IsRespelled us) :
    (Phrase.expression atomic e).IsRespelled (l :: (us ++ [r])) := by
  intro t vs ts' h
  obtain ⟨xs, rfl, h₁⟩ := h.cons (by rw [hl]; decide)
  rcases h₁.append with ⟨ws, us', rfl, rfl, h₂⟩ | ⟨ys, rfl, h₂⟩
  · obtain ⟨_, hpart⟩ := ih h₂
    obtain ⟨_, _, e'⟩ := hpart.like
    exact ⟨_, hpart.within nofun (h₂.apart_iff (he.lastKind_ne nofun) _) (.expression atomic e e')
      (.grouped hl hpart.spells hr) (fun heq => by cases heq; rfl)
      (List.infix_cons (List.prefix_append us _).isInfix) (List.Subset.refl _)
      (List.Subset.refl _)⟩
  · exact (h₂.not_singleton (by rw [hr]; decide)).elim

theorem IsRespelled.conditional {c b : Node} (ha : a.kind = .wordIf) (hl : l.kind = .lparen)
    (hc : Spells (.expression k c) us) (hr : r.kind = .rparen) (hb : Spells (.block b) vs)
    (ihc : (Phrase.expression k c).IsRespelled us) (ihb : (Phrase.block b).IsRespelled vs) :
    (Phrase.expression atomic (.conditional a c b none)).IsRespelled
      (a :: l :: (us ++ r :: vs)) := by
  intro t ws ts' h
  obtain ⟨xs, rfl, h₁⟩ := h.cons (by rw [ha]; decide)
  obtain ⟨xs, rfl, h₂⟩ := h₁.cons (by rw [hl]; decide)
  rcases h₂.append with ⟨ws, us', rfl, rfl, h₃⟩ | ⟨ys, rfl, h₃⟩
  · obtain ⟨_, hpart⟩ := ihc h₃
    obtain ⟨_, _, c'⟩ := hpart.like
    exact ⟨_, hpart.within nofun (h₃.apart_iff (hc.lastKind_ne nofun) _) (.expression atomic _ _)
      (.conditional ha hl hpart.spells hr hb) (fun heq => by cases heq; rfl)
      (List.infix_cons (List.infix_cons (List.prefix_append us _).isInfix))
      (List.subset_cons_of_subset _ (List.subset_append_left _ _))
      (List.subset_cons_of_subset _ (List.subset_append_left _ _))⟩
  · obtain ⟨xs, rfl, h₄⟩ := h₃.cons (by rw [hr]; decide)
    obtain ⟨_, hpart⟩ := ihb h₄
    obtain ⟨_, b'⟩ := hpart.like
    exact ⟨_, hpart.within nofun Iff.rfl (.expression atomic _ _)
      (.conditional ha hl hc hr hpart.spells) (fun heq => by cases heq; rfl)
      (List.infix_cons (List.infix_cons ((List.infix_cons List.infix_rfl).trans
        (List.suffix_append us _).isInfix)))
      (List.subset_cons_of_subset _ (List.subset_append_right _ _))
      (List.subset_cons_of_subset _ (List.subset_append_right _ _))⟩

theorem IsRespelled.choice {o : Token} {c b b₂ : Node} (ha : a.kind = .wordIf)
    (hl : l.kind = .lparen) (hc : Spells (.expression k c) us) (hr : r.kind = .rparen)
    (hb : Spells (.block b) vs) (ho : o.kind = .wordElse) (hb₂ : Spells (.block b₂) ws)
    (ihc : (Phrase.expression k c).IsRespelled us) (ihb : (Phrase.block b).IsRespelled vs)
    (ihb₂ : (Phrase.block b₂).IsRespelled ws) :
    (Phrase.expression atomic (.conditional a c b (some b₂))).IsRespelled
      (a :: l :: (us ++ r :: (vs ++ o :: ws))) := by
  intro t rest ts' h
  obtain ⟨xs, rfl, h₁⟩ := h.cons (by rw [ha]; decide)
  obtain ⟨xs, rfl, h₂⟩ := h₁.cons (by rw [hl]; decide)
  rcases h₂.append with ⟨ws, us', rfl, rfl, h₃⟩ | ⟨ys, rfl, h₃⟩
  · obtain ⟨_, hpart⟩ := ihc h₃
    obtain ⟨_, _, c'⟩ := hpart.like
    exact ⟨_, hpart.within nofun (h₃.apart_iff (hc.lastKind_ne nofun) _) (.expression atomic _ _)
      (.choice ha hl hpart.spells hr hb ho hb₂) (fun heq => by cases heq; rfl)
      (List.infix_cons (List.infix_cons (List.prefix_append us _).isInfix))
      (List.subset_cons_of_subset _ (List.subset_append_left _ _))
      (List.subset_cons_of_subset _ (List.subset_append_left _ _))⟩
  -- the two blocks are behind the condition
  have hblocks {vs' : List Token} (hvs : vs' <:+: vs ++ o :: ws) :
      vs' <:+: a :: l :: (us ++ r :: (vs ++ o :: ws)) :=
    hvs.trans (List.infix_cons (List.infix_cons ((List.infix_cons List.infix_rfl).trans
      (List.suffix_append us _).isInfix)))
  obtain ⟨xs, rfl, h₄⟩ := h₃.cons (by rw [hr]; decide)
  rcases h₄.append with ⟨ws', vs', rfl, rfl, h₅⟩ | ⟨ys, rfl, h₅⟩
  · obtain ⟨_, hpart⟩ := ihb h₅
    obtain ⟨_, b'⟩ := hpart.like
    exact ⟨_, hpart.within nofun (h₅.apart_iff (hb.lastKind_ne nofun) _) (.expression atomic _ _)
      (.choice ha hl hc hr hpart.spells ho hb₂) (fun heq => by cases heq; rfl)
      (hblocks (List.prefix_append vs _).isInfix)
      (List.subset_cons_of_subset _
        (List.subset_append_of_subset_right _ (List.subset_append_left _ _)))
      (List.subset_cons_of_subset _
        (List.subset_append_of_subset_right _ (List.subset_append_left _ _)))⟩
  · obtain ⟨xs, rfl, h₆⟩ := h₅.cons (by rw [ho]; decide)
    obtain ⟨_, hpart⟩ := ihb₂ h₆
    obtain ⟨_, b'⟩ := hpart.like
    exact ⟨_, hpart.within nofun Iff.rfl (.expression atomic _ _)
      (.choice ha hl hc hr hb ho hpart.spells) (fun heq => by cases heq; rfl)
      (hblocks ((List.infix_cons List.infix_rfl).trans (List.suffix_append vs _).isInfix))
      (List.subset_cons_of_subset _
        (List.subset_append_of_subset_right _ (List.subset_append_right _ _)))
      (List.subset_cons_of_subset _
        (List.subset_append_of_subset_right _ (List.subset_append_right _ _)))⟩

theorem IsRespelled.function {ps : List Node} {b : Node} (ha : a.kind = .wordFn)
    (hl : l.kind = .lparen) (hps : Spells (.items .parameter ps) us) (hr : r.kind = .rparen)
    (hb : Spells (.block b) vs) (ihps : (Phrase.items .parameter ps).IsRespelled us)
    (ihb : (Phrase.block b).IsRespelled vs) :
    (Phrase.expression atomic (.function a ps b)).IsRespelled (a :: l :: (us ++ r :: vs)) := by
  intro t ws ts' h
  obtain ⟨xs, rfl, h₁⟩ := h.cons (by rw [ha]; decide)
  obtain ⟨xs, rfl, h₂⟩ := h₁.cons (by rw [hl]; decide)
  rcases h₂.append with ⟨ws, us', rfl, rfl, h₃⟩ | ⟨ys, rfl, h₃⟩
  · obtain ⟨_, hpart⟩ := ihps h₃
    obtain ⟨_, _, ps'⟩ := hpart.like
    exact ⟨_, hpart.within nofun (h₃.apart_iff (hps.lastKind_ne nofun) _) (.expression atomic _ _)
      (.function ha hl hpart.spells hr hb) (fun heq => by cases heq; rfl)
      (List.infix_cons (List.infix_cons (List.prefix_append us _).isInfix))
      (List.subset_cons_of_subset _ (List.subset_append_left _ _))
      (List.subset_cons_of_subset _ (List.subset_append_left _ _))⟩
  · obtain ⟨xs, rfl, h₄⟩ := h₃.cons (by rw [hr]; decide)
    obtain ⟨_, hpart⟩ := ihb h₄
    obtain ⟨_, b'⟩ := hpart.like
    exact ⟨_, hpart.within nofun Iff.rfl (.expression atomic _ _)
      (.function ha hl hps hr hpart.spells) (fun heq => by cases heq; rfl)
      (List.infix_cons (List.infix_cons ((List.infix_cons List.infix_rfl).trans
        (List.suffix_append us _).isInfix)))
      (List.subset_cons_of_subset _ (List.subset_append_right _ _))
      (List.subset_cons_of_subset _ (List.subset_append_right _ _))⟩

theorem IsRespelled.call {f : Node} {as : List Node} (hf : Spells (.expression k f) us)
    (hk : Precedence.call.level ≤ k) (hl : l.kind = .lparen)
    (has : Spells (.items .argument as) vs) (hr : r.kind = .rparen)
    (ihf : (Phrase.expression k f).IsRespelled us)
    (ihas : (Phrase.items .argument as).IsRespelled vs) :
    (Phrase.expression Precedence.call.level (.call l f as)).IsRespelled
      (us ++ l :: (vs ++ [r])) := by
  intro t ws ts' h
  rcases h.append with ⟨ws, us', rfl, rfl, h₁⟩ | ⟨ys, rfl, h₁⟩
  · obtain ⟨_, hpart⟩ := ihf h₁
    obtain ⟨_, _, f'⟩ := hpart.like
    exact ⟨_, hpart.within nofun (h₁.apart_iff (hf.lastKind_ne nofun) _) (.expression _ _ _)
      (.call hpart.spells hk hl has hr) (fun heq => by cases heq; rfl)
      (List.prefix_append us _).isInfix
      (List.subset_cons_of_subset _ (List.subset_append_left _ _))
      (List.subset_cons_of_subset _ (List.subset_append_left _ _))⟩
  obtain ⟨xs, rfl, h₂⟩ := h₁.cons (by rw [hl]; decide)
  rcases h₂.append with ⟨ws, vs', rfl, rfl, h₃⟩ | ⟨ys, rfl, h₃⟩
  · obtain ⟨_, hpart⟩ := ihas h₃
    obtain ⟨_, _, as'⟩ := hpart.like
    exact ⟨_, hpart.within nofun (h₃.apart_iff (has.lastKind_ne nofun) _) (.expression _ _ _)
      (.call hf hk hl hpart.spells hr) (fun heq => by cases heq; rfl)
      ((List.infix_cons (List.prefix_append vs _).isInfix).trans (List.suffix_append us _).isInfix)
      (List.subset_cons_of_subset _ (List.subset_append_right _ _))
      (List.subset_cons_of_subset _ (List.subset_append_right _ _))⟩
  · exact (h₃.not_singleton (by rw [hr]; decide)).elim

theorem IsRespelled.unary (ha : a.kind = .bang ∨ a.kind = .minus) (hk : Precedence.unary.level ≤ k)
    (ih : (Phrase.expression k e).IsRespelled us) :
    (Phrase.expression Precedence.unary.level (.unary a a.literal e)).IsRespelled (a :: us) := by
  intro t vs ts' h
  obtain ⟨xs, rfl, h₁⟩ := h.cons (by rcases ha with ha | ha <;> rw [ha] <;> decide)
  obtain ⟨_, hpart⟩ := ih h₁
  obtain ⟨_, _, e'⟩ := hpart.like
  exact ⟨_, hpart.within nofun Iff.rfl (.expression _ _ _) (.unary ha hpart.spells hk)
    (fun heq => by cases heq; rfl) (List.infix_cons List.infix_rfl)
    (List.subset_cons_self _ _) (List.subset_cons_self _ _)⟩

theorem IsRespelled.binary {e₂ : Node} (ha : a.kind.IsBinary) (he : Spells (.expression k e) us)
    (hk : a.kind.precedence.level ≤ k) (he₂ : Spells (.expression m e₂) vs)
    (hm : a.kind.precedence.level < m) (ih : (Phrase.expression k e).IsRespelled us)
    (ih₂ : (Phrase.expression m e₂).IsRespelled vs) :
    (Phrase.expression a.kind.precedence.level (.binary a e a.literal e₂)).IsRespelled
      (us ++ a :: vs) := by
  intro t ws ts' h
  rcases h.append with ⟨ws, us', rfl, rfl, h₁⟩ | ⟨ys, rfl, h₁⟩
  · obtain ⟨_, hpart⟩ := ih h₁
    obtain ⟨_, _, e'⟩ := hpart.like
    exact ⟨_, hpart.within nofun (h₁.apart_iff (he.lastKind_ne nofun) _) (.expression _ _ _)
      (.binary ha hpart.spells hk he₂ hm) (fun heq => by cases heq; rfl)
      (List.prefix_append us _).isInfix
      (List.subset_cons_of_subset _ (List.subset_append_left _ _))
      (List.subset_cons_of_subset _ (List.subset_append_left _ _))⟩
  · obtain ⟨xs, rfl, h₂⟩ := h₁.cons (ha.ne (by decide))
    obtain ⟨_, hpart⟩ := ih₂ h₂
    obtain ⟨_, _, e'⟩ := hpart.like
    exact ⟨_, hpart.within nofun Iff.rfl (.expression _ _ _)
      (.binary ha he hk hpart.spells hm) (fun heq => by cases heq; rfl)
      ((List.infix_cons List.infix_rfl).trans (List.suffix_append us _).isInfix)
      (List.subset_cons_of_subset _ (List.subset_append_right _ _))
      (List.subset_cons_of_subset _ (List.subset_append_right _ _))⟩

theorem IsRespelled.argument (ih : (Phrase.expression k e).IsRespelled us) :
    (Phrase.item .argument e).IsRespelled us := by
  intro t vs ts' h
  obtain ⟨_, hpart⟩ := ih h
  obtain ⟨_, _, e'⟩ := hpart.like
  exact ⟨_, hpart.within nofun Iff.rfl (.item _ _ _) (.argument hpart.spells)
    (fun heq => by cases heq; rfl) List.infix_rfl (List.Subset.refl _) (List.Subset.refl _)⟩

theorem IsRespelled.further {s : Slot} {n : Node} {ns : List Node} (ha : a.kind = .comma)
    (hn : Spells (.item s n) us) (hns : Spells (.further s ns) vs)
    (ihn : (Phrase.item s n).IsRespelled us) (ihns : (Phrase.further s ns).IsRespelled vs) :
    (Phrase.further s (n :: ns)).IsRespelled (a :: (us ++ vs)) := by
  intro t ws ts' h
  obtain ⟨xs, rfl, h₁⟩ := h.cons (by rw [ha]; decide)
  rcases h₁.append with ⟨ws, us', rfl, rfl, h₂⟩ | ⟨ys, rfl, h₂⟩
  · obtain ⟨_, hpart⟩ := ihn h₂
    obtain ⟨_, _, n'⟩ := hpart.like
    exact ⟨_, hpart.within nofun (h₂.apart_iff (hn.lastKind_ne nofun) _) (.further _ _ _)
      (.further ha hpart.spells hns) (fun heq => by cases heq; rfl)
      (List.infix_cons (List.prefix_append us _).isInfix) (List.subset_append_left _ _)
      (List.subset_append_left _ _)⟩
  · obtain ⟨_, hpart⟩ := ihns h₂
    obtain ⟨_, _, ns'⟩ := hpart.like
    exact ⟨_, hpart.within nofun Iff.rfl (.further _ _ _) (.further ha hn hpart.spells)
      (fun heq => by cases heq; rfl) (List.infix_cons (List.suffix_append us _).isInfix)
      (List.subset_append_right _ _) (List.subset_append_right _ _)⟩

theorem IsRespelled.items {s : Slot} {n : Node} {ns : List Node} (hn : Spells (.item s n) us)
    (hns : Spells (.further s ns) vs) (ihn : (Phrase.item s n).IsRespelled us)
    (ihns : (Phrase.further s ns).IsRespelled vs) :
    (Phrase.items s (n :: ns)).IsRespelled (us ++ vs) := by
  intro t ws ts' h
  rcases h.append with ⟨ws, us', rfl, rfl, h₁⟩ | ⟨ys, rfl, h₁⟩
  · obtain ⟨_, hpart⟩ := ihn h₁
    obtain ⟨_, _, n'⟩ := hpart.like
    exact ⟨_, hpart.within nofun (h₁.apart_iff (hn.lastKind_ne nofun) _) (.items _ _ _)
      (.items hpart.spells hns) (fun heq => by cases heq; rfl)
      (List.prefix_append us _).isInfix (List.subset_append_left _ _)
      (List.subset_append_left _ _)⟩
  · obtain ⟨_, hpart⟩ := ihns h₁
    obtain ⟨_, _, ns'⟩ := hpart.like
    exact ⟨_, hpart.within nofun Iff.rfl (.items _ _ _) (.items hn hpart.spells)
      (fun heq => by cases heq; rfl) (List.suffix_append us _).isInfix
      (List.subset_append_right _ _) (List.subset_append_right _ _)⟩

theorem IsRespelled.letStatement {x y : Token} (ha : a.kind = .wordLet) (hx : x.kind = .ident)
    (hy : y.kind = .assign) (ih : (Phrase.expression k e).IsRespelled us) :
    (Phrase.statement (.letStatement a (.identifier x x.literal) e)).IsRespelled
      (a :: x :: y :: us) := by
  intro t vs ts' h
  obtain ⟨xs, rfl, h₁⟩ := h.cons (by rw [ha]; decide)
  obtain ⟨xs, rfl, h₂⟩ := h₁.cons (by rw [hx]; decide)
  obtain ⟨xs, rfl, h₃⟩ := h₂.cons (by rw [hy]; decide)
  obtain ⟨_, hpart⟩ := ih h₃
  obtain ⟨_, _, e'⟩ := hpart.like
  exact ⟨_, hpart.within nofun Iff.rfl (.statement _ _) (.letStatement ha hx hy hpart.spells)
    (fun heq => by cases heq; rfl)
    (List.infix_cons (List.infix_cons (List.infix_cons List.infix_rfl)))
    (List.subset_cons_of_subset _ (List.subset_append_right _ _))
    (List.subset_cons_of_subset _ (List.subset_append_right _ _))⟩

theorem IsRespelled.returnStatement (ha : a.kind = .wordReturn)
    (ih : (Phrase.expression k e).IsRespelled us) :
    (Phrase.statement (.returnStatement a e)).IsRespelled (a :: us) := by
  intro t vs ts' h
  obtain ⟨xs, rfl, h₁⟩ := h.cons (by rw [ha]; decide)
  obtain ⟨_, hpart⟩ := ih h₁
  obtain ⟨_, _, e'⟩ := hpart.like
  exact ⟨_, hpart.within nofun Iff.rfl (.statement _ _) (.returnStatement ha hpart.spells)
    (fun heq => by cases heq; rfl) (List.infix_cons List.infix_rfl) (List.subset_cons_self _ _)
    (List.subset_cons_self _ _)⟩

/-- The statement keeps the first token of its expression, and that is not the semicolon. -/
theorem IsRespelled.expressionStatement (he : Spells (.expression k e) (a :: us))
    (ih : (Phrase.expression k e).IsRespelled (a :: us)) :
    (Phrase.statement (.expressionStatement a e)).IsRespelled (a :: us) := by
  intro t vs ts' h
  have hstarts : a.kind.StartsExpression := he.startsWith
  obtain ⟨xs, rfl, -⟩ := h.cons fun ha => absurd hstarts (by rw [ha]; decide)
  obtain ⟨_, hpart⟩ := ih h
  obtain ⟨_, _, e'⟩ := hpart.like
  exact ⟨_, hpart.within nofun Iff.rfl (.statement _ _) (.expressionStatement hpart.spells)
    (fun heq => by cases heq; rfl) List.infix_rfl (List.subset_cons_self _ _)
    (List.subset_cons_self _ _)⟩

/-- The semicolon itself ends the first statement here, or stands in it or behind it. -/
theorem IsRespelled.terminated {s : Node} {ss : List Node} (hs : Spells (.statement s) us)
    (ha : a.kind = .semicolon) (hss : Spells (.statements ss) vs)
    (ihs : (Phrase.statement s).IsRespelled us) (ihss : (Phrase.statements ss).IsRespelled vs) :
    (Phrase.statements (s :: ss)).IsRespelled (us ++ a :: vs) := by
  intro t ws ts' h
  rcases h.append with ⟨ws, us', rfl, rfl, h₁⟩ | ⟨ys, rfl, h₁⟩
  · obtain ⟨_, hpart⟩ := ihs h₁
    obtain ⟨_, s'⟩ := hpart.like
    exact ⟨_, hpart.within nofun (h₁.apart_iff (hs.lastKind_ne nofun) _) (.statements _ _)
      (.terminated hpart.spells ha hss) (fun heq => by cases heq; rfl)
      (List.prefix_append us _).isInfix (List.subset_append_left _ _)
      (List.subset_append_left _ _)⟩
  rcases h₁.cons_cases with ⟨rfl, rfl, hys⟩ | ⟨xs, rfl, h₂⟩
  · rw [hys]
    by_cases hvs : Apart vs
    · exact ⟨_, .statements _ _, Spells.apart hs hss hvs, fun _ => rfl, fun h => absurd hvs h⟩
    -- the statement goes on in the next one
    obtain ⟨ss', hlength, hspells⟩ := hs.isClause.exists_merged hss hvs
    refine ⟨_, .statements _ ss', hspells, fun h => absurd h hvs, fun _ => Loses.here ?_⟩
    exact ⟨⟨[s], ss, rfl, Spells.terminated hs ha Spells.noStatements, hss⟩,
      congrArg Nat.succ hlength⟩
  · obtain ⟨_, hpart⟩ := ihss h₂
    obtain ⟨ss', rfl⟩ := hpart.like.exists_statements
    refine ⟨_, .statements _ (s :: ss'), Spells.terminated hs ha hpart.spells,
      fun hws => by cases hpart.same hws; rfl, fun hws => ?_⟩
    have hloses : Loses t ((us ++ [a]) ++ vs) (.statements (s :: ss)) (.statements (s :: ss')) := by
      refine (hpart.loses hws).statements fun _ hfront => ?_
      rw [List.append_assoc]
      exact Spells.terminated hs ha hfront
    rw [List.append_assoc] at hloses
    exact hloses

/-- Where a statement has no semicolon, the one that is left out stands in it or behind it. -/
theorem IsRespelled.apart {s : Node} {ss : List Node} (hs : Spells (.statement s) us)
    (hss : Spells (.statements ss) vs) (hvs : Apart vs)
    (ihs : (Phrase.statement s).IsRespelled us) (ihss : (Phrase.statements ss).IsRespelled vs) :
    (Phrase.statements (s :: ss)).IsRespelled (us ++ vs) := by
  intro t ws ts' h
  rcases h.append with ⟨ws, us', rfl, rfl, h₁⟩ | ⟨ys, rfl, h₁⟩
  · obtain ⟨_, hpart⟩ := ihs h₁
    obtain ⟨_, s'⟩ := hpart.like
    exact ⟨_, hpart.within nofun (h₁.apart_iff (hs.lastKind_ne nofun) _) (.statements _ _)
      (.apart hpart.spells hss hvs) (fun heq => by cases heq; rfl)
      (List.prefix_append us _).isInfix (List.subset_append_left _ _)
      (List.subset_append_left _ _)⟩
  · obtain ⟨_, hpart⟩ := ihss h₁
    obtain ⟨ss', rfl⟩ := hpart.like.exists_statements
    have hstarts : nextKind vs ≠ .semicolon := by
      intro hnext
      rcases hss.startsWith with hk | hk <;> rw [hnext] at hk
      · cases hk
      · exact absurd hk (by decide)
    refine ⟨_, .statements _ (s :: ss'), Spells.apart hs hpart.spells (h₁.apart hstarts hvs),
      fun hws => by cases hpart.same hws; rfl, fun hws => ?_⟩
    refine (hpart.loses hws).statements ?_
    intro front us' rest heq hfront
    refine Spells.apart hs hfront ?_
    -- the first token of what is behind the statement is the same
    subst heq
    cases us' with
    | nil => exact apart_cons h.kind_eq (by decide) []
    | cons u us' => exact hvs

/-- Behind a block the text goes on with a brace, which keeps statements apart as its end does. -/
theorem IsRespelled.block {ss : List Node} (hl : l.kind = .lbrace) (hr : r.kind = .rbrace)
    (ih : (Phrase.statements ss).IsRespelled us) :
    (Phrase.block (.block l ss)).IsRespelled (l :: (us ++ [r])) := by
  intro t vs ts' h
  obtain ⟨xs, rfl, h₁⟩ := h.cons (by rw [hl]; decide)
  rcases h₁.append with ⟨ws, us', rfl, rfl, h₂⟩ | ⟨ys, rfl, h₂⟩
  · obtain ⟨_, hpart⟩ := ih h₂
    obtain ⟨ss', rfl⟩ := hpart.like.exists_statements
    have hapart : Apart (ws ++ [r]) ↔ Apart ws := by
      cases ws with
      | nil => exact iff_of_true (apart_cons hr (by decide) []) ⟨by decide, by decide⟩
      | cons w ws => exact Iff.rfl
    refine ⟨_, .block _ (.block l ss'), Spells.block hl hpart.spells hr, fun hws => ?_,
      fun hws => (hpart.loses fun h => hws (hapart.2 h)).block⟩
    cases hpart.same (hapart.1 hws)
    rfl
  · exact (h₂.not_singleton (by rw [hr]; decide)).elim

end

/-- By induction on the spelling: the part in which the semicolon stands becomes a part of the same
sort, and only in a list of statements it can be met itself. -/
theorem Spells.isRespelled {φ : Phrase} {ts : List Token} (h : Spells φ ts) : φ.IsRespelled ts := by
  induction h with
  | identifier ht | integer ht | parameter ht => exact isRespelled_singleton (by rw [ht]; decide)
  | boolean ht =>
    exact isRespelled_singleton (by rcases ht with ht | ht <;> rw [ht] <;> decide)
  | grouped hl he hr ih => exact IsRespelled.grouped hl he hr ih
  | conditional ht hl hc hr hb ihc ihb => exact IsRespelled.conditional ht hl hc hr hb ihc ihb
  | choice ht hl hc hr hb ho ha ihc ihb iha =>
    exact IsRespelled.choice ht hl hc hr hb ho ha ihc ihb iha
  | function ht hl hps hr hb ihps ihb => exact IsRespelled.function ht hl hps hr hb ihps ihb
  | call hf hk hl has hr ihf ihas => exact IsRespelled.call hf hk hl has hr ihf ihas
  | unary ht he hk ih => exact IsRespelled.unary ht hk ih
  | binary ht hl hk hr hm ihl ihr => exact IsRespelled.binary ht hl hk hr hm ihl ihr
  | argument he ih => exact IsRespelled.argument ih
  | noFurther | noItems | noStatements => exact isRespelled_nil
  | further ht hn hns ihn ihns => exact IsRespelled.further ht hn hns ihn ihns
  | items hn hns ihn ihns => exact IsRespelled.items hn hns ihn ihns
  | letStatement ht hx ha he ih => exact IsRespelled.letStatement ht hx ha ih
  | returnStatement ht he ih => exact IsRespelled.returnStatement ht ih
  | expressionStatement he ih => exact IsRespelled.expressionStatement he ih
  | terminated hs ht hss ihs ihss => exact IsRespelled.terminated hs ht hss ihs ihss
  | apart hs hss hvs ihs ihss => exact IsRespelled.apart hs hss hvs ihs ihss
  | block hl hss hr ih => exact IsRespelled.block hl hr ih

/-- The list that lost a statement is another one: it is shorter, or it stands in a block that no
other block of the text can be taken for. -/
theorem Loses.ne {t : Token} {ts : List Token} {ss ss' : List Node}
    (h : Loses t ts (.statements ss) (.statements ss')) (hss : (Node.inOrderAll ss).Nodup) :
    ss' ≠ ss := by
  rintro rfl
  cases h with
  | here h => exact absurd h.length_eq (Nat.succ_ne_self _)
  | inside hblock hblock' hrow h =>
    -- there is one block with this brace
    have heq := Node.eq_of_token_eq hss hblock hblock' rfl rfl rfl
    injection heq with _ heq
    have hlength := h.length_eq
    rw [heq] at hlength
    exact absurd hlength (Nat.succ_ne_self _)

/-- The tokens of a text behind a semicolon, with the end of the text and without. -/
theorem exists_rest_of_tokenize {source : String} {us vs : List Token} {t : Token}
    (h : tokenize source = us ++ t :: vs) (ht : t.kind = .semicolon) :
    ∃ rest, (Cursor.ofString source).rest = us ++ t :: rest ∧
      vs = rest ++ [.finish (Cursor.ofString source).stop] := by
  have hall : (Cursor.ofString source).rest ++ [.finish (Cursor.ofString source).stop] =
      us ++ t :: vs := h
  rcases List.eq_nil_or_concat vs with rfl | ⟨rest, u, rfl⟩
  · obtain ⟨-, hlast⟩ := List.append_inj' hall rfl
    obtain ⟨rfl, -⟩ := List.cons.inj hlast
    cases ht
  · rw [List.concat_eq_append] at hall ⊢
    have hassoc : us ++ t :: (rest ++ [u]) = (us ++ t :: rest) ++ [u] := by
      rw [List.append_assoc, List.cons_append]
    rw [hassoc] at hall
    obtain ⟨hrest, hlast⟩ := List.append_inj' hall rfl
    exact ⟨rest, hrest, by rw [hlast]⟩

/-- A semicolon of a text without a defect can be blanked out. The tree stays the same unless a
minus or an opening parenthesis stands behind the semicolon; then the list of statements in which it
stands has one statement fewer. -/
theorem semicolon_blanked (limit limit' : Nat) (source : String) {us vs : List Token} {t : Token}
    (hclean : (parseWithin limit source).clean = true)
    (htokens : tokenize source = us ++ t :: vs) (ht : t.kind = .semicolon)
    (hdeep : (parseWithin limit' (blanked source t.position)).withinLimit) :
    let p := (parseWithin limit source).program
    let run := parseWithin limit' (blanked source t.position)
    run.clean = true ∧
      (nextKind vs ≠ .minus ∧ nextKind vs ≠ .lparen → run.program = p) ∧
      (nextKind vs = .minus ∨ nextKind vs = .lparen →
        Loses t (tokenize source).dropLast (.statements p.statements)
          (.statements run.program.statements) ∧ run.program ≠ p) := by
  intro p run
  obtain ⟨rest, hrest, rfl⟩ := exists_rest_of_tokenize htokens ht
  obtain ⟨hdefects, hoversized⟩ := Run.clean_iff.1 hclean
  have hspells : Spells (.statements p.statements) (Cursor.ofString source).rest :=
    spells_of_parse hdefects hoversized
  have hwithout : Without t rest (Cursor.ofString source).rest (us ++ rest) := ⟨ht, us, hrest, rfl⟩
  obtain ⟨_, hrespelled⟩ := hspells.isRespelled hwithout
  obtain ⟨ss', rfl⟩ := hrespelled.like.exists_statements
  -- what is left of the tokens is read as what the statements become
  have hspells' := hrespelled.spells
  rw [← rest_blanked hrest ht] at hspells'
  have hrun : run = _ := hspells'.read limit' hdeep
  have hstatements : run.program.statements = ss' := by
    rw [hrun]
    exact Run.statements_map_ok ss' _
  have hclean' : run.clean = true := by
    rw [hrun]
    exact Run.clean_iff.2 ⟨Run.defects_map_ok ss' _, rfl⟩
  have hapart : nextKind (rest ++ [.finish (Cursor.ofString source).stop]) ≠ .minus ∧
      nextKind (rest ++ [.finish (Cursor.ofString source).stop]) ≠ .lparen ↔ Apart rest := by
    cases rest with
    | nil =>
      exact iff_of_true (apart_cons (Token.kind_finish _) (by decide) []) ⟨by decide, by decide⟩
    | cons u rest => exact Iff.rfl
  refine ⟨hclean', fun hnext => ?_, fun hnext => ?_⟩
  · have hsame := hrespelled.same (hapart.1 hnext)
    injection hsame with hsame
    rw [hsame] at hstatements
    exact congrArg Program.mk hstatements
  · have hloses := hrespelled.loses fun h => by
      obtain ⟨hminus, hlparen⟩ := hapart.2 h
      exact hnext.elim hminus hlparen
    have hnodup : (Node.inOrderAll p.statements).Nodup :=
      (nodup_lex .start source.toList).sublist hspells.inOrder_sublist
    rw [hstatements, dropLast_tokenize]
    refine ⟨hloses, fun heq => hloses.ne hnodup ?_⟩
    rw [← hstatements, heq]

/-- The first semicolon is optional. Without the second one, in the block, two statements become a
subtraction. -/
theorem semicolon_blanked_of_two :
    let source := "let a = 1; fn(x) \x7b x; -x \x7d"
    let p := (parseWithin 9 source).program
    let first : Token := ⟨.semicolon, ";", ⟨1, 10⟩⟩
    let second : Token := ⟨.semicolon, ";", ⟨1, 21⟩⟩
    (parseWithin 9 source).clean = true ∧
      (parseWithin 9 (blanked source first.position)).program = p ∧
      (parseWithin 9 (blanked source second.position)).clean = true ∧
      Loses second (tokenize source).dropLast (.statements p.statements)
        (.statements (parseWithin 9 (blanked source second.position)).program.statements) := by
  intro source p first second
  have hclean : (parseWithin 9 source).clean = true := by decide +kernel
  have hsplit₁ : tokenize source =
      (tokenize source).take 4 ++ first :: (tokenize source).drop 5 := by
    decide +kernel
  have hsplit₂ : tokenize source =
      (tokenize source).take 11 ++ second :: (tokenize source).drop 12 := by
    decide +kernel
  obtain ⟨-, hsame, -⟩ := semicolon_blanked 9 9 source hclean hsplit₁ rfl (by decide +kernel)
  obtain ⟨hclean', -, hloses⟩ := semicolon_blanked 9 9 source hclean hsplit₂ rfl (by decide +kernel)
  exact ⟨hclean, hsame (by decide +kernel), hclean', (hloses (by decide +kernel)).1⟩

end MonkeySyntax
