import Mathlib.Data.List.Nodup
import MonkeySyntax.Proofs.Forward
import MonkeySyntax.Proofs.Places
import MonkeySyntax.Proofs.Reparsing

namespace MonkeySyntax

open Production

namespace Node

mutual

/-- The tokens of the nodes of a tree from left to right. The token of an expression that stands as
a statement is one of the expression's. -/
@[simp] def inOrder : Node → List Token
  | .identifier t _ | .integer t _ | .boolean t _ | .placeholder t => [t]
  | .unary t _ e => t :: e.inOrder
  | .binary t l _ r => l.inOrder ++ t :: r.inOrder
  | .conditional t c b none => t :: (c.inOrder ++ b.inOrder)
  | .conditional t c b (some a) => t :: (c.inOrder ++ (b.inOrder ++ a.inOrder))
  | .function t ps b => t :: (inOrderAll ps ++ b.inOrder)
  | .call t f as => f.inOrder ++ t :: inOrderAll as
  | .letStatement t x v => t :: (x.inOrder ++ v.inOrder)
  | .returnStatement t v => t :: v.inOrder
  | .expressionStatement _ v => v.inOrder
  | .block t ss => t :: inOrderAll ss

@[simp] def inOrderAll : List Node → List Token
  | [] => []
  | n :: ns => n.inOrder ++ inOrderAll ns

end

def ownsToken : Node → Bool
  | .expressionStatement .. => false
  | _ => true

def ownTokens (ns : List Node) : List Token :=
  (ns.filter ownsToken).map token

@[simp] theorem ownTokens_append (ns ms : List Node) :
    ownTokens (ns ++ ms) = ownTokens ns ++ ownTokens ms := by
  unfold ownTokens
  rw [List.filter_append, List.map_append]

theorem ownTokens_cons {n : Node} (h : n.ownsToken) (ns : List Node) :
    ownTokens (n :: ns) = n.token :: ownTokens ns := by
  unfold ownTokens
  rw [List.filter_cons_of_pos h, List.map_cons]

mutual

/-- No node is missing from left to right, and none is listed twice. -/
theorem perm_inOrder : (n : Node) → (ownTokens n.parts).Perm n.inOrder
  | .identifier .. | .integer .. | .boolean .. | .placeholder .. => List.Perm.refl _
  | .unary _ _ e | .returnStatement _ e => by
    rw [parts, ownTokens_cons rfl]
    exact (perm_inOrder e).cons _
  | .expressionStatement _ e => perm_inOrder e
  | .binary _ l _ r => by
    rw [parts, ownTokens_cons rfl, ownTokens_append]
    exact (((perm_inOrder l).append (perm_inOrder r)).cons _).trans List.perm_middle.symm
  | .conditional _ l r none | .letStatement _ l r => by
    rw [parts, ownTokens_cons rfl, ownTokens_append]
    exact ((perm_inOrder l).append (perm_inOrder r)).cons _
  | .conditional _ c b (some a) => by
    rw [parts, ownTokens_cons rfl, ownTokens_append, ownTokens_append]
    exact ((perm_inOrder c).append ((perm_inOrder b).append (perm_inOrder a))).cons _
  | .function _ ps b => by
    rw [parts, ownTokens_cons rfl, ownTokens_append]
    exact ((perm_inOrderAll ps).append (perm_inOrder b)).cons _
  | .call _ f as => by
    rw [parts, ownTokens_cons rfl, ownTokens_append]
    exact (((perm_inOrder f).append (perm_inOrderAll as)).cons _).trans List.perm_middle.symm
  | .block _ ss => by
    rw [parts, ownTokens_cons rfl]
    exact (perm_inOrderAll ss).cons _

theorem perm_inOrderAll : (ns : List Node) → (ownTokens (partsAll ns)).Perm (inOrderAll ns)
  | [] => List.Perm.refl _
  | n :: ns => by
    rw [partsAll, ownTokens_append]
    exact (perm_inOrder n).append (perm_inOrderAll ns)

end

theorem mem_inOrderAll {t : Token} {ns : List Node} :
    t ∈ inOrderAll ns ↔ ∃ n ∈ partsAll ns, n.ownsToken ∧ n.token = t := by
  rw [← (perm_inOrderAll ns).mem_iff]
  unfold ownTokens
  rw [List.mem_map]
  constructor
  · rintro ⟨n, hn, rfl⟩
    obtain ⟨hn, howns⟩ := List.mem_filter.1 hn
    exact ⟨n, hn, howns, rfl⟩
  · rintro ⟨n, hn, howns, rfl⟩
    exact ⟨n, List.mem_filter.2 ⟨hn, howns⟩, rfl⟩

/-- Where no token is listed twice, a node is known by its token. -/
theorem eq_of_token_eq {n m : Node} {ns : List Node} (hns : (inOrderAll ns).Nodup)
    (hn : n ∈ partsAll ns) (hm : m ∈ partsAll ns) (hn' : n.ownsToken) (hm' : m.ownsToken)
    (h : n.token = m.token) : n = m := by
  have hnodup : (ownTokens (partsAll ns)).Nodup := (perm_inOrderAll ns).nodup_iff.2 hns
  exact List.inj_on_of_nodup_map hnodup (List.mem_filter.2 ⟨hn, hn'⟩)
    (List.mem_filter.2 ⟨hm, hm'⟩) h

end Node

@[simp] def Phrase.inOrder : Phrase → List Token
  | .expression _ n | .item _ n | .statement n | .block n => n.inOrder
  | .further _ ns | .items _ ns | .statements ns => Node.inOrderAll ns

def Kind.dropped : List Kind :=
  [.eof, .assign, .semicolon, .comma, .rparen, .rbrace, .wordElse]

/-- Whether a token of kind `k'` behind one of kind `k` is kept by a node of a tree. Only the
parenthesis that opens the arguments of a call stands behind the end of an expression. -/
def Kind.IsKept (k k' : Kind) : Prop :=
  k' ∉ dropped ∧ (k' = .lparen → k.EndsExpression)

instance (k k' : Kind) : Decidable (k.IsKept k') := inferInstanceAs (Decidable (_ ∧ _))

def kept (k : Kind) : List Token → List Token
  | [] => []
  | t :: ts => if k.IsKept t.kind then t :: kept t.kind ts else kept t.kind ts

def endKind (k : Kind) : List Token → Kind
  | [] => k
  | t :: ts => endKind t.kind ts

theorem kept_cons_of_isKept {k : Kind} {t : Token} (h : k.IsKept t.kind) (ts : List Token) :
    kept k (t :: ts) = t :: kept t.kind ts :=
  if_pos h

theorem kept_cons_of_not {k : Kind} {t : Token} (h : ¬k.IsKept t.kind) (ts : List Token) :
    kept k (t :: ts) = kept t.kind ts :=
  if_neg h

/-- What is kept of a row depends on what stands in front only by the kind of the last token there.
-/
theorem kept_append (k : Kind) (us vs : List Token) :
    kept k (us ++ vs) = kept k us ++ kept (endKind k us) vs := by
  induction us generalizing k with
  | nil => rfl
  | cons t us ih =>
    rw [List.cons_append]
    by_cases h : k.IsKept t.kind
    · rw [kept_cons_of_isKept h, kept_cons_of_isKept h, ih]
      rfl
    · rw [kept_cons_of_not h, kept_cons_of_not h, ih]
      rfl

theorem kept_sublist (k : Kind) (us : List Token) : (kept k us).Sublist us := by
  induction us generalizing k with
  | nil => exact List.Sublist.refl []
  | cons t us ih =>
    unfold kept
    split
    · exact (ih t.kind).cons_cons t
    · exact (ih t.kind).cons t

theorem endKind_eq_lastKind {us : List Token} (h : us ≠ []) (k : Kind) :
    endKind k us = lastKind us := by
  induction us generalizing k with
  | nil => exact absurd rfl h
  | cons t us ih =>
    by_cases hus : us = []
    · rw [hus]
      rfl
    · rw [lastKind_cons hus]
      exact ih hus t.kind

theorem kept_cons_dropped {t : Token} (h : t.kind ∈ Kind.dropped) (k : Kind) (ts : List Token) :
    kept k (t :: ts) = kept t.kind ts :=
  kept_cons_of_not (fun hkept => hkept.1 h) ts

theorem kept_cons_group {k : Kind} {t : Token} (ht : t.kind = .lparen) (hk : ¬k.EndsExpression)
    (ts : List Token) : kept k (t :: ts) = kept .lparen ts := by
  rw [kept_cons_of_not (fun hkept => hk (hkept.2 ht)), ht]

theorem kept_cons_word {t : Token} (ht : t.kind ∉ .lparen :: Kind.dropped) (k : Kind)
    (ts : List Token) : kept k (t :: ts) = t :: kept t.kind ts := by
  rw [List.mem_cons, not_or] at ht
  exact kept_cons_of_isKept ⟨ht.2, fun h => absurd h ht.1⟩ ts

theorem Kind.IsBinary.not_mem_dropped {k : Kind} (h : k.IsBinary) : k ∉ .lparen :: dropped := by
  revert h
  cases k <;> decide

/-- A phrase keeps the tokens of its nodes from left to right. -/
theorem Spells.kept_eq {φ : Phrase} {us : List Token} (h : Spells φ us) {k : Kind}
    (hk : nextKind us = .lparen → ¬k.EndsExpression) : kept k us = φ.inOrder := by
  -- a part stands behind a token of the construct or does not start with a parenthesis
  have hword {k' : Kind} (h : ¬k'.EndsExpression) {vs : List Token} :
      nextKind vs = .lparen → ¬k'.EndsExpression := fun _ => h
  have hnext {k' : Kind} {vs : List Token} (h : nextKind vs ≠ .lparen) :
      nextKind vs = .lparen → ¬k'.EndsExpression := fun hvs => absurd hvs h
  have hfront {us vs : List Token} (hus : (nextKind us).StartsStatement) {k' : Kind}
      (h : nextKind (us ++ vs) = .lparen → ¬k'.EndsExpression) :
      nextKind us = .lparen → ¬k'.EndsExpression := by
    rw [nextKind_append us vs (Kind.ne_eof_of_startsStatement hus)] at h
    exact h
  have hblock {b : Node} {vs : List Token} (hb : Spells (.block b) vs) : nextKind vs ≠ .lparen := by
    have hbrace : nextKind vs = .lbrace := hb.startsWith
    rw [hbrace]
    decide
  have hfurther {s : Slot} {ns : List Node} {vs : List Token} (hns : Spells (.further s ns) vs) :
      nextKind vs ≠ .lparen := fun h => by
    rcases hns.startsWith with hk | hk <;> rw [hk] at h <;> cases h
  induction h generalizing k with
  | identifier ht | integer ht | parameter ht =>
    exact kept_cons_word (by rw [ht]; decide) k []
  | boolean ht => exact kept_cons_word (by rcases ht with ht | ht <;> rw [ht] <;> decide) k []
  | grouped hl he hr ih =>
    rw [kept_cons_group hl (hk hl), kept_append, ih (hword (by decide)),
      kept_cons_dropped (by rw [hr]; decide)]
    exact List.append_nil _
  | conditional ht hl hc hr hb ihc ihb =>
    rw [kept_cons_word (by rw [ht]; decide), ht, kept_cons_group hl (by decide), kept_append,
      ihc (hword (by decide)), kept_cons_dropped (by rw [hr]; decide), ihb (hnext (hblock hb))]
    rfl
  | choice ht hl hc hr hb ho ha ihc ihb iha =>
    rw [kept_cons_word (by rw [ht]; decide), ht, kept_cons_group hl (by decide), kept_append,
      ihc (hword (by decide)), kept_cons_dropped (by rw [hr]; decide), kept_append,
      ihb (hnext (hblock hb)), kept_cons_dropped (by rw [ho]; decide), iha (hnext (hblock ha))]
    rfl
  | function ht hl hps hr hb ihps ihb =>
    rw [kept_cons_word (by rw [ht]; decide), ht, kept_cons_group hl (by decide), kept_append,
      ihps (hword (by decide)), kept_cons_dropped (by rw [hr]; decide), ihb (hnext (hblock hb))]
    rfl
  | @call l r m f as us vs hf hm hl has hr ihf ihas =>
    -- the callee has ended where the parenthesis opens
    have hends : (endKind k us).EndsExpression := by
      rw [endKind_eq_lastKind hf.ne_nil_of_expression]
      exact hf.endsWith
    have hopens : (endKind k us).IsKept l.kind := by
      rw [hl]
      exact ⟨by decide, fun _ => hends⟩
    rw [kept_append, ihf (hfront (Or.inr (Or.inr hf.startsWith)) hk), kept_cons_of_isKept hopens,
      hl, kept_append, ihas (hword (by decide)), kept_cons_dropped (by rw [hr]; decide)]
    exact congrArg (_ ++ l :: ·) (List.append_nil _)
  | @unary t m e us ht he hm ih =>
    have hsign : t.kind ∉ .lparen :: Kind.dropped ∧ ¬t.kind.EndsExpression := by
      rcases ht with ht | ht <;> rw [ht] <;> decide
    rw [kept_cons_word hsign.1, ih (hword hsign.2)]
    rfl
  | binary ht hl hm hr hn ihl ihr =>
    rw [kept_append, ihl (hfront (Or.inr (Or.inr hl.startsWith)) hk),
      kept_cons_word ht.not_mem_dropped, ihr (hword ht.not_endsExpression)]
    rfl
  | argument he ih | expressionStatement he ih => exact ih hk
  | noFurther | noItems | noStatements => rfl
  | further ht hn hns ihn ihns =>
    rw [kept_cons_dropped (by rw [ht]; decide), ht, kept_append, ihn (hword (by decide)),
      ihns (hnext (hfurther hns))]
    rfl
  | items hn hns ihn ihns =>
    rw [kept_append, ihn (hfront (Or.inr (Or.inr hn.startsWith)) hk), ihns (hnext (hfurther hns))]
    rfl
  | letStatement ht hx ha he ih =>
    rw [kept_cons_word (by rw [ht]; decide), kept_cons_word (by rw [hx]; decide),
      kept_cons_dropped (by rw [ha]; decide), ha, ih (hword (by decide))]
    rfl
  | returnStatement ht he ih =>
    rw [kept_cons_word (by rw [ht]; decide), ht, ih (hword (by decide))]
    rfl
  | terminated hs ht hss ihs ihss =>
    rw [kept_append, ihs (hfront hs.startsWith hk), kept_cons_dropped (by rw [ht]; decide), ht,
      ihss (hword (by decide))]
    rfl
  | apart hs hss hvs ihs ihss =>
    rw [kept_append, ihs (hfront hs.startsWith hk), ihss (hnext hvs.2)]
    rfl
  | block hl hss hr ih =>
    rw [kept_cons_word (by rw [hl]; decide), hl, kept_append, ih (hword (by decide)),
      kept_cons_dropped (by rw [hr]; decide)]
    exact congrArg (_ :: ·) (List.append_nil _)

/-- What a phrase is spelled by has the tokens of its nodes from left to right. -/
theorem Spells.inOrder_sublist {φ : Phrase} {us : List Token} (h : Spells φ us) :
    φ.inOrder.Sublist us := by
  rw [← h.kept_eq (k := .eof) fun _ => by decide]
  exact kept_sublist .eof us

/-- Statements stand in a row of tokens one behind the other. Each is spelled by tokens of its own,
of which it keeps the first one. -/
inductive StandIn : List Node → List Token → Prop
  | nil (ts : List Token) : StandIn [] ts
  | cons {s : Node} {ss : List Node} (gap : List Token) {us ts : List Token}
      (hs : Spells (.statement s) us) (hfirst : us.head? = some s.token) (h : StandIn ss ts) :
      StandIn (s :: ss) (gap ++ (us ++ ts))

theorem Spells.head?_of_statement {s : Node} {us : List Token} (h : Spells (.statement s) us) :
    us.head? = some s.token := by
  cases h <;> rfl

theorem StandIn.append_left {ss : List Node} {ts : List Token} (h : StandIn ss ts)
    (gap : List Token) : StandIn ss (gap ++ ts) := by
  cases h with
  | nil => exact StandIn.nil _
  | cons gap' hs hfirst h =>
    rw [← List.append_assoc]
    exact StandIn.cons (gap ++ gap') hs hfirst h

theorem StandIn.append_right {ss : List Node} {ts : List Token} (h : StandIn ss ts)
    (more : List Token) : StandIn ss (ts ++ more) := by
  induction h with
  | nil => exact StandIn.nil _
  | cons gap hs hfirst h ih =>
    rw [List.append_assoc, List.append_assoc]
    exact StandIn.cons gap hs hfirst ih

theorem standIn_of_ended {s : Node} {ss : List Node} {us ts : List Token} (h : SpellsEnded s us ts)
    (hss : StandIn ss ts) : StandIn (s :: ss) (us ++ ts) := by
  rcases h with ⟨vs, t, rfl, -, hs⟩ | ⟨hs, -⟩
  · -- the semicolon is in front of the next statement
    rw [List.append_assoc]
    exact StandIn.cons [] hs hs.head?_of_statement (hss.append_left [t])
  · exact StandIn.cons [] hs hs.head?_of_statement hss

theorem Spells.standIn {ss : List Node} {us : List Token} (h : Spells (.statements ss) us) :
    StandIn ss us := by
  induction ss generalizing us with
  | nil => exact StandIn.nil us
  | cons s ss ih =>
    cases h with
    | @terminated t _ _ us vs hs ht hss =>
      exact StandIn.cons [] hs hs.head?_of_statement ((ih hss).append_left [t])
    | apart hs hss hvs => exact StandIn.cons [] hs hs.head?_of_statement (ih hss)

/-- The tokens of statements come in the order of the row in which they stand. -/
theorem StandIn.inOrder_sublist {ss : List Node} {ts : List Token} (h : StandIn ss ts) :
    (Node.inOrderAll ss).Sublist ts := by
  induction h with
  | nil ts => exact List.nil_sublist ts
  | cons gap hs hfirst h ih =>
    have hstatement := hs.inOrder_sublist
    exact (hstatement.append ih).trans (List.sublist_append_right gap _)

/-- Each of the statements in a row is spelled by tokens that stand side by side there. -/
theorem StandIn.exists_spelled {s : Node} {ss : List Node} {ts : List Token} (h : StandIn ss ts)
    (hs : s ∈ ss) : ∃ us, us <:+: ts ∧ Spells (.statement s) us := by
  induction h with
  | nil => cases hs
  | @cons s' ss gap us ts hs' hfirst h ih =>
    rcases List.mem_cons.1 hs with rfl | hs
    · exact ⟨us, ⟨gap, ts, List.append_assoc gap us ts⟩, hs'⟩
    · obtain ⟨vs, hvs, hspells⟩ := ih hs
      refine ⟨vs, hvs.trans ?_, hspells⟩
      rw [← List.append_assoc]
      exact (List.suffix_append _ _).isInfix

/-- What is read stands in the text, whatever was given up in between. -/
theorem standIn_of_runFrom (limit : Nat) (c : Cursor) :
    StandIn (runFrom (statementWithin .standard limit) c).statements c.rest := by
  have hforward := forward_statementWithin .standard limit
  fun_induction runFrom (statementWithin .standard limit) c with
  | case1 c heof | case2 c heof n c' hattempt => exact StandIn.nil _
  | case3 c heof o c' hattempt hlt ih =>
    cases o with
    | ok s =>
      obtain ⟨d, hs, rfl⟩ := attempt_ok hattempt
      obtain ⟨us, hrest, hended⟩ := statement_sound (expression_sound limit) hs
      rw [hrest]
      exact standIn_of_ended hended ih
    | error e =>
      obtain ⟨gap, hrest⟩ := (reaches_of_attempt hforward hattempt).suffix
      rw [← hrest]
      exact ih.append_left gap
  | case4 c heof o c' hattempt hlt => exact absurd (attempt_lt hforward heof hattempt) hlt

def Node.IsSpelled (n : Node) (us : List Token) : Prop :=
  match n with
  | .letStatement .. | .returnStatement .. | .expressionStatement .. => Spells (.statement n) us
  | .block .. => Spells (.block n) us
  | _ => ∃ k, Spells (.expression k n) us

/-- Whether a node is spelled by tokens that stand side by side in a row. -/
def Node.StandsIn (n : Node) (us : List Token) : Prop :=
  ∃ vs, vs <:+: us ∧ n.IsSpelled vs

namespace Node.StandsIn

variable {n : Node} {us : List Token}

theorem of_isInfix {vs : List Token} (h : n.StandsIn us) (hus : us <:+: vs) : n.StandsIn vs := by
  obtain ⟨ws, hrow, hspelled⟩ := h
  exact ⟨ws, hrow.trans hus, hspelled⟩

theorem append_left (h : n.StandsIn us) (vs : List Token) : n.StandsIn (vs ++ us) :=
  h.of_isInfix (List.suffix_append vs us).isInfix

theorem append_right (h : n.StandsIn us) (vs : List Token) : n.StandsIn (us ++ vs) :=
  h.of_isInfix (List.prefix_append us vs).isInfix

theorem cons (h : n.StandsIn us) (t : Token) : n.StandsIn (t :: us) :=
  h.append_left [t]

/-- Of a tree the root is spelled by the whole row, and the other nodes belong to its parts. -/
theorem of_mem_cons {m : Node} {ms : List Node} (hn : n ∈ m :: ms) (hm : m.IsSpelled us)
    (hms : n ∈ ms → n.StandsIn us) : n.StandsIn us := by
  rcases List.mem_cons.1 hn with rfl | hn
  · exact ⟨us, List.infix_rfl, hm⟩
  · exact hms hn

end Node.StandsIn

/-- A node of a phrase is spelled by some of the tokens that spell the phrase. -/
theorem Spells.standsIn {φ : Phrase} {us : List Token} (h : Spells φ us) {n : Node}
    (hn : n ∈ φ.parts) : n.StandsIn us := by
  induction h with
  | identifier ht | parameter ht =>
    exact .of_mem_cons hn ⟨_, Spells.identifier ht⟩ fun hn => nomatch hn
  | integer ht hd hv => exact .of_mem_cons hn ⟨_, Spells.integer ht hd hv⟩ fun hn => nomatch hn
  | boolean ht => exact .of_mem_cons hn ⟨_, Spells.boolean ht⟩ fun hn => nomatch hn
  | grouped hl he hr ih => exact ((ih hn).append_right _).cons _
  | conditional ht hl hc hr hb ihc ihb =>
    refine .of_mem_cons hn ⟨_, Spells.conditional ht hl hc hr hb⟩ fun hn => ?_
    rcases List.mem_append.1 hn with hn | hn
    · exact (((ihc hn).append_right _).cons _).cons _
    · exact ((((ihb hn).cons _).append_left _).cons _).cons _
  | choice ht hl hc hr hb ho ha ihc ihb iha =>
    refine .of_mem_cons hn ⟨_, Spells.choice ht hl hc hr hb ho ha⟩ fun hn => ?_
    rcases List.mem_append.1 hn with hn | hn
    · exact (((ihc hn).append_right _).cons _).cons _
    refine (((Node.StandsIn.cons ?_ _).append_left _).cons _).cons _
    rcases List.mem_append.1 hn with hn | hn
    · exact (ihb hn).append_right _
    · exact ((iha hn).cons _).append_left _
  | function ht hl hps hr hb ihps ihb =>
    refine .of_mem_cons hn ⟨_, Spells.function ht hl hps hr hb⟩ fun hn => ?_
    rcases List.mem_append.1 hn with hn | hn
    · exact (((ihps hn).append_right _).cons _).cons _
    · exact ((((ihb hn).cons _).append_left _).cons _).cons _
  | call hf hk hl has hr ihf ihas =>
    refine .of_mem_cons hn ⟨_, Spells.call hf hk hl has hr⟩ fun hn => ?_
    rcases List.mem_append.1 hn with hn | hn
    · exact (ihf hn).append_right _
    · exact (((ihas hn).append_right _).cons _).append_left _
  | unary ht he hk ih => exact .of_mem_cons hn ⟨_, Spells.unary ht he hk⟩ fun hn => (ih hn).cons _
  | binary ht hl hk hr hm ihl ihr =>
    refine .of_mem_cons hn ⟨_, Spells.binary ht hl hk hr hm⟩ fun hn => ?_
    rcases List.mem_append.1 hn with hn | hn
    · exact (ihl hn).append_right _
    · exact ((ihr hn).cons _).append_left _
  | argument he ih => exact ih hn
  | noFurther | noItems | noStatements => cases hn
  | further ht hn' hns ihn ihns =>
    rcases List.mem_append.1 hn with hn | hn
    · exact ((ihn hn).append_right _).cons _
    · exact ((ihns hn).append_left _).cons _
  | items hn' hns ihn ihns =>
    rcases List.mem_append.1 hn with hn | hn
    · exact (ihn hn).append_right _
    · exact (ihns hn).append_left _
  | @letStatement t x a k e us ht hx ha he ih =>
    refine .of_mem_cons hn (Spells.letStatement ht hx ha he) fun hn => ?_
    rcases List.mem_cons.1 hn with rfl | hn
    · have hname : (Node.identifier x x.literal).StandsIn [x] :=
        ⟨[x], List.infix_rfl, atomic, Spells.identifier hx⟩
      exact (hname.append_right (a :: us)).cons t
    · exact (((ih hn).cons _).cons _).cons _
  | returnStatement ht he ih =>
    exact .of_mem_cons hn (Spells.returnStatement ht he) fun hn => (ih hn).cons _
  | expressionStatement he ih => exact .of_mem_cons hn (Spells.expressionStatement he) ih
  | terminated hs ht hss ihs ihss =>
    rcases List.mem_append.1 hn with hn | hn
    · exact (ihs hn).append_right _
    · exact ((ihss hn).cons _).append_left _
  | apart hs hss hvs ihs ihss =>
    rcases List.mem_append.1 hn with hn | hn
    · exact (ihs hn).append_right _
    · exact (ihss hn).append_left _
  | block hl hss hr ih =>
    exact .of_mem_cons hn (Spells.block hl hss hr) fun hn => ((ih hn).append_right _).cons _

def HoldsBlock (us : List Token) (l : Token) (ss : List Node) : Prop :=
  ∃ vs r, l :: (vs ++ [r]) <:+: us ∧ Spells (.statements ss) vs

theorem Spells.holdsBlock {φ : Phrase} {us : List Token} (h : Spells φ us) {l : Token}
    {ss : List Node} (hmem : .block l ss ∈ φ.parts) : HoldsBlock us l ss := by
  obtain ⟨vs, hrow, hblock⟩ := h.standsIn hmem
  have hspells : Spells (.block (.block l ss)) vs := hblock
  cases hspells with
  | block hl hss hr => exact ⟨_, _, hrow, hss⟩

/-- The nodes that own a parenthesis are the calls. -/
theorem WellFormed.ownsToken_iff {p : Place} {n : Node} (h : WellFormed p n)
    (hn : n.token.kind = .lparen) : n.ownsToken = true ↔ n.isCall = true := by
  have hnot {t : Token} {k : Kind} (ht : t.Is k) (hk : k ≠ .lparen) (hlparen : t.kind = .lparen) :
      False := hk (ht.kind_eq.symm.trans hlparen)
  cases h with
  | call => exact iff_of_true rfl rfl
  | expressionStatement => exact iff_of_false Bool.false_ne_true Bool.false_ne_true
  | identifier ht | integer ht | name ht | conditional ht | choice ht | function ht
  | letStatement ht | returnStatement ht | block ht => exact (hnot ht (by decide) hn).elim
  | boolean ht | unary ht =>
    rcases ht with ht | ht <;> exact (hnot ht (by decide) hn).elim
  | binary ht => exact absurd hn ht.2

/-- The tokens of a tree from left to right are tokens of the text in the order of the text, and
without a defect they are all of them but punctuation. Statements stand one behind the other, in
the text and in every block, and each starts with the token that it keeps. -/
theorem tokens_of_tree (limit : Nat) (source : String) :
    let run := parseWithin limit source
    (Node.inOrderAll run.statements).Sublist (tokenize source) ∧
    (Node.inOrderAll run.statements).Pairwise (fun t u => t.position.Before u.position) ∧
    (run.clean = true →
      Node.inOrderAll run.statements = kept .eof (tokenize source) ∧
      ∀ t ∈ tokenize source, t.kind = .lparen →
        (t ∈ Node.inOrderAll run.statements ↔
          ∃ n ∈ run.program.parts, n.isCall = true ∧ n.token = t)) ∧
    StandIn run.statements (tokenize source) ∧
    ∀ l ss, .block l ss ∈ run.program.parts →
      ∃ vs r, l :: (vs ++ [r]) <:+: tokenize source ∧ StandIn ss vs := by
  intro run
  have hstand : StandIn run.statements (tokenize source) :=
    (standIn_of_runFrom limit (.ofString source)).append_right _
  have hsublist := hstand.inOrder_sublist
  refine ⟨hsublist, (pairwise_before_tokenize source).sublist hsublist, fun hclean => ?_, hstand,
    fun l ss hmem => ?_⟩
  · obtain ⟨hdefects, hoversized⟩ := Run.clean_iff.1 hclean
    refine ⟨?_, fun t ht hkind => ?_⟩
    · have hspells : Spells (.statements run.statements) (Cursor.ofString source).rest :=
        spells_of_parse hdefects hoversized
      have hall : tokenize source =
          (Cursor.ofString source).rest ++ [.finish (Cursor.ofString source).stop] := rfl
      have hkept := hspells.kept_eq (k := .eof) fun _ => by decide
      rw [hall, kept_append, hkept, kept_cons_dropped List.mem_cons_self]
      exact (List.append_nil _).symm
    · rw [Node.mem_inOrderAll]
      refine exists_congr fun n => and_congr_right fun hn => and_congr_left fun htoken => ?_
      obtain ⟨s, hs, hn⟩ := Node.mem_partsAll.1 hn
      obtain ⟨p, hwf⟩ := (wellFormed_of_clean hclean s hs).of_mem_parts hn
      exact hwf.ownsToken_iff (by rw [htoken]; exact hkind)
  · obtain ⟨s, hs, hmem⟩ := Node.mem_partsAll.1 hmem
    obtain ⟨us, hrow, hspells⟩ := hstand.exists_spelled hs
    obtain ⟨vs, r, hblock, hss⟩ := hspells.holdsBlock hmem
    exact ⟨vs, r, hblock.trans hrow, hss.standIn⟩

/-- Of the four opening parentheses the one of the call is kept. -/
theorem tokens_of_tree_of_call :
    let source := "let f = fn(x) \x7b x; (y) \x7d; f(1, 2) * (3)"
    let run := parseWithin 9 source
    run.clean = true ∧ StandIn run.statements (tokenize source) ∧
      (Node.inOrderAll run.statements).map Token.literal =
        ["let", "f", "fn", "x", "\x7b", "x", "y", "f", "(", "1", "2", "*", "3"] := by
  intro source run
  have hclean : run.clean = true := by decide +kernel
  obtain ⟨-, -, hkept, hstand, -⟩ := tokens_of_tree 9 source
  refine ⟨hclean, hstand, ?_⟩
  rw [(hkept hclean).1]
  decide +kernel

end MonkeySyntax
