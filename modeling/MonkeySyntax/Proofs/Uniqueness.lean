import MonkeySyntax.Proofs.Anatomy
import MonkeySyntax.Proofs.Endings

/-!
# The text of a tree is the text of no other

The canonical text of a program need not be read as the program again. Still no two programs have
the same text, but for places and for the tokens of expressions that stand as statements: the row of
tokens of a tree can be taken apart in one way only. Two expressions whose rows start alike are the
same up to further calls of one of them, and what stands behind an expression tells that there are
none.
-/

namespace MonkeySyntax

/-- Of two expressions with tokens behind them the one is the other with further calls, which stand
in front of what is behind it. -/
inductive Overlap (e : Node) (us : List Token) (e' : Node) (us' : List Token) : Prop
  | longer (as : List Application) (has : ∀ a ∈ as, a.IsWellFormed)
      (he : e'.bare = (e.applied as).bare) (hus : us = as.flatMap Application.row ++ us')
  | shorter (as : List Application) (has : ∀ a ∈ as, a.IsWellFormed)
      (he : e.bare = (e'.applied as).bare) (hus : us' = as.flatMap Application.row ++ us)

/-- Where both expressions end, neither of them has further calls. -/
theorem Overlap.eq {e e' : Node} {us us' : List Token} (h : Overlap e us e' us') (hus : Ends us)
    (hus' : Ends us') : e.bare = e'.bare ∧ us = us' := by
  -- a further call would stand where the shorter expression ends
  cases h with
  | longer as has he h =>
    cases as with
    | nil => exact ⟨he.symm, h⟩
    | cons a as =>
      rw [h, List.flatMap_cons, List.append_assoc] at hus
      exact absurd hus ((has a List.mem_cons_self).not_ends _)
  | shorter as has he h =>
    cases as with
    | nil => exact ⟨he, h.symm⟩
    | cons a as =>
      rw [h, List.flatMap_cons, List.append_assoc] at hus'
      exact absurd hus' ((has a List.mem_cons_self).not_ends _)

namespace Node

/-- Whether an expression can be told from its row, but for calls of it. -/
def IsUnique (e : Node) : Prop :=
  ∀ e' us us', WellFormed .expression e' → nextKind us ≠ .wordElse → nextKind us' ≠ .wordElse →
    e.row ++ us = e'.row ++ us' → Overlap e us e' us'

def IsUniqueAt (l : Place) (n : Node) : Prop :=
  ∀ n' us us', WellFormed l n' → Ends us → Ends us' → n.row ++ us = n'.row ++ us' →
    n.bare = n'.bare ∧ us = us'

def IsDelimitedAt (l : Place) (n : Node) : Prop :=
  ∀ n' us us', WellFormed l n' → n.row ++ us = n'.row ++ us' → n.bare = n'.bare ∧ us = us'

def ReadsBack : Place → Node → Prop
  | .expression, n => n.IsUnique
  | .statement, n => n.IsUniqueAt .statement
  | .name, n => n.IsDelimitedAt .name
  | .block, n => n.IsDelimitedAt .block

theorem IsUnique.isUniqueAt {e : Node} (h : e.IsUnique) : e.IsUniqueAt .expression :=
  fun e' us us' he' hus hus' heq => (h e' us us' he' hus.noElse hus'.noElse heq).eq hus hus'

theorem ReadsBack.isUniqueAt {l : Place} {n : Node} (h : n.ReadsBack l) : n.IsUniqueAt l := by
  cases l with
  | expression => exact IsUnique.isUniqueAt h
  | statement => exact h
  | name | block => exact fun n' us us' hn' _ _ heq => h n' us us' hn' heq

/-- What the first token of a row tells of an expression that is no call. Both truth values count
as one. -/
def head : Node → Kind
  | .identifier .. => .ident
  | .integer .. => .int
  | .boolean .. => .wordTrue
  | .unary .. | .binary .. => .lparen
  | .conditional .. => .wordIf
  | .function .. => .wordFn
  | _ => .illegal

theorem head_eq {e : Node} (he : WellFormed .expression e) (hcall : e.isCall = false) :
    e.head = if e.opening = .wordFalse then .wordTrue else e.opening := by
  cases he with
  | boolean ht => rcases ht with ht | ht <;> rw [opening, ht.kind_eq] <;> rfl
  | call => cases hcall
  | _ => rfl

/-- An expression that is no call is compared with others that are none and start alike. -/
theorem IsUnique.of_heads {e : Node} (he : WellFormed .expression e) (hcall : e.isCall = false)
    (h : ∀ g us us', WellFormed .expression g → e.head = g.head → nextKind us ≠ .wordElse →
      nextKind us' ≠ .wordElse → e.row ++ us = g.row ++ us' → e.bare = g.bare ∧ us = us') :
    e.IsUnique := by
  intro e' us us' he' hus hus' heq
  -- the calls of the other expression count as what is behind it
  obtain ⟨g, as, rfl, hg, hcall', has⟩ := he'.exists_applied rfl
  rw [row_applied, List.append_assoc] at heq
  have hhead : e.head = g.head := by
    rw [head_eq he hcall, head_eq hg hcall', ← he.nextKind_row us, heq, hg.nextKind_row]
  have hbehind : nextKind (as.flatMap Application.row ++ us') ≠ .wordElse := by
    cases as with
    | nil => exact hus'
    | cons a as =>
      have hkind : nextKind ((a :: as).flatMap Application.row ++ us') = .lparen :=
        (has a List.mem_cons_self).isToken.kind_eq
      rw [hkind]
      decide
  obtain ⟨hbare, htail⟩ := h g us _ hg hhead hus hbehind heq
  exact Overlap.longer as has (bare_applied hbare.symm as) htail

end Node

theorem WellFormed.opening_mem {l : Place} {n : Node} (h : WellFormed l n) :
    n.opening ∈ [Kind.ident, .int, .wordTrue, .wordFalse, .lparen, .wordIf, .wordFn, .wordLet,
      .wordReturn, .lbrace] := by
  have hexpression {e : Node} (he : WellFormed .expression e) :
      e.opening ∈ [Kind.ident, .int, .wordTrue, .wordFalse, .lparen, .wordIf, .wordFn, .wordLet,
        .wordReturn, .lbrace] :=
    List.mem_append_left [Kind.wordLet, .wordReturn, .lbrace] (he.opening_of_expression rfl).1
  cases l with
  | expression => exact hexpression h
  | statement =>
    cases h with
    | expressionStatement hv =>
      rw [Node.opening]
      exact hexpression hv
    | letStatement | returnStatement => simp [Node.opening]
  | name | block =>
    cases h
    simp [Node.opening]

section

variable {l : Place} {us us' : List Token}

theorem furtherRow_unique {ns ms : List Node} (hns : ∀ n ∈ ns, n.IsUniqueAt l)
    (hms : ∀ m ∈ ms, WellFormed l m)
    (h : Node.furtherRow ns ++ ⟨.rparen, ")", .nowhere⟩ :: us =
      Node.furtherRow ms ++ ⟨.rparen, ")", .nowhere⟩ :: us') :
    Node.bareAll ns = Node.bareAll ms ∧ us = us' := by
  induction ns generalizing ms with
  | nil =>
    cases ms with
    | nil => exact ⟨rfl, List.tail_eq_of_cons_eq h⟩
    | cons m ms => cases List.head_eq_of_cons_eq h
  | cons n ns ih =>
    obtain ⟨hn, hns⟩ := List.forall_mem_cons.1 hns
    cases ms with
    | nil => cases List.head_eq_of_cons_eq h
    | cons m ms =>
      obtain ⟨hm, hms⟩ := List.forall_mem_cons.1 hms
      simp only [Node.furtherRow, List.cons_append, List.append_assoc] at h
      obtain ⟨hbare, hrest⟩ := hn m _ _ hm (ends_furtherRow ns us)
        (ends_furtherRow ms us') (List.tail_eq_of_cons_eq h)
      obtain ⟨hbares, hus⟩ := ih hns hms hrest
      exact ⟨by rw [Node.bareAll, Node.bareAll, hbare, hbares], hus⟩

/-- Two lists with the same row up to the closing parenthesis are the same list. -/
theorem itemRow_unique {ns ms : List Node} (hns : ∀ n ∈ ns, WellFormed l n)
    (ihns : ∀ n ∈ ns, n.IsUniqueAt l) (hms : ∀ m ∈ ms, WellFormed l m)
    (h : Node.itemRow ns ++ ⟨.rparen, ")", .nowhere⟩ :: us =
      Node.itemRow ms ++ ⟨.rparen, ")", .nowhere⟩ :: us') :
    Node.bareAll ns = Node.bareAll ms ∧ us = us' := by
  -- no item starts with the parenthesis that closes an empty list
  have hfirst {n : Node} (hn : WellFormed l n) (ns : List Node) (us vs : List Token) :
      ⟨.rparen, ")", .nowhere⟩ :: vs ≠ Node.itemRow (n :: ns) ++ us := by
    intro heq
    have hkind := hn.nextKind_row (Node.furtherRow ns ++ us)
    rw [← List.append_assoc, ← Node.itemRow, ← heq] at hkind
    have hmem := hn.opening_mem
    rw [← hkind, nextKind_cons] at hmem
    exact absurd hmem (by decide)
  cases ns with
  | nil =>
    cases ms with
    | nil => exact ⟨rfl, List.tail_eq_of_cons_eq h⟩
    | cons m ms => exact absurd h (hfirst (hms m List.mem_cons_self) ms _ _)
  | cons n ns =>
    obtain ⟨hn, hns'⟩ := List.forall_mem_cons.1 ihns
    cases ms with
    | nil => exact absurd h.symm (hfirst (hns n List.mem_cons_self) ns _ _)
    | cons m ms =>
      obtain ⟨hm, hms⟩ := List.forall_mem_cons.1 hms
      rw [Node.itemRow, Node.itemRow, List.append_assoc, List.append_assoc] at h
      obtain ⟨hbare, hrest⟩ := hn m _ _ hm (ends_furtherRow ns us) (ends_furtherRow ms us') h
      obtain ⟨hbares, hus⟩ := furtherRow_unique hns' hms hrest
      exact ⟨by rw [Node.bareAll, Node.bareAll, hbare, hbares], hus⟩

/-- Statements are told apart up to the brace behind them or the end of the text. -/
theorem rows_unique {ss ss' : List Node} (hss : ∀ s ∈ ss, WellFormed .statement s)
    (ihss : ∀ s ∈ ss, s.IsUniqueAt .statement) (hss' : ∀ s ∈ ss', WellFormed .statement s)
    (hus : nextKind us ∈ [Kind.rbrace, .eof]) (hus' : nextKind us' ∈ [Kind.rbrace, .eof])
    (h : Node.rows ss ++ us = Node.rows ss' ++ us') :
    Node.bareAll ss = Node.bareAll ss' ∧ us = us' := by
  have hends {ss : List Node} {us : List Token} (hss : ∀ s ∈ ss, WellFormed .statement s)
      (hus : nextKind us ∈ [Kind.rbrace, .eof]) : Ends (Node.rows ss ++ us) := by
    refine ends_rows hss ?_
    revert hus
    cases nextKind us <;> decide
  -- no statement starts with what ends the row
  have hfirst {s : Node} (hs : WellFormed .statement s) (ss : List Node) {us vs : List Token}
      (hvs : nextKind vs ∈ [Kind.rbrace, .eof]) : vs ≠ Node.rows (s :: ss) ++ us := by
    rintro rfl
    have hmem := hs.opening_mem
    rw [Node.rows, List.append_assoc, hs.nextKind_row] at hvs
    revert hmem hvs
    cases s.opening <;> decide
  induction ss generalizing ss' with
  | nil =>
    cases ss' with
    | nil => exact ⟨rfl, h⟩
    | cons s' ss' => exact absurd h (hfirst (hss' s' List.mem_cons_self) ss' hus)
  | cons s ss ih =>
    obtain ⟨hs, hss⟩ := List.forall_mem_cons.1 hss
    obtain ⟨ihs, ihss⟩ := List.forall_mem_cons.1 ihss
    cases ss' with
    | nil => exact absurd h.symm (hfirst hs ss hus')
    | cons s' ss' =>
      obtain ⟨hs', hss'⟩ := List.forall_mem_cons.1 hss'
      rw [Node.rows, Node.rows, List.append_assoc, List.append_assoc] at h
      obtain ⟨hbare, hrest⟩ := ihs s' _ _ hs' (hends hss hus) (hends hss' hus') h
      obtain ⟨hbares, hus⟩ := ih hss ihss hss' hrest
      exact ⟨by rw [Node.bareAll, Node.bareAll, hbare, hbares], hus⟩

end

section

variable {t : Token}

theorem unique_identifier (ht : t.Is .ident) : (Node.identifier t t.literal).IsUnique := by
  refine Node.IsUnique.of_heads (.identifier ht) rfl ?_
  intro g us us' hg hhead _ _ heq
  cases hg with
  | identifier ht' =>
    obtain ⟨htoken, hus⟩ := List.cons.inj heq
    exact ⟨by rw [Node.bare, Node.bare, htoken, Token.literal_eq_of_bare htoken], hus⟩
  | _ => cases hhead

theorem unique_integer (ht : t.Is .int) (hdigits : t.literal.toList.length ≤ maxDigits)
    (hv : decimalValue t.literal.toList ≤ maxInteger) :
    (Node.integer t (decimalValue t.literal.toList)).IsUnique := by
  refine Node.IsUnique.of_heads (.integer ht hdigits hv) rfl ?_
  intro g us us' hg hhead _ _ heq
  cases hg with
  | integer ht' =>
    obtain ⟨htoken, hus⟩ := List.cons.inj heq
    exact ⟨by rw [Node.bare, Node.bare, htoken, Token.literal_eq_of_bare htoken], hus⟩
  | _ => cases hhead

theorem unique_boolean (ht : t.Is .wordTrue ∨ t.Is .wordFalse) :
    (Node.boolean t (t.kind = .wordTrue)).IsUnique := by
  refine Node.IsUnique.of_heads (.boolean ht) rfl ?_
  intro g us us' hg hhead _ _ heq
  cases hg with
  | boolean ht' =>
    obtain ⟨htoken, hus⟩ := List.cons.inj heq
    refine ⟨?_, hus⟩
    simp only [Node.bare, htoken, Token.kind_eq_of_bare htoken]
  | _ => cases hhead

/-- No operand starts with a sign. -/
theorem WellFormed.cons_ne_row {e : Node} (he : WellFormed .expression e)
    (ht : t.Is .bang ∨ t.Is .minus) (us vs : List Token) : t.bare :: us ≠ e.row ++ vs := by
  intro heq
  have hmem := (he.opening_of_expression rfl).1
  have hkind : t.kind = .bang ∨ t.kind = .minus := ht.imp Token.Is.kind_eq Token.Is.kind_eq
  rw [← he.nextKind_row vs, ← heq, nextKind_cons, Token.kind_bare] at hmem
  rcases hkind with hkind | hkind <;> rw [hkind] at hmem <;> exact absurd hmem (by decide)

theorem unique_unary {e : Node} (ht : t.Is .bang ∨ t.Is .minus) (he : WellFormed .expression e)
    (ih : e.IsUnique) : (Node.unary t t.literal e).IsUnique := by
  refine Node.IsUnique.of_heads (.unary ht he) rfl ?_
  intro g us us' hg hhead _ _ heq
  cases hg with
  | @unary t' e' ht' he' =>
    simp only [Node.row, List.cons_append, List.append_assoc, List.nil_append, List.cons.injEq,
      true_and] at heq
    obtain ⟨htoken, heq⟩ := heq
    obtain ⟨hbare, hrest⟩ := ih.isUniqueAt e' _ _ he' (ends_cons (by decide) _)
      (ends_cons (by decide) _) heq
    refine ⟨?_, List.tail_eq_of_cons_eq hrest⟩
    rw [Node.bare, Node.bare, htoken, Token.literal_eq_of_bare htoken, hbare]
  | @binary t' l' r' ht' _ hl' hr' =>
    -- behind the parenthesis a sign stands here and an operand there
    simp only [Node.row, List.cons_append, List.append_assoc, List.nil_append, List.cons.injEq,
      true_and] at heq
    exact absurd heq (hl'.cons_ne_row ht _ _)
  | _ => cases hhead

theorem unique_binary {l r : Node} (ht : t.kind.IsBinary) (ht' : t.IsLexical)
    (hl : WellFormed .expression l) (hr : WellFormed .expression r) (ihl : l.IsUnique)
    (ihr : r.IsUnique) : (Node.binary t l t.literal r).IsUnique := by
  refine Node.IsUnique.of_heads (.binary ht ht' hl hr) rfl ?_
  intro g us us' hg hhead _ _ heq
  cases hg with
  | @binary u l' r' hu _ hl' hr' =>
    simp only [Node.row, List.cons_append, List.append_assoc, List.nil_append, List.cons.injEq,
      true_and] at heq
    obtain ⟨hleft, hbehind⟩ := ihl.isUniqueAt l' _ _ hl' (ends_operator ht _)
      (ends_operator hu _) heq
    obtain ⟨htoken, hbehind⟩ := List.cons.inj hbehind
    obtain ⟨hright, hrest⟩ := ihr.isUniqueAt r' _ _ hr' (ends_cons (by decide) _)
      (ends_cons (by decide) _) hbehind
    refine ⟨?_, List.tail_eq_of_cons_eq hrest⟩
    rw [Node.bare, Node.bare, htoken, Token.literal_eq_of_bare htoken, hleft, hright]
  | @unary u e' hu he' =>
    simp only [Node.row, List.cons_append, List.append_assoc, List.nil_append, List.cons.injEq,
      true_and] at heq
    exact absurd heq.symm (hl.cons_ne_row hu _ _)
  | _ => cases hhead

/-- The condition of a choice ends where its first block starts. -/
theorem branch_unique {u : Token} {c c' b b' : Node} {us us' : List Token} (ihc : c.IsUnique)
    (ihb : b.IsDelimitedAt .block) (hb : WellFormed .block b) (hc' : WellFormed .expression c')
    (hb' : WellFormed .block b')
    (heq : t.bare :: (c.row ++ (b.row ++ us)) = u.bare :: (c'.row ++ (b'.row ++ us'))) :
    t.bare = u.bare ∧ c.bare = c'.bare ∧ b.bare = b'.bare ∧ us = us' := by
  obtain ⟨htoken, heq⟩ := List.cons.inj heq
  obtain ⟨hcondition, hbehind⟩ := ihc.isUniqueAt c' _ _ hc' (ends_block hb us)
    (ends_block hb' us') heq
  obtain ⟨hblock, hrest⟩ := ihb b' us us' hb' hbehind
  exact ⟨htoken, hcondition, hblock, hrest⟩

theorem unique_conditional {c b : Node} (ht : t.Is .wordIf) (hc : WellFormed .expression c)
    (hb : WellFormed .block b) (ihc : c.IsUnique) (ihb : b.IsDelimitedAt .block) :
    (Node.conditional t c b none).IsUnique := by
  refine Node.IsUnique.of_heads (.conditional ht hc hb) rfl ?_
  intro g us us' hg hhead hus _ heq
  cases hg with
  | @conditional u c' b' hu hc' hb' =>
    simp only [Node.row, List.cons_append, List.append_assoc] at heq
    obtain ⟨htoken, hcondition, hblock, hrest⟩ := branch_unique ihc ihb hb hc' hb' heq
    refine ⟨?_, hrest⟩
    rw [Node.bare, Node.bare, htoken, hcondition, hblock]
  | @choice u c' b' a' hu hc' hb' ha' =>
    -- what is behind would have to start with the word in front of the second block
    simp only [Node.row, List.cons_append, List.append_assoc] at heq
    obtain ⟨-, -, -, rfl⟩ := branch_unique ihc ihb hb hc' hb' heq
    exact absurd rfl hus
  | _ => cases hhead

theorem unique_choice {c b a : Node} (ht : t.Is .wordIf) (hc : WellFormed .expression c)
    (hb : WellFormed .block b) (ha : WellFormed .block a) (ihc : c.IsUnique)
    (ihb : b.IsDelimitedAt .block) (iha : a.IsDelimitedAt .block) :
    (Node.conditional t c b (some a)).IsUnique := by
  refine Node.IsUnique.of_heads (.choice ht hc hb ha) rfl ?_
  intro g us us' hg hhead _ hus' heq
  cases hg with
  | @choice u c' b' a' hu hc' hb' ha' =>
    simp only [Node.row, List.cons_append, List.append_assoc] at heq
    obtain ⟨htoken, hcondition, hblock, hbehind⟩ := branch_unique ihc ihb hb hc' hb' heq
    obtain ⟨hother, hrest⟩ := iha a' _ _ ha' (List.tail_eq_of_cons_eq hbehind)
    refine ⟨?_, hrest⟩
    rw [Node.bare, Node.bare, htoken, hcondition, hblock, hother]
  | @conditional u c' b' hu hc' hb' =>
    simp only [Node.row, List.cons_append, List.append_assoc] at heq
    obtain ⟨-, -, -, rfl⟩ := branch_unique ihc ihb hb hc' hb' heq
    exact absurd rfl hus'
  | _ => cases hhead

theorem unique_function {ps : List Node} {b : Node} (ht : t.Is .wordFn)
    (hps : ∀ p ∈ ps, WellFormed .name p) (hb : WellFormed .block b)
    (ihps : ∀ p ∈ ps, p.IsDelimitedAt .name) (ihb : b.IsDelimitedAt .block) :
    (Node.function t ps b).IsUnique := by
  refine Node.IsUnique.of_heads (.function ht hps hb) rfl ?_
  intro g us us' hg hhead _ _ heq
  cases hg with
  | @function u ps' b' hu hps' hb' =>
    simp only [Node.row, List.cons_append, List.append_assoc, List.cons.injEq, true_and] at heq
    obtain ⟨htoken, heq⟩ := heq
    obtain ⟨hparameters, hbehind⟩ := itemRow_unique hps
      (fun p hp => Node.ReadsBack.isUniqueAt (l := .name) (ihps p hp)) hps' heq
    obtain ⟨hblock, hrest⟩ := ihb b' _ _ hb' hbehind
    refine ⟨?_, hrest⟩
    rw [Node.bare, Node.bare, htoken, hparameters, hblock]
  | _ => cases hhead

/-- Where a callee was told apart up to some calls, the next call is one of these or goes behind
them. -/
theorem unique_call {f : Node} {a : Application} (ha : a.IsWellFormed) (ihf : f.IsUnique)
    (iha : ∀ n ∈ a.arguments, n.IsUnique) : (f.applied [a]).IsUnique := by
  intro e' us us' he' hus hus' heq
  rw [Node.row_applied, List.flatMap_singleton, List.append_assoc] at heq
  have hparen : nextKind (a.row ++ us) ≠ .wordElse := by
    have hkind : nextKind (a.row ++ us) = .lparen := ha.isToken.kind_eq
    rw [hkind]
    decide
  -- the call goes behind the calls by which the other expression is longer
  have hbehind {bs : List Application} (hbs : ∀ b ∈ bs, b.IsWellFormed)
      (hbare : f.bare = (e'.applied bs).bare)
      (htail : us' = bs.flatMap Application.row ++ (a.row ++ us)) :
      Overlap (f.applied [a]) us e' us' := by
    refine Overlap.shorter (bs ++ [a]) ?_ ?_ ?_
    · exact List.forall_mem_append.2 ⟨hbs, List.forall_mem_singleton.2 ha⟩
    · rw [Node.applied_concat]
      exact Node.bare_applied hbare [a]
    · rw [List.flatMap_append, List.flatMap_singleton, List.append_assoc]
      exact htail
  cases ihf e' _ us' he' hparen hus' heq with
  | shorter bs hbs hbare htail => exact hbehind hbs hbare htail
  | longer bs hbs hbare htail =>
    cases bs with
    | nil => exact hbehind hbs hbare.symm htail.symm
    | cons b bs =>
      -- the call is the first one of those by which this expression is longer
      obtain ⟨hb, hbs⟩ := List.forall_mem_cons.1 hbs
      simp only [Application.row, List.flatMap_cons, List.cons_append, List.append_assoc,
        List.nil_append, List.cons.injEq] at htail
      obtain ⟨htoken, htail⟩ := htail
      obtain ⟨harguments, hrest⟩ := itemRow_unique ha.arguments
        (fun n hn => (iha n hn).isUniqueAt) hb.arguments htail
      have hcall : (f.applied [b]).bare = (f.applied [a]).bare := by
        change Node.call b.token.bare f.bare _ = Node.call a.token.bare f.bare _
        rw [htoken, harguments]
      exact Overlap.longer bs hbs (hbare.trans (Node.bare_applied hcall bs)) hrest

theorem unique_name (t : Token) : (Node.identifier t t.literal).IsDelimitedAt .name := by
  intro n us us' hn heq
  cases hn with
  | name ht' =>
    obtain ⟨htoken, hus⟩ := List.cons.inj heq
    exact ⟨by rw [Node.bare, Node.bare, htoken, Token.literal_eq_of_bare htoken], hus⟩

theorem WellFormed.opening_ne_word {e : Node} (he : WellFormed .expression e) :
    e.opening ≠ .wordLet ∧ e.opening ≠ .wordReturn := by
  have hmem := (he.opening_of_expression rfl).1
  revert hmem
  cases e.opening <;> decide

/-- What is spelled alike starts alike. -/
theorem WellFormed.opening_eq {l : Place} {n n' : Node} (hn : WellFormed l n)
    (hn' : WellFormed l n') {us us' : List Token} (heq : n.row ++ us = n'.row ++ us') :
    n.opening = n'.opening := by
  rw [← hn.nextKind_row us, heq, hn'.nextKind_row]

theorem unique_letStatement {x v : Node} (ht : t.Is .wordLet) (hx : WellFormed .name x)
    (hv : WellFormed .expression v) (ihx : x.IsDelimitedAt .name) (ihv : v.IsUnique) :
    (Node.letStatement t x v).IsUniqueAt .statement := by
  intro s us us' hs _ _ heq
  have hopening := (WellFormed.letStatement ht hx hv).opening_eq hs heq
  cases hs with
  | @letStatement u y w hu hy hw =>
    simp only [Node.row, List.cons_append, List.append_assoc, List.nil_append,
      List.cons.injEq] at heq
    obtain ⟨htoken, heq⟩ := heq
    obtain ⟨hname, hbehind⟩ := ihx y _ _ hy heq
    obtain ⟨hvalue, hrest⟩ := ihv.isUniqueAt w _ _ hw (ends_cons (by decide) _)
      (ends_cons (by decide) _) (List.tail_eq_of_cons_eq hbehind)
    refine ⟨?_, List.tail_eq_of_cons_eq hrest⟩
    rw [Node.bare, Node.bare, htoken, hname, hvalue]
  | returnStatement => cases hopening
  | expressionStatement hw => exact absurd hopening.symm hw.opening_ne_word.1

theorem unique_returnStatement {v : Node} (ht : t.Is .wordReturn) (hv : WellFormed .expression v)
    (ihv : v.IsUnique) : (Node.returnStatement t v).IsUniqueAt .statement := by
  intro s us us' hs _ _ heq
  have hopening := (WellFormed.returnStatement ht hv).opening_eq hs heq
  cases hs with
  | @returnStatement u w hu hw =>
    simp only [Node.row, List.cons_append, List.append_assoc, List.nil_append,
      List.cons.injEq] at heq
    obtain ⟨htoken, heq⟩ := heq
    obtain ⟨hvalue, hrest⟩ := ihv.isUniqueAt w _ _ hw (ends_cons (by decide) _)
      (ends_cons (by decide) _) heq
    refine ⟨?_, List.tail_eq_of_cons_eq hrest⟩
    rw [Node.bare, Node.bare, htoken, hvalue]
  | letStatement => cases hopening
  | expressionStatement hw => exact absurd hopening.symm hw.opening_ne_word.2

/-- An expression as a statement has no end of its own: what is behind it has to end it. -/
theorem unique_expressionStatement {v : Node} (hv : WellFormed .expression v) (ihv : v.IsUnique) :
    (Node.expressionStatement t v).IsUniqueAt .statement := by
  intro s us us' hs hus hus' heq
  have hopening := (WellFormed.expressionStatement hv).opening_eq hs heq
  cases hs with
  | @expressionStatement u w hw =>
    obtain ⟨hvalue, hrest⟩ := ihv.isUniqueAt w _ _ hw hus hus' heq
    exact ⟨by rw [Node.bare, Node.bare, hvalue], hrest⟩
  | letStatement => exact absurd hopening hv.opening_ne_word.1
  | returnStatement => exact absurd hopening hv.opening_ne_word.2

theorem unique_block {ss : List Node} (hss : ∀ s ∈ ss, WellFormed .statement s)
    (ihss : ∀ s ∈ ss, s.IsUniqueAt .statement) : (Node.block t ss).IsDelimitedAt .block := by
  intro b us us' hb heq
  cases hb with
  | @block u ss' hu hss' =>
    simp only [Node.row, List.cons_append, List.append_assoc, List.nil_append,
      List.cons.injEq] at heq
    obtain ⟨htoken, heq⟩ := heq
    have hbrace {us : List Token} :
        nextKind (⟨.rbrace, "\x7d", .nowhere⟩ :: us) ∈ [Kind.rbrace, .eof] := List.mem_cons_self
    obtain ⟨hbares, hrest⟩ := rows_unique hss ihss hss' hbrace hbrace heq
    refine ⟨?_, List.tail_eq_of_cons_eq hrest⟩
    rw [Node.bare, Node.bare, htoken, hbares]

end

/-- Where a node stands in a tree, it can be told from its row. -/
theorem WellFormed.readsBack {l : Place} {n : Node} (h : WellFormed l n) : n.ReadsBack l := by
  -- the other tree is arbitrary in each case: the induction is on one of the two only
  induction h with
  | identifier ht => exact unique_identifier ht
  | integer ht hd hv => exact unique_integer ht hd hv
  | boolean ht => exact unique_boolean ht
  | unary ht he ih => exact unique_unary ht he ih
  | binary ht ht' hl hr ihl ihr => exact unique_binary ht ht' hl hr ihl ihr
  | conditional ht hc hb ihc ihb => exact unique_conditional ht hc hb ihc ihb
  | choice ht hc hb ha ihc ihb iha => exact unique_choice ht hc hb ha ihc ihb iha
  | function ht hps hb ihps ihb => exact unique_function ht hps hb ihps ihb
  | @call t f as ht hf has ihf ihas =>
    have hcall : Application.IsWellFormed ⟨t, as⟩ := ⟨ht, has⟩
    exact unique_call hcall ihf ihas
  | name => exact unique_name _
  | letStatement ht hx hv ihx ihv => exact unique_letStatement ht hx hv ihx ihv
  | returnStatement ht hv ih => exact unique_returnStatement ht hv ih
  | expressionStatement hv ih => exact unique_expressionStatement hv ih
  | block ht hss ih => exact unique_block hss ih

theorem bareAll_eq_of_rows {ss ss' : List Node} (hss : ∀ s ∈ ss, WellFormed .statement s)
    (hss' : ∀ s ∈ ss', WellFormed .statement s) (h : Node.rows ss = Node.rows ss') :
    Node.bareAll ss = Node.bareAll ss' := by
  have hunique (s : Node) (hs : s ∈ ss) : s.IsUniqueAt .statement := (hss s hs).readsBack
  have heof : nextKind [] ∈ [Kind.rbrace, .eof] := by decide
  exact (rows_unique hss hunique hss' heof heof (by rw [h])).1

/-- Two programs that were read, with defects or without, have the same text only if they are the
same but for the places of their tokens and the tokens of expressions that stand as statements. -/
theorem text_eq_iff (limit limit' : Nat) (source source' : String) :
    (parseWithin limit source).program.text = (parseWithin limit' source').program.text ↔
      Node.bareAll (parseWithin limit source).program.statements =
        Node.bareAll (parseWithin limit' source').program.statements := by
  have hss (s : Node) := @wellFormed_of_mem_statements limit source s
  have hss' (s : Node) := @wellFormed_of_mem_statements limit' source' s
  constructor
  · intro htext
    -- cut into tokens again, each of the two texts is the row of its tree
    refine bareAll_eq_of_rows hss hss' ?_
    rw [← map_bare_rest_text hss, htext, map_bare_rest_text hss']
  · intro hbare
    unfold Program.text
    rw [Node.texts_eq_of_bareAll hbare]

/-- Two statements have another text than a call, although the text of both is read as a call. -/
example : (parseWithin 500 "f; (a + b)").program.text ≠ (parseWithin 500 "f(a + b)").program.text ∧
    (parseWithin 500 (parseWithin 500 "f; (a + b)").program.text).statements.length = 1 := by
  decide +kernel

end MonkeySyntax
