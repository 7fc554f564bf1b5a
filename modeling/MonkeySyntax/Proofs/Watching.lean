import MonkeySyntax.Proofs.Calls

namespace MonkeySyntax

inductive Due where
  | anything
  | opening
  | block

/-- What is known in the middle of a row: what is due, and for each open parenthesis whether it is
that of a condition, the innermost one first. -/
structure Watch where
  due : Due
  enclosing : List Bool

def Watch.step : Watch → Kind → Option Watch
  | ⟨.anything, ps⟩, .wordIf => some ⟨.opening, ps⟩
  | ⟨.opening, ps⟩, .lparen => some ⟨.anything, true :: ps⟩
  | ⟨.anything, ps⟩, .lparen => some ⟨.anything, false :: ps⟩
  | ⟨.anything, true :: ps⟩, .rparen => some ⟨.block, ps⟩
  | ⟨.anything, false :: ps⟩, .rparen => some ⟨.anything, ps⟩
  | ⟨.anything, []⟩, .rparen => none
  | ⟨.block, ps⟩, .lbrace => some ⟨.anything, ps⟩
  | ⟨.anything, ps⟩, _ => some ⟨.anything, ps⟩
  | _, _ => none

def Watch.through (w : Watch) (ts : List Token) : Option Watch :=
  ts.foldlM (fun w t => w.step t.kind) w

def Kind.IsPassed (k : Kind) : Prop :=
  k ≠ .wordIf ∧ k ≠ .lparen ∧ k ≠ .rparen

instance (k : Kind) : Decidable k.IsPassed := inferInstanceAs (Decidable (_ ∧ _))

theorem Kind.IsBinary.isPassed {k : Kind} (h : k.IsBinary) : k.IsPassed :=
  ⟨h.ne (by decide), h.2, h.ne (by decide)⟩

theorem Token.Is.isPassed {t : Token} {k : Kind} (h : t.Is k) (hk : k.IsPassed) :
    t.bare.kind.IsPassed := by
  rw [Token.kind_bare, h.kind_eq]
  exact hk

namespace Watch

variable {ps : List Bool}

@[simp] theorem step_wordIf : step ⟨.anything, ps⟩ .wordIf = some ⟨.opening, ps⟩ := rfl

@[simp] theorem step_opening : step ⟨.opening, ps⟩ .lparen = some ⟨.anything, true :: ps⟩ := rfl

@[simp] theorem step_lparen : step ⟨.anything, ps⟩ .lparen = some ⟨.anything, false :: ps⟩ := rfl

@[simp] theorem step_closing : step ⟨.anything, true :: ps⟩ .rparen = some ⟨.block, ps⟩ := rfl

@[simp] theorem step_rparen : step ⟨.anything, false :: ps⟩ .rparen = some ⟨.anything, ps⟩ := rfl

theorem step_of_isPassed {k : Kind} (hk : k.IsPassed) :
    step ⟨.anything, ps⟩ k = some ⟨.anything, ps⟩ := by
  obtain ⟨hif, hlparen, hrparen⟩ := hk
  cases k <;> first | rfl | contradiction

theorem step_opening_of_ne {k : Kind} (hk : k ≠ .lparen) : step ⟨.opening, ps⟩ k = none := by
  cases k <;> first | rfl | contradiction

theorem step_block_of_ne {k : Kind} (hk : k ≠ .lbrace) : step ⟨.block, ps⟩ k = none := by
  cases k <;> first | rfl | contradiction

@[simp] theorem through_nil (w : Watch) : w.through [] = some w := rfl

@[simp] theorem through_cons (w : Watch) (t : Token) (ts : List Token) :
    w.through (t :: ts) = (w.step t.kind).bind fun w => w.through ts := rfl

@[simp] theorem through_append (w : Watch) (us vs : List Token) :
    w.through (us ++ vs) = (w.through us).bind fun w => w.through vs :=
  List.foldlM_append

theorem through_map_bare (w : Watch) (us : List Token) :
    w.through (us.map Token.bare) = w.through us := by
  unfold through
  rw [List.foldlM_map]
  rfl

/-- A block is what is due behind a condition, and may stand anywhere else as well. -/
theorem through_block {us : List Token} (h : nextKind us = .lbrace) :
    through ⟨.block, ps⟩ us = through ⟨.anything, ps⟩ us := by
  cases us with
  | nil => cases h
  | cons t us =>
    rw [nextKind_cons] at h
    rw [through_cons, through_cons, h]
    rfl

end Watch

/-- What spells a phrase can be watched to the end. -/
theorem Spells.through {φ : Phrase} {us : List Token} (h : Spells φ us) (ps : List Bool) :
    Watch.through ⟨.anything, ps⟩ us = some ⟨.anything, ps⟩ := by
  induction h generalizing ps with
  | identifier ht | integer ht | parameter ht =>
    simp (disch := decide) [ht, Watch.step_of_isPassed]
  | boolean ht => rcases ht with ht | ht <;> simp (disch := decide) [ht, Watch.step_of_isPassed]
  | grouped hl he hr ih => simp [hl, hr, ih]
  | conditional ht hl hc hr hb ihc ihb =>
    simp [ht, hl, hr, ihc, Watch.through_block hb.startsWith, ihb]
  | choice ht hl hc hr hb ho ha ihc ihb iha =>
    simp (disch := decide) [ht, hl, hr, ho, ihc, Watch.through_block hb.startsWith, ihb,
      Watch.step_of_isPassed, iha]
  | function ht hl hps hr hb ihps ihb =>
    simp (disch := decide) [ht, hl, hr, ihps, ihb, Watch.step_of_isPassed]
  | call hf hk hl has hr ihf ihas => simp [hl, hr, ihf, ihas]
  | unary ht he hk ih =>
    rcases ht with ht | ht <;> simp (disch := decide) [ht, Watch.step_of_isPassed, ih]
  | binary ht hl hk hr hm ihl ihr =>
    simp [ihl, Watch.step_of_isPassed ht.isPassed, ihr]
  | argument _ ih | expressionStatement _ ih => exact ih ps
  | noFurther | noItems | noStatements => rfl
  | further ht hn hns ihn ihns => simp (disch := decide) [ht, Watch.step_of_isPassed, ihn, ihns]
  | items hn hns ihn ihns => simp [ihn, ihns]
  | letStatement ht hx ha he ih => simp (disch := decide) [ht, hx, ha, Watch.step_of_isPassed, ih]
  | returnStatement ht he ih => simp (disch := decide) [ht, Watch.step_of_isPassed, ih]
  | terminated hs ht hss ihs ihss => simp (disch := decide) [ht, Watch.step_of_isPassed, ihs, ihss]
  | apart hs hss hvs ihs ihss => simp [ihs, ihss]
  | block hl hss hr ih => simp (disch := decide) [hl, hr, Watch.step_of_isPassed, ih]

/-- Whether watching a row to the end, from where anything is due, leads back there and tells that
something holds. -/
def Tells (us : List Token) (P : Prop) : Prop :=
  ∀ ps w, Watch.through ⟨.anything, ps⟩ us = some w → w = ⟨.anything, ps⟩ ∧ P

def TellsCondition (us : List Token) (P : Prop) : Prop :=
  ∀ ps w, Watch.through ⟨.opening, ps⟩ us = some w → w = ⟨.block, ps⟩ ∧ P

section

variable {us vs : List Token} {P Q : Prop} {t l r : Token}

theorem Tells.imp (h : Tells us P) (hPQ : P → Q) : Tells us Q := by
  intro ps w hw
  obtain ⟨rfl, hP⟩ := h ps w hw
  exact ⟨rfl, hPQ hP⟩

theorem TellsCondition.imp (h : TellsCondition us P) (hPQ : P → Q) : TellsCondition us Q := by
  intro ps w hw
  obtain ⟨rfl, hP⟩ := h ps w hw
  exact ⟨rfl, hPQ hP⟩

theorem tells_nil : Tells [] True := by
  intro ps w hw
  cases hw
  exact ⟨rfl, trivial⟩

/-- A row behind another one tells what both of them tell. -/
theorem Tells.append (h : Tells us P) (h' : Tells vs Q) : Tells (us ++ vs) (P ∧ Q) := by
  intro ps w hw
  rw [Watch.through_append] at hw
  obtain ⟨w', hus, hvs⟩ := Option.bind_eq_some_iff.1 hw
  obtain ⟨rfl, hP⟩ := h ps w' hus
  obtain ⟨rfl, hQ⟩ := h' ps w hvs
  exact ⟨rfl, hP, hQ⟩

theorem Tells.cons (h : Tells us P) (ht : t.kind.IsPassed) : Tells (t :: us) P := by
  intro ps w hw
  rw [Watch.through_cons, Watch.step_of_isPassed ht] at hw
  exact h ps w hw

theorem tells_singleton (ht : t.kind.IsPassed) : Tells [t] True :=
  tells_nil.cons ht

/-- Parentheses that are not those of a condition keep nothing back. -/
theorem Tells.enclosed (h : Tells us P) (h' : Tells vs Q) (hl : l.kind = .lparen)
    (hr : r.kind = .rparen) : Tells (l :: (us ++ r :: vs)) (P ∧ Q) := by
  -- inside, one more parenthesis is open, and it is not that of a condition
  intro ps w hw
  rw [Watch.through_cons, hl, Watch.step_lparen, Option.bind_some, Watch.through_append] at hw
  obtain ⟨w', hus, hw⟩ := Option.bind_eq_some_iff.1 hw
  obtain ⟨rfl, hP⟩ := h (false :: ps) w' hus
  rw [Watch.through_cons, hr] at hw
  obtain ⟨rfl, hQ⟩ := h' ps w hw
  exact ⟨rfl, hP, hQ⟩

/-- What is in parentheses can stand as a condition. -/
theorem Tells.condition (h : Tells us P) (hl : l.kind = .lparen) (hr : r.kind = .rparen) :
    TellsCondition (l :: (us ++ [r])) P := by
  -- the same as before, but the parenthesis is remembered as that of a condition
  intro ps w hw
  rw [Watch.through_cons, hl, Watch.step_opening, Option.bind_some, Watch.through_append] at hw
  obtain ⟨w', hus, hw⟩ := Option.bind_eq_some_iff.1 hw
  obtain ⟨rfl, hP⟩ := h (true :: ps) w' hus
  rw [Watch.through_cons, hr] at hw
  cases hw
  exact ⟨rfl, hP⟩

/-- What does not start with a parenthesis cannot stand as a condition. -/
theorem tellsCondition_of_ne (ht : t.kind ≠ .lparen) : TellsCondition (t :: us) P := by
  intro ps w hw
  rw [Watch.through_cons, Watch.step_opening_of_ne ht] at hw
  cases hw

/-- What goes on with another parenthesis cannot stand as a condition. -/
theorem TellsCondition.append (h : TellsCondition us P) (ht : t.kind ≠ .lbrace) :
    TellsCondition (us ++ t :: vs) Q := by
  -- the first parentheses were taken for all of the condition, so a block is due
  intro ps w hw
  rw [Watch.through_append] at hw
  obtain ⟨w', hus, hw⟩ := Option.bind_eq_some_iff.1 hw
  obtain ⟨rfl, -⟩ := h ps w' hus
  rw [Watch.through_cons, Watch.step_block_of_ne ht] at hw
  cases hw

theorem TellsCondition.conditional (h : TellsCondition us P) (h' : Tells vs Q)
    (ht : t.kind = .wordIf) (hvs : nextKind vs = .lbrace) : Tells (t :: (us ++ vs)) (P ∧ Q) := by
  intro ps w hw
  rw [Watch.through_cons, ht, Watch.step_wordIf, Option.bind_some, Watch.through_append] at hw
  obtain ⟨w', hus, hw⟩ := Option.bind_eq_some_iff.1 hw
  obtain ⟨rfl, hP⟩ := h ps w' hus
  rw [Watch.through_block hvs] at hw
  obtain ⟨rfl, hQ⟩ := h' ps w hw
  exact ⟨rfl, hP, hQ⟩

end

/-- Whether a node has no condition without parentheses of its own. -/
def Node.IsClosed : Node → Prop
  | .conditional _ c _ _ => c.isOperation = true
  | _ => True

theorem tells_furtherRow {ns : List Node}
    (hns : ∀ n ∈ ns, Tells n.row (∀ m ∈ n.parts, m.IsClosed)) :
    Tells (Node.furtherRow ns) (∀ m ∈ Node.partsAll ns, m.IsClosed) := by
  induction ns with
  | nil => exact tells_nil.imp fun _ m hm => nomatch hm
  | cons n ns ih =>
    obtain ⟨hn, hns⟩ := List.forall_mem_cons.1 hns
    exact ((hn.append (ih hns)).cons (by decide)).imp List.forall_mem_append.2

theorem tells_itemRow {ns : List Node}
    (hns : ∀ n ∈ ns, Tells n.row (∀ m ∈ n.parts, m.IsClosed)) :
    Tells (Node.itemRow ns) (∀ m ∈ Node.partsAll ns, m.IsClosed) := by
  cases ns with
  | nil => exact tells_nil.imp fun _ m hm => nomatch hm
  | cons n ns =>
    obtain ⟨hn, hns⟩ := List.forall_mem_cons.1 hns
    exact (hn.append (tells_furtherRow hns)).imp List.forall_mem_append.2

theorem tells_rows {ss : List Node}
    (hss : ∀ s ∈ ss, Tells s.row (∀ m ∈ s.parts, m.IsClosed)) :
    Tells (Node.rows ss) (∀ m ∈ Node.partsAll ss, m.IsClosed) := by
  induction ss with
  | nil => exact tells_nil.imp fun _ m hm => nomatch hm
  | cons s ss ih =>
    obtain ⟨hs, hss⟩ := List.forall_mem_cons.1 hss
    exact (hs.append (ih hss)).imp List.forall_mem_append.2

def Place.IsWatched : Place → Node → Prop
  | .expression, e => Tells e.row (∀ m ∈ e.parts, m.IsClosed) ∧
      TellsCondition e.row (e.isOperation = true ∧ ∀ m ∈ e.parts, m.IsClosed)
  | _, n => Tells n.row (∀ m ∈ n.parts, m.IsClosed)

/-- An operation brings parentheses of its own, which serve as those of a condition. -/
theorem isWatched_of_operation {n : Node} {us : List Token} {P : Prop} (hop : n.isOperation = true)
    (hrow : n.row = ⟨.lparen, "(", .nowhere⟩ :: (us ++ [⟨.rparen, ")", .nowhere⟩]))
    (hus : Tells us P) (hparts : P → ∀ m ∈ n.parts, m.IsClosed) :
    Place.expression.IsWatched n := by
  rw [Place.IsWatched, hrow]
  constructor
  · exact (hus.enclosed tells_nil rfl rfl).imp fun h => hparts h.1
  · exact (hus.condition rfl rfl).imp fun h => ⟨hop, hparts h⟩

/-- Watching the row of a well-formed tree to the end tells that its conditions are operations. -/
theorem isWatched_of_wellFormed {l : Place} {n : Node} (h : WellFormed l n) : l.IsWatched n := by
  -- what stands as a condition has to pass where its parenthesis is due: a word does not, an
  -- operation does, and a call does not even if its callee would
  induction h with
  | identifier ht | integer ht =>
    refine ⟨?_, tellsCondition_of_ne (ht.isPassed (by decide)).2.1⟩
    exact (tells_singleton (ht.isPassed (by decide))).imp fun _ =>
      List.forall_mem_singleton.2 trivial
  | @boolean t ht =>
    have hpassed : t.bare.kind.IsPassed := by
      rcases ht with ht | ht <;> exact ht.isPassed (by decide)
    refine ⟨?_, tellsCondition_of_ne hpassed.2.1⟩
    exact (tells_singleton hpassed).imp fun _ => List.forall_mem_singleton.2 trivial
  | name ht =>
    exact (tells_singleton (ht.isPassed (by decide))).imp fun _ =>
      List.forall_mem_singleton.2 trivial
  | @unary t e ht he ih =>
    have hsign : t.bare.kind.IsPassed := by
      rcases ht with ht | ht <;> exact ht.isPassed (by decide)
    exact isWatched_of_operation rfl rfl (ih.1.cons hsign) fun h =>
      List.forall_mem_cons.2 ⟨trivial, h⟩
  | @binary t l r ht ht' hl hr ihl ihr =>
    have hright := ihr.1.cons (t := t.bare) ht.isPassed
    have hinner := (ihl.1.append hright).imp List.forall_mem_append.2
    have hrow : (Node.binary t l t.literal r).row =
        ⟨.lparen, "(", .nowhere⟩ :: ((l.row ++ t.bare :: r.row) ++ [⟨.rparen, ")", .nowhere⟩]) := by
      simp [Node.row]
    exact isWatched_of_operation rfl hrow hinner fun h => List.forall_mem_cons.2 ⟨trivial, h⟩
  | conditional ht hc hb ihc ihb =>
    refine ⟨?_, tellsCondition_of_ne ?_⟩
    · apply (ihc.2.conditional ihb ht.kind_eq hb.nextKind_block).imp
      rintro ⟨⟨hop, hc⟩, hb⟩
      exact List.forall_mem_cons.2 ⟨hop, List.forall_mem_append.2 ⟨hc, hb⟩⟩
    · rw [Token.kind_bare, ht.kind_eq]
      decide
  | choice ht hc hb ha ihc ihb iha =>
    have hblocks := ihb.append (iha.cons (t := ⟨.wordElse, "else", .nowhere⟩) (by decide))
    have hblock := nextKind_append_of_lbrace hb.nextKind_block
    refine ⟨?_, tellsCondition_of_ne ?_⟩
    · apply (ihc.2.conditional hblocks ht.kind_eq (hblock _)).imp
      rintro ⟨⟨hop, hc⟩, hb, ha⟩
      exact List.forall_mem_cons.2
        ⟨hop, List.forall_mem_append.2 ⟨hc, List.forall_mem_append.2 ⟨hb, ha⟩⟩⟩
    · rw [Token.kind_bare, ht.kind_eq]
      decide
  | function ht hps hb ihps ihb =>
    have hbehind := (tells_itemRow ihps).enclosed (l := ⟨.lparen, "(", .nowhere⟩)
      (r := ⟨.rparen, ")", .nowhere⟩) ihb rfl rfl
    refine ⟨?_, tellsCondition_of_ne (ht.isPassed (by decide)).2.1⟩
    exact (hbehind.cons (ht.isPassed (by decide))).imp fun h =>
      List.forall_mem_cons.2 ⟨trivial, List.forall_mem_append.2 h⟩
  | @call t f as ht hf has ihf ihas =>
    have harguments := (tells_itemRow fun a ha => (ihas a ha).1).enclosed (l := t.bare)
      (r := ⟨.rparen, ")", .nowhere⟩) tells_nil ht.kind_eq rfl
    constructor
    · exact (ihf.1.append harguments).imp fun h =>
        List.forall_mem_cons.2 ⟨trivial, List.forall_mem_append.2 ⟨h.1, h.2.1⟩⟩
    · refine ihf.2.append ?_
      rw [Token.kind_bare, ht.kind_eq]
      decide
  | letStatement ht hx hv ihx ih =>
    have hsemicolon := tells_singleton (t := ⟨.semicolon, ";", .nowhere⟩) (by decide)
    have hvalue := (ih.1.append hsemicolon).cons
      (t := ⟨.assign, "=", .nowhere⟩) (by decide)
    exact ((ihx.append hvalue).cons (ht.isPassed (by decide))).imp fun h =>
      List.forall_mem_cons.2 ⟨trivial, List.forall_mem_append.2 ⟨h.1, h.2.1⟩⟩
  | returnStatement ht hv ih =>
    have hvalue := ih.1.append (tells_singleton (t := ⟨.semicolon, ";", .nowhere⟩) (by decide))
    exact (hvalue.cons (ht.isPassed (by decide))).imp fun h =>
      List.forall_mem_cons.2 ⟨trivial, h.1⟩
  | expressionStatement hv ih =>
    exact ih.1.imp fun h => List.forall_mem_cons.2 ⟨trivial, h⟩
  | block ht hss ih =>
    have hbody := (tells_rows ih).append
      (tells_singleton (t := ⟨.rbrace, "\x7d", .nowhere⟩) (by decide))
    apply (hbody.cons (ht.isPassed (by decide))).imp
    rintro ⟨hss, -⟩
    exact List.forall_mem_cons.2 ⟨trivial, hss⟩

end MonkeySyntax
