import MonkeySyntax.Proofs.RoundTrip
import MonkeySyntax.Proofs.Watching

namespace MonkeySyntax

def Node.IsDistinct (n : Node) : Prop :=
  n.IsClosed ∧ n.ownTakings = 0

theorem Node.mem_partsAll {m : Node} {ns : List Node} :
    m ∈ partsAll ns ↔ ∃ n ∈ ns, m ∈ n.parts := by
  induction ns with
  | nil => simp [partsAll]
  | cons n ns ih => simp [partsAll, ih]

theorem Node.legibleAll_iff {ns : List Node}
    (hns : ∀ n ∈ ns, n.legible = true ↔ ∀ m ∈ n.parts, m.IsDistinct) :
    legibleAll ns = true ↔ ∀ m ∈ partsAll ns, m.IsDistinct := by
  induction ns with
  | nil => exact iff_of_true rfl fun m hm => nomatch hm
  | cons n ns ih =>
    obtain ⟨hn, hns⟩ := List.forall_mem_cons.1 hns
    rw [legibleAll, Bool.and_eq_true_iff, hn, ih hns, partsAll, List.forall_mem_append]

theorem WellFormed.isDistinct_of_name {x m : Node} (hx : WellFormed .name x) (hm : m ∈ x.parts) :
    m.IsDistinct := by
  cases hx with
  | name =>
    rw [List.mem_singleton.1 hm]
    exact ⟨trivial, rfl⟩

/-- A tree is legible if each of its nodes tells where its own parts end. -/
theorem WellFormed.legible_iff {l : Place} {n : Node} (h : WellFormed l n) :
    n.legible = true ↔ ∀ m ∈ n.parts, m.IsDistinct := by
  induction h with
  | identifier | integer | boolean | name =>
    exact iff_of_true rfl (List.forall_mem_singleton.2 ⟨trivial, rfl⟩)
  | unary _ _ ih | returnStatement _ _ ih | expressionStatement _ ih =>
    rw [Node.legible, ih, Node.parts, List.forall_mem_cons]
    exact (and_iff_right ⟨trivial, rfl⟩).symm
  | binary _ _ _ _ ihl ihr =>
    rw [Node.legible, Bool.and_eq_true_iff, ihl, ihr, Node.parts, List.forall_mem_cons,
      List.forall_mem_append]
    exact (and_iff_right ⟨trivial, rfl⟩).symm
  | conditional _ _ _ ihc ihb =>
    rw [Node.legible, Bool.and_eq_true_iff, Bool.and_eq_true_iff, ihc, ihb, Node.parts,
      List.forall_mem_cons, List.forall_mem_append]
    exact and_congr_left' (and_iff_left rfl).symm
  | choice _ _ _ _ ihc ihb iha =>
    rw [Node.legible, Bool.and_eq_true_iff, Bool.and_eq_true_iff, Bool.and_eq_true_iff, ihc, ihb,
      iha, Node.parts, List.forall_mem_cons, List.forall_mem_append, List.forall_mem_append]
    exact and_congr_left' (and_iff_left rfl).symm
  | @function t ps b ht hps hb _ ihb =>
    have hnames : ∀ m ∈ Node.partsAll ps, m.IsDistinct := by
      intro m hm
      obtain ⟨p, hp, hm⟩ := Node.mem_partsAll.1 hm
      exact (hps p hp).isDistinct_of_name hm
    rw [Node.legible, ihb, Node.parts, List.forall_mem_cons, List.forall_mem_append]
    exact ((and_iff_right ⟨trivial, rfl⟩).trans (and_iff_right hnames)).symm
  | call _ _ _ ihf ihas =>
    rw [Node.legible, Bool.and_eq_true_iff, ihf, Node.legibleAll_iff ihas, Node.parts,
      List.forall_mem_cons, List.forall_mem_append]
    exact (and_iff_right ⟨trivial, rfl⟩).symm
  | @letStatement t x v ht hx hv _ ih =>
    have hname : ∀ m ∈ x.parts, m.IsDistinct := fun m hm => hx.isDistinct_of_name hm
    rw [Node.legible, ih, Node.parts, List.forall_mem_cons, List.forall_mem_append]
    exact ((and_iff_right ⟨trivial, rfl⟩).trans (and_iff_right hname)).symm
  | block _ _ ih =>
    rw [Node.legible, Bool.and_eq_true_iff, Node.separate_iff, Node.legibleAll_iff ih, Node.parts,
      List.forall_mem_cons]
    exact and_congr_left' (and_iff_right trivial).symm

/-- The nodes of a well-formed tree are well-formed. -/
theorem WellFormed.of_mem_parts {l : Place} {n m : Node} (h : WellFormed l n) (hm : m ∈ n.parts) :
    ∃ l', WellFormed l' m := by
  -- a node below the root is one of a part
  have hroot {l : Place} {n : Node} {ms : List Node} (h : WellFormed l n)
      (hms : m ∈ ms → ∃ l', WellFormed l' m) (hm : m ∈ n :: ms) : ∃ l', WellFormed l' m := by
    rcases List.mem_cons.1 hm with rfl | hm
    · exact ⟨l, h⟩
    · exact hms hm
  have happend {ms ms' : List Node} (hms : m ∈ ms → ∃ l', WellFormed l' m)
      (hms' : m ∈ ms' → ∃ l', WellFormed l' m) (hm : m ∈ ms ++ ms') : ∃ l', WellFormed l' m :=
    (List.mem_append.1 hm).elim hms hms'
  have hall {ns : List Node} (hns : ∀ n ∈ ns, m ∈ n.parts → ∃ l', WellFormed l' m)
      (hm : m ∈ Node.partsAll ns) : ∃ l', WellFormed l' m := by
    obtain ⟨n, hn, hm⟩ := Node.mem_partsAll.1 hm
    exact hns n hn hm
  have hnone (hm : m ∈ []) : ∃ l', WellFormed l' m := nomatch hm
  induction h with
  | identifier ht => exact hroot (.identifier ht) hnone hm
  | integer ht hd hv => exact hroot (.integer ht hd hv) hnone hm
  | boolean ht => exact hroot (.boolean ht) hnone hm
  | name ht => exact hroot (.name ht) hnone hm
  | unary ht he ih => exact hroot (.unary ht he) ih hm
  | binary ht ht' hl hr ihl ihr => exact hroot (.binary ht ht' hl hr) (happend ihl ihr) hm
  | conditional ht hc hb ihc ihb => exact hroot (.conditional ht hc hb) (happend ihc ihb) hm
  | choice ht hc hb ha ihc ihb iha =>
    exact hroot (.choice ht hc hb ha) (happend ihc (happend ihb iha)) hm
  | function ht hps hb ihps ihb => exact hroot (.function ht hps hb) (happend (hall ihps) ihb) hm
  | call ht hf has ihf ihas => exact hroot (.call ht hf has) (happend ihf (hall ihas)) hm
  | letStatement ht hx hv ihx ih => exact hroot (.letStatement ht hx hv) (happend ihx ih) hm
  | returnStatement ht hv ih => exact hroot (.returnStatement ht hv) ih hm
  | expressionStatement hv ih => exact hroot (.expressionStatement hv) ih hm
  | block ht hss ih => exact hroot (.block ht hss) (hall ih) hm

def Program.parts (p : Program) : List Node :=
  Node.partsAll p.statements

/-- Legibility is a condition on every choice and on every list of statements in a program. -/
theorem Program.legible_iff {p : Program} (hp : ∀ s ∈ p.statements, WellFormed .statement s) :
    p.legible = true ↔
      (∀ t c b a, .conditional t c b a ∈ p.parts → c.isOperation = true) ∧
        Node.separate p.statements = true ∧
          ∀ t ss, .block t ss ∈ p.parts → Node.separate ss = true := by
  have hnodes := Node.legibleAll_iff fun s hs => (hp s hs).legible_iff
  rw [legible, Bool.and_eq_true_iff, hnodes]
  constructor
  · rintro ⟨hseparate, hdistinct⟩
    refine ⟨fun t c b a hm => (hdistinct _ hm).1, hseparate, fun t ss hm => ?_⟩
    exact (Node.separate_iff ss).2 (hdistinct _ hm).2
  · rintro ⟨hclosed, hseparate, hblocks⟩
    refine ⟨hseparate, fun m hm => ⟨?_, ?_⟩⟩
    · cases m with
      | conditional t c b a => exact hclosed t c b a hm
      | _ => trivial
    · cases m with
      | block t ss => exact (Node.separate_iff ss).1 (hblocks t ss hm)
      | _ => rfl

/-- A program is legible if the tokens of its text spell statements that are alike. -/
theorem Program.legible_of_spells {p : Program} {ss : List Node} {us : List Token}
    (hp : ∀ s ∈ p.statements, WellFormed .statement s)
    (hrow : us.map Token.bare = Node.rows p.statements) (hspells : Spells (.statements ss) us)
    (hbare : Node.bareAll ss = Node.bareAll p.statements) : p.legible = true := by
  have hnodes := Node.legibleAll_iff fun s hs => (hp s hs).legible_iff
  have hwatched : Watch.through ⟨.anything, []⟩ (Node.rows p.statements) =
      some ⟨.anything, []⟩ := by
    rw [← hrow, Watch.through_map_bare]
    exact hspells.through []
  obtain ⟨-, hclosed⟩ :=
    tells_rows (fun s hs => isWatched_of_wellFormed (hp s hs)) [] _ hwatched
  -- the calls that are read are those of the program, so that nothing is left for takings
  have hspelled : applications us = (Node.partsAll ss).countP Node.isCall :=
    hspells.applications_eq
  have hcount := applications_rows hp fun s hs => (hp s hs).applications_row
  rw [← hrow, applications_map_bare, hspelled, Node.countP_isCall_of_bareAll hbare,
    Node.total] at hcount
  have htakings : Node.takings p.statements = 0 ∧
      ((Node.partsAll p.statements).map Node.ownTakings).sum = 0 := by
    omega
  obtain ⟨hstatements, hsum⟩ := htakings
  rw [legible, Bool.and_eq_true_iff, hnodes]
  refine ⟨(Node.separate_iff _).2 hstatements, fun m hm => ⟨hclosed m hm, ?_⟩⟩
  exact List.sum_eq_zero_iff_forall_eq_nat.1 hsum _ (List.mem_map_of_mem hm)

/-- The canonical text of a program is read as the program again, places apart, if and only if all
conditions in the program are operations and no expression that stands as a statement is followed
by one whose text starts with a parenthesis. The text starts so if what stands first in the chain of
calls is an operation. -/
theorem reparse_iff (limit limit' : Nat) (source : String)
    (hclean : (parseWithin limit source).clean = true)
    (hdeep : (parseWithin limit' (parseWithin limit source).program.text).withinLimit) :
    let p := (parseWithin limit source).program
    let again := parseWithin limit' p.text
    ((again.clean = true ∧
          Node.bareAll again.program.statements = Node.bareAll p.statements) ↔
        (∀ t c b a, .conditional t c b a ∈ p.parts → c.isOperation = true) ∧
          Node.separate p.statements = true ∧
            ∀ t ss, .block t ss ∈ p.parts → Node.separate ss = true) ∧
      ∀ t e, .expressionStatement t e ∈ p.parts →
        (e.text.toList.head? = some '(' ↔ e.leftmost.isOperation = true) := by
  intro p again
  have hp : ∀ s ∈ p.statements, WellFormed .statement s := wellFormed_of_clean hclean
  constructor
  · rw [← Program.legible_iff hp]
    constructor
    · rintro ⟨hagain, hbare⟩
      obtain ⟨hdefects, hoversized⟩ := Run.clean_iff.1 hagain
      exact Program.legible_of_spells hp (map_bare_rest_text hp)
        (spells_of_parse hdefects hoversized) hbare
    · intro hlegible
      exact clean_and_alike_of_legible hp hlegible hdeep
  · intro t e hm
    obtain ⟨s, hs, hm⟩ := Node.mem_partsAll.1 hm
    obtain ⟨l, hwf⟩ := (hp s hs).of_mem_parts hm
    cases hwf with
    | expressionStatement he => exact he.head_text

theorem reparse_iff_of_nested :
    let good := "fn(x) \x7b if (x < 1) \x7b -x; f(x) \x7d; y \x7d"
    let bad := "fn(x) \x7b if (f(x)) \x7b a; (-b)(c) \x7d; y \x7d"
    let reads (p : Program) : Prop := (parseWithin 20 p.text).clean = true ∧
      Node.bareAll (parseWithin 20 p.text).program.statements = Node.bareAll p.statements
    (parseWithin 20 good).clean = true ∧ reads (parseWithin 20 good).program ∧
      (parseWithin 20 bad).clean = true ∧ ¬reads (parseWithin 20 bad).program := by
  intro good bad reads
  have hgood : (parseWithin 20 good).clean = true := by decide +kernel
  have hbad : (parseWithin 20 bad).clean = true := by decide +kernel
  obtain ⟨hiff, -⟩ := reparse_iff 20 20 good hgood (by decide +kernel)
  obtain ⟨hiff', -⟩ := reparse_iff 20 20 bad hbad (by decide +kernel)
  refine ⟨hgood, ?_, hbad, fun hread => ?_⟩
  · have hlegible : (parseWithin 20 good).program.legible = true := by decide +kernel
    exact hiff.2 ((Program.legible_iff (wellFormed_of_clean hgood)).1 hlegible)
  · have hlegible : (parseWithin 20 bad).program.legible = true :=
      (Program.legible_iff (wellFormed_of_clean hbad)).2 (hiff'.1 hread)
    have hillegible : (parseWithin 20 bad).program.legible = false := by decide +kernel
    rw [hillegible] at hlegible
    cases hlegible

end MonkeySyntax
