import MonkeySyntax.Proofs.Showing
import MonkeySyntax.Shell.Outcome

namespace MonkeySyntax

def lineEnds : List Char :=
  ['\n', '\r', '\x0b', '\x0c', '\x1c', '\x1d', '\x1e', '\x85', '\u2028', '\u2029']

/-- The lines of a row of characters, without what ends them. The last one need not be ended. -/
def linesOf : List Char → List (List Char)
  | [] => []
  | '\r' :: '\n' :: cs => [] :: linesOf cs
  | c :: cs =>
    if c ∈ lineEnds then [] :: linesOf cs
    else
      match linesOf cs with
      | [] => [[c]]
      | l :: ls => (c :: l) :: ls

def textLines (s : String) : List String :=
  (linesOf s.toList).map String.ofList

def unlines (ls : List String) : String := String.join (ls.map (· ++ "\n"))

abbrev OnOneLine : String → Prop := MadeOf fun c => c ∉ lineEnds

/-- No printable character ends a line. -/
theorem not_mem_lineEnds_of_isPrintable {c : Char} (h : isPrintable c) : c ∉ lineEnds := by
  have hends : lineEnds.all fun d => !isPrintable d := by decide +kernel
  intro hc
  have hnot : (!isPrintable c) = true := List.all_eq_true.mp hends c hc
  rw [h] at hnot
  exact absurd hnot (by decide)

theorem AllPrintable.onOneLine {s : String} (h : AllPrintable s) : OnOneLine s :=
  h.mono fun _ => not_mem_lineEnds_of_isPrintable

theorem onOneLine_tab : OnOneLine "\t" := by decide

/-- A row of characters that stays on one line is a line when a line feed ends it. -/
theorem linesOf_line {l : List Char} (h : ∀ c ∈ l, c ∉ lineEnds) (cs : List Char) :
    linesOf (l ++ '\n' :: cs) = l :: linesOf cs := by
  induction l with
  | nil =>
    rw [List.nil_append, linesOf]
    · rw [if_pos (by decide)]
    · simp
  | cons c l ih =>
    have hc : c ∉ lineEnds := h c List.mem_cons_self
    -- a carriage return would take the line feed with it, but it ends a line itself
    have hreturn : c ≠ '\r' := fun heq => hc (heq ▸ by decide)
    rw [List.cons_append, linesOf, if_neg hc, ih fun d hd => h d (List.mem_cons_of_mem c hd)]
    intro _ heq
    exact absurd heq hreturn

/-- The lines that are read are those that were written. -/
theorem textLines_unlines {ls : List String} (h : ∀ l ∈ ls, OnOneLine l) :
    textLines (unlines ls) = ls := by
  induction ls with
  | nil => rfl
  | cons l ls ih =>
    have hsplit : (unlines (l :: ls)).toList = l.toList ++ '\n' :: (unlines ls).toList := by
      rw [unlines, List.map_cons, String.join_cons, String.toList_append, String.toList_append,
        List.append_assoc]
      rfl
    rw [textLines, hsplit, linesOf_line (h l List.mem_cons_self), List.map_cons,
      String.ofList_toList]
    exact congrArg (l :: ·) (ih fun m hm => h m (List.mem_cons_of_mem l hm))

theorem unlines_append (ls ms : List String) : unlines (ls ++ ms) = unlines ls ++ unlines ms := by
  rw [unlines, List.map_append, String.join_append]
  rfl

/-- Lines with a line feed between them, and one behind them, are lines with one behind each. -/
theorem intercalate_append_newline {ls : List String} (h : ls ≠ []) :
    "\n".intercalate ls ++ "\n" = unlines ls := by
  induction ls with
  | nil => contradiction
  | cons l ls ih =>
    cases ls with
    | nil => simp [unlines]
    | cons m ls =>
      rw [String.intercalate_cons_cons, unlines, List.map_cons, String.join_cons]
      change _ = l ++ "\n" ++ unlines (m :: ls)
      rw [← ih (List.cons_ne_nil m ls)]
      simp only [String.append_assoc]

theorem join_map_eq_empty {α : Type} {f : α → String} {l : List α} (h : ∀ a ∈ l, f a = "") :
    String.join (l.map f) = "" := by
  induction l with
  | nil => rfl
  | cons a l ih =>
    rw [List.map_cons, String.join_cons, h a List.mem_cons_self,
      ih fun b hb => h b (List.mem_cons_of_mem a hb)]
    rfl

namespace Piece

def said (ls : List String) : List Piece := ls.map fun l => .out (l ++ "\n")

def complained (ls : List String) : List Piece := ls.map fun l => .err (l ++ "\n")

theorem said_append (ls ms : List String) : said (ls ++ ms) = said ls ++ said ms :=
  List.map_append

theorem join_toOut_said (ls : List String) : String.join ((said ls).map toOut) = unlines ls := by
  rw [said, List.map_map]
  rfl

theorem join_toOut_complained (ls : List String) :
    String.join ((complained ls).map toOut) = "" := by
  apply join_map_eq_empty
  intro p hp
  obtain ⟨l, -, rfl⟩ := List.mem_map.mp hp
  rfl

theorem join_toErr_complained (verbose : Bool) (ls : List String) :
    String.join ((complained ls).map (toErr verbose)) = unlines ls := by
  rw [complained, List.map_map]
  rfl

end Piece

namespace Outcome

theorem forM_congr {l : List α} {f g : α → Outcome Unit} (h : ∀ a ∈ l, f a = g a) :
    forM l f = forM l g := by
  induction l with
  | nil => rfl
  | cons a l ih =>
    rw [List.forM_cons, List.forM_cons, h a List.mem_cons_self,
      ih fun b hb => h b (List.mem_cons_of_mem a hb)]

theorem forM_say (l : List α) (f : α → String) :
    (forM l fun a => say (f a)) = ⟨Piece.said (l.map f), .ok ()⟩ := by
  rw [Piece.said, List.map_map]
  exact forM_write l fun a => .out (f a ++ "\n")

theorem forM_complain (l : List α) (f : α → String) :
    (forM l fun a => complain (f a)) = ⟨Piece.complained (l.map f), .ok ()⟩ := by
  rw [Piece.complained, List.map_map]
  exact forM_write l fun a => .err (f a ++ "\n")

end Outcome

end MonkeySyntax
