import MonkeySyntax.Proofs.Lines
import MonkeySyntax.Proofs.Nesting
import MonkeySyntax.Shell.Batch

namespace MonkeySyntax

namespace Piece

def remark (part line : String) : Piece := .note s!"DEBUG monkey.{part}: {line}\n"

def remarks (es : List Defect) : List Piece :=
  es.map fun e => remark "monkey_parser" s!"recorded parse error: {e.text}"

def summary (r : Run) : Piece :=
  remark "monkey_cli" s!"parsed {r.statements.length} statement(s), {r.defects.length} error(s)"

theorem join_toOut_remarks (es : List Defect) : String.join ((remarks es).map toOut) = "" := by
  apply join_map_eq_empty
  intro p hp
  obtain ⟨e, -, rfl⟩ := List.mem_map.mp hp
  rfl

theorem join_toErr_remarks (es : List Defect) :
    String.join ((remarks es).map (toErr false)) = "" := by
  apply join_map_eq_empty
  intro p hp
  obtain ⟨e, -, rfl⟩ := List.mem_map.mp hp
  rfl

end Piece

def reportHeading : String := "[error] >>> parser errors:"

def report (es : List String) : List String :=
  if es.isEmpty then [] else reportHeading :: es.map ("\t" ++ ·)

theorem run_text (m : Machine) (files : Files) (source : String) :
    Request.run m files ⟨source, true, .text⟩ =
      presentProgram m (fun p => p.text? m.textDepth) source := rfl

theorem run_json (m : Machine) (files : Files) (source : String) :
    Request.run m files ⟨source, true, .json⟩ =
      presentProgram m (fun p => (p.document? m.documentDepth).map Json.pretty) source := rfl

open Piece

section

variable {m : Machine} {source : String} {run : Run} (hrun : parseWithin m.nesting source = run)
  (hoversized : run.oversized = none)

include hrun hoversized

theorem readProgram_eq : readProgram m source = ⟨remarks run.defects, .ok run⟩ := by
  have hnotes : (forM run.defects fun d =>
      Outcome.note "monkey_parser" s!"recorded parse error: {d.text}") =
        ⟨remarks run.defects, .ok ()⟩ := Outcome.forM_write _ _
  unfold readProgram
  dsimp only
  rw [hrun, hnotes, Outcome.bind_of_ok rfl, hoversized]
  dsimp only
  rw [Outcome.written_pure, List.append_nil, Outcome.result_pure]

/-- The prompt lists the statements, then its report on the defects. -/
theorem listProgram_eq (hdepth : run.program.depth ≤ m.textDepth) :
    listProgram m source =
      ⟨remarks run.defects ++
        said (run.statements.map Node.text ++ report (run.defects.map Defect.text)), .ok ()⟩ := by
  have hstatements : (forM run.statements fun s : Node => do
      let text ← Outcome.require .tooDeep (s.text? m.textDepth)
      Outcome.say text) = ⟨said (run.statements.map Node.text), .ok ()⟩ := by
    rw [← Outcome.forM_say]
    apply Outcome.forM_congr
    intro s hs
    -- no statement is deeper than the program
    have hle : s.depth ≤ m.textDepth := Node.depthOfAll_le_iff.mp hdepth s hs
    have htext : s.text? m.textDepth = some s.text := if_pos hle
    rw [htext]
    rfl
  have hreport : (unless run.defects.isEmpty do
      Outcome.say "[error] >>> parser errors:"
      forM run.defects fun d : Defect => Outcome.say s!"\t{d.text}") =
        ⟨said (report (run.defects.map Defect.text)), .ok ()⟩ := by
    have hdefects : (forM run.defects fun d => Outcome.say s!"\t{d.text}") =
        ⟨said (run.defects.map fun d => "\t" ++ d.text), .ok ()⟩ := Outcome.forM_say _ _
    -- a heading is written just where the report has one
    unfold report
    rw [hdefects, List.isEmpty_map, List.map_map]
    split <;> rfl
  unfold listProgram
  rw [readProgram_eq hrun hoversized, Outcome.bind_of_ok rfl, hstatements, Outcome.bind_of_ok rfl,
    hreport, said_append]

theorem out_listProgram (hdepth : run.program.depth ≤ m.textDepth) : (listProgram m source).out =
    unlines (run.statements.map Node.text ++ report (run.defects.map Defect.text)) := by
  rw [listProgram_eq hrun hoversized hdepth, Outcome.out, List.map_append, String.join_append,
    join_toOut_remarks, join_toOut_said, String.empty_append]

variable {render? : Program → Option String} {text : String}
  (hrender : render? run.program = some text)

include hrender

/-- A request writes the text of the program, then its defects; the status tells whether there are
any. -/
theorem presentProgram_eq : presentProgram m render? source =
    ⟨remarks run.defects ++ summary run :: .out (text ++ "\n") ::
        complained ((run.defects.map Defect.text).map ("error: " ++ ·)),
      .ok (if run.defects.isEmpty then 0 else 1)⟩ := by
  have hcomplaints : (forM run.defects fun d => Outcome.complain s!"error: {d.text}") =
      ⟨complained ((run.defects.map Defect.text).map ("error: " ++ ·)), .ok ()⟩ := by
    rw [List.map_map]
    exact Outcome.forM_complain _ _
  have hrequire : Outcome.require .tooDeep (some text) = pure text := rfl
  unfold presentProgram
  rw [readProgram_eq hrun hoversized, Outcome.bind_of_ok rfl, hrender, hcomplaints, hrequire]
  rw [Outcome.note, Outcome.write_bind, Outcome.pure_bind, Outcome.say, Outcome.write_bind,
    Outcome.bind_of_ok (o := ⟨complained _, _⟩) rfl, Outcome.written_pure, List.append_nil]
  rfl

theorem result_presentProgram : (presentProgram m render? source).result =
    .ok (if (run.defects.map Defect.text).isEmpty then 0 else 1) := by
  rw [presentProgram_eq hrun hoversized hrender, List.isEmpty_map]

theorem out_presentProgram : (presentProgram m render? source).out = text ++ "\n" := by
  rw [presentProgram_eq hrun hoversized hrender, Outcome.out, List.map_append, String.join_append,
    join_toOut_remarks, List.map_cons, List.map_cons, String.join_cons, String.join_cons,
    join_toOut_complained]
  simp [toOut, summary, remark]

/-- What a request writes to standard error does not depend on how it writes out the program. -/
theorem err_presentProgram (verbose : Bool) : (presentProgram m render? source).err verbose =
    String.join ((remarks run.defects).map (toErr verbose)) ++ toErr verbose (summary run) ++
      unlines ((run.defects.map Defect.text).map ("error: " ++ ·)) := by
  have hout : toErr verbose (.out (text ++ "\n")) = "" := rfl
  rw [presentProgram_eq hrun hoversized hrender, Outcome.err, List.map_append, String.join_append,
    List.map_cons, List.map_cons, String.join_cons, String.join_cons, join_toErr_complained, hout,
    String.empty_append, String.append_assoc]

theorem err_presentProgram_quiet : (presentProgram m render? source).err false =
    unlines ((run.defects.map Defect.text).map ("error: " ++ ·)) := by
  have hsummary : toErr false (summary run) = "" := rfl
  rw [err_presentProgram hrun hoversized hrender, join_toErr_remarks, hsummary, String.empty_append,
    String.empty_append]

end

end MonkeySyntax
