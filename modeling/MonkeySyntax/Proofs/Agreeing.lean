import MonkeySyntax.Proofs.Presenting
import MonkeySyntax.Proofs.Wording

namespace MonkeySyntax

theorem onOneLine_reportHeading : OnOneLine reportHeading := by decide

theorem onOneLine_error : OnOneLine "error: " := by decide

theorem not_isCanonical_reportHeading : ¬IsCanonical reportHeading := by decide

/-- A report has its heading just if there is something to report: no statement is worded like it,
for a square bracket stands in no canonical text. -/
theorem reportHeading_mem_iff {ls es : List String} (hls : ∀ l ∈ ls, IsCanonical l) :
    reportHeading ∈ ls ++ report es ↔ es ≠ [] := by
  cases es with
  | nil =>
    have hnot : reportHeading ∉ ls := fun hmem => not_isCanonical_reportHeading (hls _ hmem)
    simpa [report] using hnot
  | cons e es => simp [report]

theorem status_eq_one_iff (es : List String) :
    (.ok (if es.isEmpty then 0 else 1) : Except Failure Nat) = .ok 1 ↔ es ≠ [] := by
  cases es <;> simp

theorem onOneLine_of_mem_report {es : List String} (hes : ∀ e ∈ es, OnOneLine e) {l : String}
    (hl : l ∈ report es) : OnOneLine l := by
  unfold report at hl
  split at hl
  · cases hl
  · rcases List.mem_cons.mp hl with rfl | hmem
    · exact onOneLine_reportHeading
    · obtain ⟨e, he, rfl⟩ := List.mem_map.mp hmem
      exact onOneLine_tab.append (hes e he)

theorem isCanonical_of_mem_texts {limit : Nat} {source l : String}
    (hl : l ∈ (parseWithin limit source).statements.map Node.text) : IsCanonical l := by
  obtain ⟨s, hs, rfl⟩ := List.mem_map.mp hl
  exact isCanonical_of_mem_statements hs

theorem onOneLine_of_mem_texts {limit : Nat} {source e : String}
    (he : e ∈ (parseWithin limit source).defects.map Defect.text) : OnOneLine e := by
  obtain ⟨d, hd, rfl⟩ := List.mem_map.mp he
  exact (allPrintable_of_mem_defects hd).onOneLine

section

variable {m : Machine} {source : String} {run : Run} (hrun : parseWithin m.nesting source = run)
  (hoversized : run.oversized = none)

include hrun hoversized

/-- The prompt lists each statement on a line, and reports each defect on one. -/
theorem textLines_listProgram (hdepth : run.program.depth ≤ m.textDepth) :
    textLines (listProgram m source).out =
      run.statements.map Node.text ++ report (run.defects.map Defect.text) := by
  rw [out_listProgram hrun hoversized hdepth]
  subst hrun
  apply textLines_unlines
  intro l hl
  rcases List.mem_append.mp hl with hstatement | hreport
  · exact (isCanonical_of_mem_texts hstatement).allPrintable.onOneLine
  · exact onOneLine_of_mem_report (fun e he => onOneLine_of_mem_texts he) hreport

/-- A request for text writes each statement on a line. If there is none, it writes an empty one. -/
theorem out_presentText (hdepth : run.program.depth ≤ m.textDepth)
    (hne : run.statements.map Node.text ≠ []) :
    (presentProgram m (fun p => p.text? m.textDepth) source).out =
      unlines (run.statements.map Node.text) := by
  have htext : run.program.text? m.textDepth = some run.program.text := if_pos hdepth
  calc (presentProgram m (fun p => p.text? m.textDepth) source).out
      = run.program.text ++ "\n" := out_presentProgram hrun hoversized htext
    _ = "\n".intercalate (run.statements.map Node.text) ++ "\n" := by
        rw [Program.text, Node.texts_eq_map]
        rfl
    _ = unlines (run.statements.map Node.text) := intercalate_append_newline hne

/-- A request reports each defect on a line. -/
theorem textLines_err_presentProgram {render? : Program → Option String} {text : String}
    (hrender : render? run.program = some text) :
    textLines ((presentProgram m render? source).err false) =
      (run.defects.map Defect.text).map ("error: " ++ ·) := by
  rw [err_presentProgram_quiet hrun hoversized hrender]
  subst hrun
  apply textLines_unlines
  intro l hl
  obtain ⟨e, he, rfl⟩ := List.mem_map.mp hl
  exact onOneLine_error.append (onOneLine_of_mem_texts he)

end

/-- On any machine a text is presented alike by requests and by the prompt, if no integer has more
digits than are converted and the program is no deeper than can be written. Statements are worded in
plain characters; where there are some, a request for text writes the very lines that the prompt
lists in front of its report. Both report the same defects in the same order, a line each, and the
status of the request is one just if the prompt heads a report. A request for a document ends like
one for text and writes the same to standard error. -/
theorem shells_agree (m : Machine) (files : Files) (source : String)
    (hdigits : ∀ t ∈ tokenize source, t.kind = .int → t.literal.toList.length ≤ maxDigits)
    (htextDepth : (parseWithin m.nesting source).program.depth ≤ m.textDepth)
    (hdocumentDepth : (parseWithin m.nesting source).program.depth ≤ m.documentDepth) :
    let ls := (parseWithin m.nesting source).statements.map Node.text
    let es := (parseWithin m.nesting source).defects.map Defect.text
    let asText := Request.run m files ⟨source, true, .text⟩
    let asJson := Request.run m files ⟨source, true, .json⟩
    let prompt := listProgram m source
    (∀ l ∈ ls, ∀ c ∈ l.toList, 0x20 ≤ c.toNat ∧ c.toNat < 0x7F) ∧
      (prompt.result = .ok () ∧ textLines prompt.out = ls ++ report es) ∧
      (ls ≠ [] → textLines asText.out = ls ∧ prompt.out = asText.out ++ unlines (report es)) ∧
      textLines (asText.err false) = es.map ("error: " ++ ·) ∧
      asText.result = .ok (if es.isEmpty then 0 else 1) ∧
      (asText.result = .ok 1 ↔ reportHeading ∈ textLines prompt.out) ∧
      asJson.result = asText.result ∧
      ∀ verbose, asJson.err verbose = asText.err verbose := by
  intro ls es asText asJson prompt
  -- all of it is about one run, which both shells read
  obtain ⟨run, hrun⟩ : ∃ run, parseWithin m.nesting source = run := ⟨_, rfl⟩
  have hoversized : run.oversized = none :=
    hrun ▸ oversized_eq_none fun t ht => hdigits t (List.mem_append_left _ ht)
  rw [hrun] at htextDepth hdocumentDepth
  have htext : run.program.text? m.textDepth = some run.program.text := if_pos htextDepth
  have hdocument : (run.program.document? m.documentDepth).map Json.pretty =
      some run.program.document.pretty := congrArg _ (if_pos hdocumentDepth)
  have hrunText : asText = presentProgram m (fun p => p.text? m.textDepth) source :=
    run_text m files source
  have hrunJson : asJson =
      presentProgram m (fun p => (p.document? m.documentDepth).map Json.pretty) source :=
    run_json m files source
  have hls : ∀ l ∈ ls, IsCanonical l := fun l hl => isCanonical_of_mem_texts hl
  have hlines : textLines prompt.out = ls ++ report es := by
    unfold ls es
    rw [hrun]
    exact textLines_listProgram hrun hoversized htextDepth
  have hresult : asText.result = .ok (if es.isEmpty then 0 else 1) := by
    unfold es
    rw [hrun, hrunText]
    exact result_presentProgram hrun hoversized htext
  refine ⟨?_, ⟨?_, hlines⟩, ?_, ?_, hresult, ?_, ?_, ?_⟩
  · intro l hl c hc
    exact isCanonical_bounds (hls l hl c hc)
  · unfold prompt
    rw [listProgram_eq hrun hoversized htextDepth]
  · -- the lines of a request are the ones that the prompt writes first
    intro hne
    have hwritten : asText.out = unlines ls := by
      unfold ls at hne ⊢
      rw [hrun] at hne ⊢
      rw [hrunText]
      exact out_presentText hrun hoversized htextDepth hne
    have hprompt : prompt.out = unlines (ls ++ report es) := by
      unfold ls es
      rw [hrun]
      exact out_listProgram hrun hoversized htextDepth
    refine ⟨?_, ?_⟩
    · rw [hwritten]
      apply textLines_unlines
      intro l hl
      exact (hls l hl).allPrintable.onOneLine
    · rw [hprompt, hwritten, unlines_append]
  · unfold es
    rw [hrun, hrunText]
    exact textLines_err_presentProgram hrun hoversized htext
  · rw [hresult, hlines, reportHeading_mem_iff hls]
    exact status_eq_one_iff es
  · unfold es at hresult
    rw [hrun] at hresult
    rw [hresult, hrunJson]
    exact result_presentProgram hrun hoversized hdocument
  · -- what is written to standard error does not depend on how the program is written out
    intro verbose
    rw [hrunText, hrunJson, err_presentProgram hrun hoversized hdocument,
      err_presentProgram hrun hoversized htext]

/-- Three statements and two defects, the first one at a character that fits no rule. -/
theorem shells_agree_of_two :
    let m : Machine := ⟨20, 9, 7, fun _ f => f.text⟩
    let files : Files := fun _ => .error ⟨2, "No such file or directory"⟩
    let source := "let a = 5; \u00e9\n-a + b; let b 1"
    (∀ t ∈ tokenize source, t.kind = .int → t.literal.toList.length ≤ maxDigits) ∧
      (parseWithin m.nesting source).program.depth ≤ m.textDepth ∧
      (parseWithin m.nesting source).program.depth ≤ m.documentDepth ∧
      textLines (Request.run m files ⟨source, true, .text⟩).out =
        ["let a = 5;", "((-a) + b)", "1"] ∧
      textLines (listProgram m source).out = ["let a = 5;", "((-a) + b)", "1",
        "[error] >>> parser errors:",
        "\tno prefix parse function for ILLEGAL ('\u00e9') found (line 1, col 12)",
        "\texpected next token to be ASSIGN, got '1' instead (line 2, col 15)"] ∧
      (Request.run m files ⟨source, true, .text⟩).result = .ok 1 ∧
      (Request.run m files ⟨source, true, .json⟩).result = .ok 1 := by
  intro m files source
  have hdigits : ∀ t ∈ tokenize source, t.kind = .int →
      t.literal.toList.length ≤ maxDigits := by decide +kernel
  have htextDepth : (parseWithin m.nesting source).program.depth ≤ m.textDepth := by decide +kernel
  have hdocumentDepth : (parseWithin m.nesting source).program.depth ≤ m.documentDepth := by
    decide +kernel
  have htexts : (parseWithin m.nesting source).statements.map Node.text =
      ["let a = 5;", "((-a) + b)", "1"] := by decide +kernel
  have hdefects : (parseWithin m.nesting source).defects.map Defect.text =
      ["no prefix parse function for ILLEGAL ('\u00e9') found (line 1, col 12)",
        "expected next token to be ASSIGN, got '1' instead (line 2, col 15)"] := by
    decide +kernel
  obtain ⟨-, ⟨-, hprompt⟩, hwritten, -, htext, -, hjson, -⟩ :=
    shells_agree m files source hdigits htextDepth hdocumentDepth
  rw [htexts] at hwritten
  rw [htexts, hdefects] at hprompt
  rw [hdefects] at htext
  exact ⟨hdigits, htextDepth, hdocumentDepth, (hwritten (List.cons_ne_nil _ _)).1, hprompt, htext,
    hjson.trans htext⟩

end MonkeySyntax
