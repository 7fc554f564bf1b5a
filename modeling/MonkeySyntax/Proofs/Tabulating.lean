import MonkeySyntax.Proofs.Lines
import MonkeySyntax.Shell.Batch

namespace MonkeySyntax

namespace Token

/-- The token that a line of a listing shows, if it shows one. -/
def ofLine? (line : String) : Option Token :=
  match line.toList.splitOn '\t' with
  | [place, name, literal] =>
    match place.splitOn ':', Kind.ofName? (String.ofList name) with
    | [l, c], some k => some ⟨k, unquoted (String.ofList literal), wholeValue l, wholeValue c⟩
    | _, _ => none
  | _ => none

end Token

def placeText (p : Position) : String :=
  toString p.line ++ ":" ++ toString p.column

theorem tokenLine_eq (t : Token) : tokenLine t =
    placeText t.position ++ "\t" ++ t.kind.name ++ "\t" ++ quoted t.literal := rfl

theorem allPrintable_placeText (p : Position) : AllPrintable (placeText p) := by
  have hcolon : AllPrintable ":" := by decide +kernel
  apply MadeOf.append
  · exact (allPrintable_toString p.line).append hcolon
  · exact allPrintable_toString p.column

theorem AllPrintable.not_mem_tab {s : String} (h : AllPrintable s) : '\t' ∉ s.toList := by
  intro hmem
  have htab : isPrintable '\t' := h _ hmem
  contradiction

theorem onOneLine_tokenLine (t : Token) : OnOneLine (tokenLine t) := by
  have hplace := (allPrintable_placeText t.position).onOneLine
  have hname := t.kind.allPrintable_name.onOneLine
  have hliteral := (allPrintable_quoted t.literal).onOneLine
  have hfront := (hplace.append onOneLine_tab).append hname
  exact (hfront.append onOneLine_tab).append hliteral

/-- A line of the listing is three pieces with tabs between them. -/
theorem toList_tokenLine (t : Token) : (tokenLine t).toList = ['\t'].intercalate
    [(placeText t.position).toList, t.kind.name.toList, (quoted t.literal).toList] := by
  have htab : "\t".toList = ['\t'] := rfl
  rw [tokenLine_eq]
  simp only [String.toList_append, htab, List.intercalate_cons_cons, List.intercalate_singleton,
    List.append_assoc]

theorem count_tab_tokenLine (t : Token) : (tokenLine t).toList.count '\t' = 2 := by
  have hplace := List.count_eq_zero.mpr (allPrintable_placeText t.position).not_mem_tab
  have hname := List.count_eq_zero.mpr t.kind.allPrintable_name.not_mem_tab
  have hliteral := List.count_eq_zero.mpr (allPrintable_quoted t.literal).not_mem_tab
  calc (tokenLine t).toList.count '\t'
      = (placeText t.position).toList.count '\t' + 1 + t.kind.name.toList.count '\t' + 1 +
          (quoted t.literal).toList.count '\t' := by
        rw [tokenLine_eq]
        simp only [String.toList_append, List.count_append]
        rfl
    _ = 2 := by rw [hplace, hname, hliteral]

/-- The two numbers of a place are told apart, for neither holds a colon. -/
theorem splitOn_placeText (p : Position) :
    (placeText p).toList.splitOn ':' = [(toString p.line).toList, (toString p.column).toList] := by
  have hcolon (n : Int) : ':' ∉ (toString n).toList := by
    intro hmem
    rcases eq_minus_or_isDigit hmem with heq | hdigit
    · exact absurd heq (by decide)
    · exact absurd hdigit (by decide)
  have hpieces : (placeText p).toList =
      [':'].intercalate [(toString p.line).toList, (toString p.column).toList] := by
    have hone : ":".toList = [':'] := rfl
    rw [placeText]
    simp only [String.toList_append, hone, List.intercalate_cons_cons, List.intercalate_singleton]
  rw [hpieces]
  apply List.splitOn_intercalate
  · intro l hl
    simp only [List.mem_cons, List.not_mem_nil, or_false] at hl
    rcases hl with rfl | rfl
    · exact hcolon p.line
    · exact hcolon p.column
  · exact List.cons_ne_nil _ _

/-- A token is read back from its line. -/
theorem Token.ofLine?_tokenLine (t : Token) : ofLine? (tokenLine t) = some t := by
  have hsplit : (tokenLine t).toList.splitOn '\t' =
      [(placeText t.position).toList, t.kind.name.toList, (quoted t.literal).toList] := by
    -- the pieces come apart at the two tabs between them, for none of them holds another one
    rw [toList_tokenLine]
    apply List.splitOn_intercalate
    · intro l hl
      simp only [List.mem_cons, List.not_mem_nil, or_false] at hl
      rcases hl with rfl | rfl | rfl
      · exact (allPrintable_placeText t.position).not_mem_tab
      · exact t.kind.allPrintable_name.not_mem_tab
      · exact (allPrintable_quoted t.literal).not_mem_tab
    · exact List.cons_ne_nil _ _
  simp only [ofLine?, hsplit, splitOn_placeText, String.ofList_toList, Kind.ofName?_name,
    unquoted_quoted, wholeValue_toString]

theorem mapM_ofLine?_tokenLine (ts : List Token) :
    (ts.map tokenLine).mapM Token.ofLine? = some ts := by
  induction ts with
  | nil => rfl
  | cons t ts ih =>
    rw [List.map_cons, List.mapM_cons, Token.ofLine?_tokenLine, ih]
    rfl

/-- What writing out the tokens of a text comes to. -/
theorem presentTokens_eq (source : String) :
    presentTokens source = ⟨Piece.said ((tokenize source).map tokenLine), .ok 0⟩ := by
  rw [presentTokens, Outcome.forM_say, Outcome.bind_of_ok rfl, Outcome.written_pure,
    List.append_nil, Outcome.result_pure]

/-- A text that is written out as its tokens ends with the status zero and gives one line for each
token, with two tabs in it, and the tokens can be read back from the lines; so texts with the same
listing have the same tokens. -/
theorem run_tokens_decodable (m : Machine) (files : Files) (json : Bool) (source : String) :
    let shown := fun s => Request.run m files ⟨s, true, .ofFlags true json⟩
    (shown source).result = .ok 0 ∧
      textLines (shown source).out = (tokenize source).map tokenLine ∧
      (∀ l ∈ textLines (shown source).out, l.toList.count '\t' = 2) ∧
      (textLines (shown source).out).mapM Token.ofLine? = some (tokenize source) ∧
      ∀ other, (shown other).out = (shown source).out → tokenize other = tokenize source := by
  intro shown
  have hrun (s : String) : shown s = presentTokens s := rfl
  have hlines (s : String) : textLines (shown s).out = (tokenize s).map tokenLine := by
    rw [hrun, presentTokens_eq, Outcome.out, Piece.join_toOut_said]
    apply textLines_unlines
    intro l hl
    obtain ⟨t, -, rfl⟩ := List.mem_map.mp hl
    exact onOneLine_tokenLine t
  have hread (s : String) : (textLines (shown s).out).mapM Token.ofLine? = some (tokenize s) := by
    rw [hlines, mapM_ofLine?_tokenLine]
  refine ⟨?_, hlines source, ?_, hread source, ?_⟩
  · rw [hrun, presentTokens_eq]
  · intro l hl
    rw [hlines] at hl
    obtain ⟨t, -, rfl⟩ := List.mem_map.mp hl
    exact count_tab_tokenLine t
  · -- equal listings are read back as the same tokens
    intro other heq
    apply Option.some.inj
    calc some (tokenize other)
        = (textLines (shown other).out).mapM Token.ofLine? := (hread other).symm
      _ = (textLines (shown source).out).mapM Token.ofLine? := by rw [heq]
      _ = some (tokenize source) := hread source

end MonkeySyntax
