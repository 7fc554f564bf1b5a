import MonkeySyntax.Proofs.Cutting
import MonkeySyntax.Proofs.Derivation
import MonkeySyntax.Proofs.Joining

namespace MonkeySyntax

open Production

/-- Either reading comes to the end of a text and records a defect if there is one, or an integer
literal has more digits than are converted. -/
theorem parseWithin_cases (limit : Nat) (source : String) :
    (parseWithin limit source).oversized = none ∧ (parseWithin limit source).cursor.rest = [] ∧
        (¬Derives .statements (tokenize source).dropLast →
          (parseWithin limit source).defects ≠ []) ∨
      ∃ t ∈ tokenize source, t.kind = .int ∧ maxDigits < t.literal.toList.length ∧
        (parseWithin limit source).oversized = some t.literal.toList.length := by
  have hforward := forward_statementWithin .standard limit
  cases hoversized : (parseWithin limit source).oversized with
  | none =>
    refine Or.inl ⟨rfl, ?_, fun hderives hdefects => hderives ?_⟩
    · have hsuffix := (reaches_runFrom hforward (.ofString source)).suffix
      refine (current_eq_eof_iff fun t ht => ?_).1 (eof_of_oversized_eq_none hforward hoversized)
      exact (isLexical_of_mem_lex (hsuffix.mem ht)).kind_ne_eof
    · rw [dropLast_tokenize]
      exact (spells_of_parse hdefects hoversized).derives
  | some n =>
    obtain ⟨t, ht, hkind, rfl, hlt⟩ := isAhead_of_oversized hforward hoversized n rfl
    exact Or.inr ⟨t, List.mem_append_left _ ht, hkind, hlt, rfl⟩

/-- A literal that is too long is met before its value is asked for, so it is no defect. -/
theorem integer_of_long {c : Cursor} (hdigits : ∀ x ∈ c.current.literal.toList, x.isDigit)
    (hlong : maxDigits < c.current.literal.toList.length) :
    integer c = .error (.oversizedLiteral c.current.literal.toList.length) c := by
  have hall : c.current.literal.toList.all Char.isDigit = true := List.all_eq_true.2 hdigits
  have hempty : c.current.literal.toList.isEmpty = false := by
    rw [List.isEmpty_eq_false_iff, ← List.length_pos_iff]
    exact Nat.lt_of_le_of_lt (Nat.zero_le _) hlong
  unfold integer
  rw [current_bind, hall, hempty, if_neg (by decide), if_pos hlong]
  rfl

/-- Too many digits put an end to reading, and nothing is recorded. -/
theorem runFrom_of_long (limit : Nat) {c : Cursor} (hkind : c.current.kind = .int)
    (hdigits : ∀ x ∈ c.current.literal.toList, x.isDigit)
    (hlong : maxDigits < c.current.literal.toList.length) :
    runFrom (statementWithin .standard (limit + 1)) c =
      ⟨[], c, some c.current.literal.toList.length⟩ := by
  have hoperand : operand (within limit) .standard c =
      .error (.oversizedLiteral c.current.literal.toList.length) c := by
    rw [operand_eq, hkind, if_pos (by decide)]
    exact integer_of_long hdigits hlong
  have hexpression (level : Nat) : within (limit + 1) level c =
      .error (.oversizedLiteral c.current.literal.toList.length) c := bind_of_error hoperand
  have hstatement : statementWithin .standard (limit + 1) c =
      .error (.oversizedLiteral c.current.literal.toList.length) c := by
    change statement (within (limit + 1)) c = _
    rw [statement_of_expression (by rw [hkind]; decide) (by rw [hkind]; decide)]
    unfold expressionStatement
    rw [current_bind]
    exact bind_of_error (hexpression _)
  rw [runFrom, if_neg (by rw [hkind]; decide), attempt, hstatement]

/-- A row of digits is a text of one token. -/
theorem rest_ofString_digits {cs : List Char} (hcs : cs ≠ []) (hdigits : ∀ c ∈ cs, c.isDigit) :
    (Cursor.ofString (String.ofList cs)).rest = [⟨.int, String.ofList cs, .start⟩] := by
  have hlexeme := lexeme_of_lexical (Lexical.numeral hcs hdigits) (by decide) boundary_nil
  have hcut := Cuts.of_lexeme hlexeme (Cuts.refl (Position.start.past cs) [])
  unfold Cuts at hcut
  rw [List.append_nil] at hcut
  rw [rest_ofString, String.toList_ofList, hcut, lex]
  rfl

/-- A number above the greatest value is not reported if it has too many digits. -/
theorem oversized_of_repeated_digit :
    maxInteger < decimalValue (List.replicate 4301 '1') ∧
      (parseWithin 500 (String.ofList (List.replicate 4301 '1'))).oversized = some 4301 ∧
      (parseWithin 500 (String.ofList (List.replicate 4301 '1'))).defects = [] := by
  let c := Cursor.ofString (String.ofList (List.replicate 4301 '1'))
  have hdigits : ∀ x ∈ List.replicate 4301 '1', x.isDigit := by
    intro x hx
    rw [List.eq_of_mem_replicate hx]
    decide
  have hrest : c.rest = [⟨.int, String.ofList (List.replicate 4301 '1'), .start⟩] :=
    rest_ofString_digits (List.cons_ne_nil '1' (List.replicate 4300 '1')) hdigits
  have hcurrent : c.current = ⟨.int, String.ofList (List.replicate 4301 '1'), .start⟩ := by
    unfold Cursor.current
    rw [hrest]
    rfl
  have hliteral : c.current.literal.toList = List.replicate 4301 '1' := by
    rw [hcurrent]
    exact String.toList_ofList
  have hrun := runFrom_of_long 499 (c := c) (by rw [hcurrent]) (by rw [hliteral]; exact hdigits)
    (by rw [hliteral, List.length_replicate]; decide)
  rw [hliteral, List.length_replicate] at hrun
  have hparse : parseWithin 500 (String.ofList (List.replicate 4301 '1')) = ⟨[], c, some 4301⟩ :=
    hrun
  rw [hparse]
  exact ⟨by decide +kernel, rfl, rfl⟩

end MonkeySyntax
