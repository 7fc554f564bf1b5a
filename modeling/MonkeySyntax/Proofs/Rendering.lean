import MonkeySyntax.Proofs.Presenting

namespace MonkeySyntax

open Production

def sumTail (n : Nat) : List Char :=
  (List.replicate n ['+', '1']).flatten

def sumText (n : Nat) : String :=
  String.ofList ('1' :: sumTail n)

def oneAt (p : Position) : Token := ⟨.int, "1", p⟩

def sumTokens (p : Position) : Nat → List Token
  | 0 => []
  | n + 1 => ⟨.plus, "+", p⟩ :: oneAt (p.next '+') :: sumTokens ((p.next '+').next '1') n

/-- The tree of a sum that goes on at `p` behind `left`. -/
def sumTree (p : Position) (left : Node) : Nat → Node
  | 0 => left
  | n + 1 => sumTree ((p.next '+').next '1')
    (.binary ⟨.plus, "+", p⟩ left "+" (.integer (oneAt (p.next '+')) 1)) n

/-- Each operator of a sum puts one level on top of what stands to its left. -/
theorem depth_sumTree (p : Position) {left : Node} (hleft : 1 ≤ left.depth) (n : Nat) :
    (sumTree p left n).depth = left.depth + n := by
  induction n generalizing p left with
  | zero => rfl
  | succ n ih =>
    have hdepth : (Node.binary ⟨.plus, "+", p⟩ left "+" (.integer (oneAt (p.next '+')) 1)).depth =
        left.depth + 1 :=
      congrArg (· + 1) (Nat.max_eq_left hleft)
    rw [sumTree, ih _ (by omega), hdepth]
    omega

theorem boundary_sumTail (n : Nat) : Boundary (sumTail n) := by
  cases n with
  | zero => exact boundary_nil
  | succ n => exact boundary_cons (by decide) _

/-- A one is cut off in front of the rest of a sum. -/
theorem Cuts.one {p q : Position} {n : Nat} {us : List Token} {ds : List Char}
    (h : Cuts (p.next '1') (sumTail n) us q ds) :
    Cuts p ('1' :: sumTail n) (oneAt p :: us) q ds := by
  have hdigits : ∀ c ∈ ['1'], c.isDigit := List.forall_mem_singleton.2 rfl
  have hlexeme := lexeme_of_lexical (Lexical.numeral (List.cons_ne_nil '1' []) hdigits) (by decide)
    (boundary_sumTail n)
  exact Cuts.of_lexeme hlexeme h

theorem cuts_sumTail (p : Position) (n : Nat) :
    Cuts p (sumTail n) (sumTokens p n) (p.past (sumTail n)) [] := by
  induction n generalizing p with
  | zero => exact Cuts.refl p []
  | succ n ih =>
    have hplus : Kind.ofSymbol? (String.ofList ['+']) = some .plus := by decide
    have hrest : ('1' :: sumTail n).head? ≠ some '=' := by simp
    exact Cuts.mark hplus hrest (Cuts.one (ih _))

theorem rest_sumText (n : Nat) : (Cursor.ofString (sumText n)).rest =
    oneAt .start :: sumTokens (Position.start.next '1') n := by
  have hcut := Cuts.one (cuts_sumTail (Position.start.next '1') n)
  unfold Cuts at hcut
  change (lex .start (sumText n).toList).tokens = _
  rw [sumText, String.toList_ofList, hcut, lex]
  exact List.append_nil _

namespace Production

variable {limit : Nat} {c : Cursor} {p q : Position} {n : Nat}

theorem isNumeral_oneAt (p : Position) : (oneAt p).IsNumeral := by
  have hne : "1".toList ≠ [] := by decide
  have hdigits : ∀ c ∈ "1".toList, c.isDigit := List.all_eq_true.1 (by decide)
  have hlength : "1".toList.length ≤ maxDigits := by decide
  exact ⟨hne, hdigits, hlength⟩

theorem operand_one {sub : Nat → Production Node} (hc : c.current = oneAt p) :
    operand sub .standard c = .ok (.integer (oneAt p) 1) c := by
  have hvalue : decimalValue "1".toList = 1 := by decide
  have hnumeral : c.current.IsNumeral := hc ▸ isNumeral_oneAt p
  have hliteral : c.current.literal.toList = "1".toList := by rw [hc, oneAt]
  have hkind : c.current.kind = .int := by rw [hc, oneAt]
  have hinteger := integer_eq_of_isNumeral hnumeral (by rw [hliteral, hvalue]; decide)
  rw [hliteral, hvalue, hc] at hinteger
  rw [operand_eq, hkind, if_pos (by decide)]
  exact hinteger

theorem kind_sumTokens (p : Position) (n : Nat) :
    nextKind (sumTokens p n) = .eof ∨ nextKind (sumTokens p n) = .plus := by
  cases n with
  | zero => exact Or.inl rfl
  | succ n => exact Or.inr rfl

/-- The right operand of a sum ends where the next plus stands. -/
theorem within_one (hc : c.current = oneAt p) (hrest : c.rest.tail = sumTokens q n) :
    within (limit + 1) Precedence.sum.level c = .ok (.integer (oneAt p) 1) c := by
  have hstop : ¬Precedence.sum.level < c.peek.kind.precedence.level := by
    rw [kind_peek, hrest]
    rcases kind_sumTokens q n with hkind | hkind <;> rw [hkind] <;> decide
  have hcontinuation : continuation (within limit) .standard Precedence.sum.level
      (.integer (oneAt p) 1) c = .ok none c := by
    rw [continuation_eq, if_neg fun h => hstop h.2.1]
  exact (bind_of_ok (operand_one hc)).trans (iterate_of_none hcontinuation)

/-- What stands behind a sum continues it no further. -/
theorem continuation_none {sub : Nat → Production Node} {level : Nat} {left : Node}
    (hlevel : c.peek.kind.precedence.level ≤ level) :
    continuation sub .standard level left c = .ok none c := by
  rw [continuation_eq, if_neg fun h => Nat.not_lt.2 hlevel h.2.1]

theorem continuation_plus {left : Node} (hrest : c.rest.tail = sumTokens p (n + 1)) :
    continuation (within (limit + 1)) .standard Precedence.lowest.level left c =
      .ok (some (.binary ⟨.plus, "+", p⟩ left "+" (.integer (oneAt (p.next '+')) 1)))
        c.advance.advance := by
  have hpeek : c.peek = ⟨.plus, "+", p⟩ := by
    unfold Cursor.peek
    rw [hrest]
    rfl
  have hcurrent : c.advance.current = ⟨.plus, "+", p⟩ := by
    unfold Cursor.current
    change c.rest.tail.headD _ = _
    rw [hrest]
    rfl
  have hone : c.advance.advance.current = oneAt (p.next '+') := by
    unfold Cursor.current
    change c.rest.tail.tail.headD _ = _
    rw [hrest]
    rfl
  have hbehind : c.advance.advance.rest.tail = sumTokens ((p.next '+').next '1') n := by
    change c.rest.tail.tail.tail = _
    rw [hrest]
    rfl
  have hcond : c.peek.kind ≠ .semicolon ∧
      Precedence.lowest.level < c.peek.kind.precedence.level ∧
        c.peek.kind ∈ Rules.standard.operatorKinds := by
    have hkind : c.peek.kind = .plus := by rw [hpeek]
    rw [hkind]
    decide
  rw [continuation_eq, if_pos hcond, hpeek, if_neg Kind.noConfusion]
  refine bind_of_ok ?_
  unfold binary
  rw [current_bind, advance_bind, hcurrent]
  exact bind_of_ok (within_one hone hbehind)

/-- The repetition that continues an operand takes a whole sum, however long it is. -/
theorem extend_sum {left : Node} (hrest : c.rest.tail = sumTokens p n) :
    ∃ d, extend (within (limit + 1)) .standard Precedence.lowest.level left c =
      .ok (sumTree p left n) d ∧ d.rest.tail = [] := by
  -- each step takes a plus and a one
  induction n generalizing c p left with
  | zero =>
    refine ⟨c, iterate_of_none (continuation_none ?_), hrest⟩
    rw [kind_peek, hrest]
    exact Nat.le_refl _
  | succ n ih =>
    have hlength : 2 ≤ c.rest.tail.length := by
      rw [hrest, sumTokens, List.length_cons, List.length_cons]
      omega
    have hlt : c.advance.advance.remaining < c.remaining := by
      rw [c.advance.advance.remaining_eq, c.remaining_eq]
      change c.rest.tail.tail.length < _
      rw [List.length_tail, List.length_tail] at *
      omega
    have hbehind : c.advance.advance.rest.tail = sumTokens ((p.next '+').next '1') n := by
      change c.rest.tail.tail.tail = _
      rw [hrest]
      rfl
    obtain ⟨d, hd, htail⟩ := ih hbehind
    exact ⟨d, (iterate_of_some (continuation_plus hrest) hlt).trans hd, htail⟩

end Production

def sumStatement (n : Nat) : Node :=
  .expressionStatement (oneAt .start)
    (sumTree (Position.start.next '1') (.integer (oneAt .start) 1) n)

/-- Two expressions inside each other are enough to read a sum of any length. -/
theorem statement_sum (limit n : Nat) :
    ∃ d, statementWithin .standard (limit + 2) (.ofString (sumText n)) = .ok (sumStatement n) d ∧
      d.rest.tail = [] := by
  have hrest := rest_sumText n
  have hcurrent : (Cursor.ofString (sumText n)).current = oneAt .start := by
    unfold Cursor.current
    rw [hrest]
    rfl
  have hbehind : (Cursor.ofString (sumText n)).rest.tail =
      sumTokens (Position.start.next '1') n := by
    rw [hrest]
    rfl
  obtain ⟨d, hexpression, htail⟩ : ∃ d,
      within (limit + 2) Precedence.lowest.level (.ofString (sumText n)) =
        .ok (sumTree (Position.start.next '1') (.integer (oneAt .start) 1) n) d ∧
      d.rest.tail = [] := by
    obtain ⟨d, hd, htail⟩ := extend_sum hbehind
    exact ⟨d, (bind_of_ok (operand_one hcurrent)).trans hd, htail⟩
  refine ⟨d, ?_, htail⟩
  change statement (within (limit + 2)) _ = _
  rw [statement_of_expression (by rw [hcurrent]; decide) (by rw [hcurrent]; decide)]
  unfold expressionStatement
  rw [current_bind, bind_of_ok hexpression, allow_return_eq, kind_peek, htail, if_neg (by decide),
    hcurrent]
  rfl

/-- A sum is read without a defect under every nesting limit from two on, however long it is. -/
theorem outcomes_sum (limit n : Nat) :
    (parseWithin (limit + 2) (sumText n)).outcomes = [.ok (sumStatement n)] ∧
      (parseWithin (limit + 2) (sumText n)).oversized = none := by
  obtain ⟨d, hd, htail⟩ := statement_sum limit n
  -- behind the one statement is the end of the text
  have hcurrent : (Cursor.ofString (sumText n)).current.kind ≠ .eof := by
    rw [kind_current, rest_sumText]
    exact Kind.noConfusion
  have heof : d.advance.current.kind = .eof := by
    rw [kind_current]
    change nextKind d.rest.tail = _
    rw [htail]
    rfl
  have hlt := ((forward_statementWithin .standard (limit + 2)).ok hd).advance_lt hcurrent
  have hrun := runFrom_of_ok hcurrent hd hlt
  rw [runFrom_of_eof heof] at hrun
  unfold parseWithin
  rw [hrun]
  exact ⟨rfl, rfl⟩

/-- Under every nesting limit from two on there are texts without a defect of any depth. -/
theorem clean_sum (limit n : Nat) : (parseWithin (limit + 2) (sumText n)).clean = true ∧
    (parseWithin (limit + 2) (sumText n)).program.depth = n + 2 := by
  obtain ⟨houtcomes, hoversized⟩ := outcomes_sum limit n
  have hstatements : (parseWithin (limit + 2) (sumText n)).statements = [sumStatement n] := by
    unfold Run.statements
    rw [houtcomes]
    rfl
  have hdefects : (parseWithin (limit + 2) (sumText n)).defects = [] := by
    unfold Run.defects
    rw [houtcomes]
    rfl
  refine ⟨Run.clean_iff.2 ⟨hdefects, hoversized⟩, ?_⟩
  have hone : 1 ≤ (Node.integer (oneAt .start) 1).depth := Nat.le_refl 1
  have hdepth : (sumStatement n).depth = 1 + n + 1 :=
    congrArg (· + 1) (depth_sumTree _ hone n)
  unfold Run.program Program.depth
  rw [hstatements, Node.depthOfAll, Node.depthOfAll, Nat.max_zero, hdepth]
  omega

section

variable {m : Machine} {source : String} {render? : Program → Option String}

theorem presentProgram_of_some {text : String} (h : (parseWithin m.nesting source).clean = true)
    (hrender : render? (parseWithin m.nesting source).program = some text) :
    (presentProgram m render? source).result = .ok 0 ∧
      (presentProgram m render? source).out = text ++ "\n" := by
  obtain ⟨hdefects, hoversized⟩ := Run.clean_iff.1 h
  refine ⟨?_, out_presentProgram rfl hoversized hrender⟩
  rw [presentProgram_eq rfl hoversized hrender, hdefects]
  rfl

theorem presentProgram_of_none (h : (parseWithin m.nesting source).clean = true)
    (hrender : render? (parseWithin m.nesting source).program = none) :
    (presentProgram m render? source).result = .error .tooDeep := by
  obtain ⟨-, hoversized⟩ := Run.clean_iff.1 h
  unfold presentProgram
  rw [readProgram_eq rfl hoversized, Outcome.bind_of_ok rfl, hrender]
  rfl

variable (files : Files)

theorem run_text_of_le (hclean : (parseWithin m.nesting source).clean = true)
    (hdepth : (parseWithin m.nesting source).program.depth ≤ m.textDepth) :
    (parseWithin m.nesting source).program.text? m.textDepth =
        some (parseWithin m.nesting source).program.text ∧
      (Request.run m files ⟨source, true, .text⟩).result = .ok 0 ∧
      (Request.run m files ⟨source, true, .text⟩).out =
        (parseWithin m.nesting source).program.text ++ "\n" := by
  have htext : (parseWithin m.nesting source).program.text? m.textDepth =
      some (parseWithin m.nesting source).program.text := if_pos hdepth
  rw [run_text]
  exact ⟨htext, presentProgram_of_some hclean htext⟩

theorem run_text_of_lt (hclean : (parseWithin m.nesting source).clean = true)
    (hdepth : m.textDepth < (parseWithin m.nesting source).program.depth) :
    (parseWithin m.nesting source).program.text? m.textDepth = none ∧
      (Request.run m files ⟨source, true, .text⟩).result = .error .tooDeep := by
  have htext : (parseWithin m.nesting source).program.text? m.textDepth = none :=
    if_neg (Nat.not_le.2 hdepth)
  rw [run_text]
  exact ⟨htext, presentProgram_of_none hclean htext⟩

theorem run_json_of_le (hclean : (parseWithin m.nesting source).clean = true)
    (hdepth : (parseWithin m.nesting source).program.depth ≤ m.documentDepth) :
    (parseWithin m.nesting source).program.document? m.documentDepth =
        some (parseWithin m.nesting source).program.document ∧
      (Request.run m files ⟨source, true, .json⟩).result = .ok 0 ∧
      (Request.run m files ⟨source, true, .json⟩).out =
        (parseWithin m.nesting source).program.document.pretty ++ "\n" := by
  have hdocument : (parseWithin m.nesting source).program.document? m.documentDepth =
      some (parseWithin m.nesting source).program.document := if_pos hdepth
  rw [run_json]
  exact ⟨hdocument, presentProgram_of_some hclean (by rw [hdocument]; rfl)⟩

theorem run_json_of_lt (hclean : (parseWithin m.nesting source).clean = true)
    (hdepth : m.documentDepth < (parseWithin m.nesting source).program.depth) :
    (parseWithin m.nesting source).program.document? m.documentDepth = none ∧
      (Request.run m files ⟨source, true, .json⟩).result = .error .tooDeep := by
  have hdocument : (parseWithin m.nesting source).program.document? m.documentDepth = none :=
    if_neg (Nat.not_le.2 hdepth)
  rw [run_json]
  exact ⟨hdocument, presentProgram_of_none hclean (by rw [hdocument]; rfl)⟩

end

/-- What is read is nested no more than the machine allows and is no deeper than its text is long.
Without a defect it is written out as text, with status zero, if it is no deeper than the machine
can write as text, and else there is neither a text nor a status; and so for documents. -/
theorem rendered_of_clean (m : Machine) (files : Files) (source : String)
    (hclean : (parseWithin m.nesting source).clean = true) :
    let p := (parseWithin m.nesting source).program
    let asText := Request.run m files ⟨source, true, .text⟩
    let asJson := Request.run m files ⟨source, true, .json⟩
    Node.nestingOfAll p.statements ≤ m.nesting ∧ p.depth ≤ (tokenize source).length ∧
      (p.depth ≤ m.textDepth → p.text? m.textDepth = some p.text ∧
        asText.result = .ok 0 ∧ asText.out = p.text ++ "\n") ∧
      (m.textDepth < p.depth → p.text? m.textDepth = none ∧ asText.result = .error .tooDeep) ∧
      (p.depth ≤ m.documentDepth → p.document? m.documentDepth = some p.document ∧
        asJson.result = .ok 0 ∧ asJson.out = p.document.pretty ++ "\n") ∧
      (m.documentDepth < p.depth →
        p.document? m.documentDepth = none ∧ asJson.result = .error .tooDeep) := by
  intro p asText asJson
  exact ⟨nesting_le_limit m.nesting source, depth_le_length m.nesting source,
    run_text_of_le files hclean, run_text_of_lt files hclean,
    run_json_of_le files hclean, run_json_of_lt files hclean⟩

/-- A program that can be written as text and is too deep to be written as a document. -/
theorem rendered_of_clean_function :
    let m : Machine := ⟨20, 9, 5, fun _ f => f.text⟩
    let files : Files := fun _ => .error ⟨2, "No such file or directory"⟩
    let source := "let f = fn(x) \x7b if (x) \x7b -x \x7d \x7d; f(1)(2)"
    (parseWithin m.nesting source).clean = true ∧
      (parseWithin m.nesting source).program.depth ≤ m.textDepth ∧
      m.documentDepth < (parseWithin m.nesting source).program.depth ∧
      (Request.run m files ⟨source, true, .text⟩).result = .ok 0 ∧
      (Request.run m files ⟨source, true, .text⟩).out =
        "let f = fn(x) \x7b if x \x7b (-x) \x7d \x7d;\nf(1)(2)\n" ∧
      (Request.run m files ⟨source, true, .json⟩).result = .error .tooDeep := by
  intro m files source
  have hclean : (parseWithin m.nesting source).clean = true := by decide +kernel
  have htextDepth : (parseWithin m.nesting source).program.depth ≤ m.textDepth := by decide +kernel
  have hdocumentDepth : m.documentDepth < (parseWithin m.nesting source).program.depth := by
    decide +kernel
  obtain ⟨-, -, hwithin, -, -, hbeyond⟩ := rendered_of_clean m files source hclean
  obtain ⟨-, hresult, hout⟩ := hwithin htextDepth
  refine ⟨hclean, htextDepth, hdocumentDepth, hresult, hout.trans ?_, (hbeyond hdocumentDepth).2⟩
  decide +kernel

/-- However deep a machine can write trees, there are sums without a defect that it can write
neither as text nor as documents, and no status tells so. -/
theorem sum_not_rendered (m : Machine) (hnesting : 2 ≤ m.nesting) (files : Files) {n : Nat}
    (htext : m.textDepth < n + 2) (hdocument : m.documentDepth < n + 2) :
    (parseWithin m.nesting (sumText n)).clean = true ∧
      (parseWithin m.nesting (sumText n)).program.depth = n + 2 ∧
      (parseWithin m.nesting (sumText n)).program.text? m.textDepth = none ∧
      (parseWithin m.nesting (sumText n)).program.document? m.documentDepth = none ∧
      (Request.run m files ⟨sumText n, true, .text⟩).result = .error .tooDeep ∧
      (Request.run m files ⟨sumText n, true, .json⟩).result = .error .tooDeep := by
  obtain ⟨limit, hlimit⟩ : ∃ limit, m.nesting = limit + 2 :=
    ⟨m.nesting - 2, (Nat.sub_add_cancel hnesting).symm⟩
  obtain ⟨hclean, hdepth⟩ := clean_sum limit n
  rw [← hlimit] at hclean hdepth
  rw [← hdepth] at htext hdocument
  obtain ⟨hnoText, htextResult⟩ := run_text_of_lt files hclean htext
  obtain ⟨hnoDocument, hjsonResult⟩ := run_json_of_lt files hclean hdocument
  exact ⟨hclean, hdepth, hnoText, hnoDocument, htextResult, hjsonResult⟩

/-- For example, one with 1600 operators, where trees of 1500 levels can be written. -/
theorem long_sum_not_rendered :
    let m : Machine := ⟨1500, 1500, 1500, fun _ f => f.text⟩
    let files : Files := fun _ => .error ⟨2, "No such file or directory"⟩
    let source := String.ofList ('1' :: (List.replicate 1600 ['+', '1']).flatten)
    (parseWithin m.nesting source).clean = true ∧
      (parseWithin m.nesting source).program.depth = 1602 ∧
      (parseWithin m.nesting source).program.text? m.textDepth = none ∧
      (parseWithin m.nesting source).program.document? m.documentDepth = none ∧
      (Request.run m files ⟨source, true, .text⟩).result = .error .tooDeep ∧
      (Request.run m files ⟨source, true, .json⟩).result = .error .tooDeep := by
  intro m files source
  have hsource : source = sumText 1600 := rfl
  rw [hsource]
  exact sum_not_rendered m (by decide) files (by decide) (by decide)

end MonkeySyntax
