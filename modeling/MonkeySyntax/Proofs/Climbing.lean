import MonkeySyntax.Proofs.Forward
import MonkeySyntax.Tree.Text

namespace MonkeySyntax

namespace Production

section

variable {α : Type} {step step' : α → Production (Option α)} {a b : α} {c d : Cursor} {f : Fault}
  (hsame : ∀ a c, step a c = .ok none c ∨ step' a c = step a c)

include hsame

/-- Steps of one sort go on where those of another sort stop, if the two are the same as far as the
others go. -/
theorem iterate_of_stops (hstop : ∀ a c d, step a c = .ok none d → d = c)
    (hlt : ∀ a b c d, step a c = .ok (some b) d → d.remaining < c.remaining)
    (h : iterate step a c = .ok b d) : iterate step' a c = iterate step' b d := by
  -- both take the same steps up to where the first sort of them finds nothing
  fun_induction iterate step a c with
  | case1 a c f c' hfail => cases h
  | case2 a c c' hnone =>
    cases h
    rw [hstop b c d hnone]
  | case3 a c b' c' hsome hless ih =>
    have hgoes : step a c ≠ .ok none c := by
      rw [hsome]
      intro heq
      cases heq
    have hsome' : step' a c = .ok (some b') c' := ((hsame a c).resolve_left hgoes).trans hsome
    rw [iterate_of_some hsome' hless]
    exact ih h
  | case4 a c b' c' hsome hle => exact absurd (hlt a b' c c' hsome) hle

/-- Steps of one sort fail where those of another sort do, if the two are the same as far as the
others go. -/
theorem iterate_of_fails (h : iterate step a c = .error f d) : iterate step' a c = .error f d := by
  fun_induction iterate step a c with
  | case1 a c f' c' hfail =>
    cases h
    have hgoes : step a c ≠ .ok none c := by
      rw [hfail]
      intro heq
      cases heq
    have hfail' : step' a c = .error f d := ((hsame a c).resolve_left hgoes).trans hfail
    rw [iterate, hfail']
  | case2 a c c' hnone => cases h
  | case3 a c b' c' hsome hless ih =>
    have hgoes : step a c ≠ .ok none c := by
      rw [hsome]
      intro heq
      cases heq
    have hsome' : step' a c = .ok (some b') c' := ((hsame a c).resolve_left hgoes).trans hsome
    rw [iterate_of_some hsome' hless]
    exact ih h
  | case4 a c b' c' hsome hle => cases h

end

section

variable {sub : Nat → Production Node} {rules : Rules} {level p q : Nat} {left n : Node}
  {c d : Cursor}

/-- What continues an operand at a level continues it in the same way at a lower level. -/
theorem continuation_of_le (hqp : q ≤ p) (left : Node) (c : Cursor) :
    continuation sub rules p left c = .ok none c ∨
      continuation sub rules q left c = continuation sub rules p left c := by
  by_cases hcond : c.peek.kind ≠ .semicolon ∧ p < c.peek.kind.precedence.level ∧
      c.peek.kind ∈ rules.operatorKinds
  · have hcond' : c.peek.kind ≠ .semicolon ∧ q < c.peek.kind.precedence.level ∧
        c.peek.kind ∈ rules.operatorKinds :=
      ⟨hcond.1, Nat.lt_of_le_of_lt hqp hcond.2.1, hcond.2.2⟩
    rw [continuation_eq, continuation_eq, if_pos hcond, if_pos hcond']
    exact Or.inr rfl
  · rw [continuation_eq, if_neg hcond]
    exact Or.inl rfl

/-- A continuation uses up tokens if no expression is read where the text has ended. -/
theorem continuation_lt (hsub : ∀ level, Forward (sub level))
    (heof : ∀ {level c e d}, sub level c = .ok e d → c.current.kind ≠ .eof)
    (h : continuation sub rules level left c = .ok (some n) d) : d.remaining < c.remaining := by
  rw [continuation_eq] at h
  split at h
  · obtain ⟨m, c₁, hm, h⟩ := bind_eq_ok.1 h
    cases h
    have hreach : c.advance.Reaches d := by
      split at hm
      · exact (forward_call hsub left).ok hm
      · exact (forward_binary hsub left).ok hm
    -- behind the end of the text there is neither a parenthesis nor an operand
    have hrest : c.rest ≠ [] := by
      intro hnil
      have hpeek : c.peek.kind = .eof := by
        rw [kind_peek, hnil]
        rfl
      rw [if_neg (by rw [hpeek]; decide)] at hm
      unfold binary at hm
      rw [current_bind, advance_bind] at hm
      obtain ⟨r, c₂, hr, -⟩ := bind_eq_ok.1 hm
      refine heof hr ?_
      rw [kind_current]
      change nextKind c.rest.tail.tail = .eof
      rw [hnil]
      rfl
    have hle : d.remaining ≤ c.remaining - 1 := hreach.remaining_le
    have hpos : 0 < c.remaining := by
      rw [c.remaining_eq]
      exact List.length_pos_iff.2 hrest
    omega
  · cases h

end

section

variable {rules : Rules} {limit level p q : Nat} {e : Node} {c d : Cursor}

/-- No expression is read where the text has ended, whatever kinds of tokens may start one. -/
theorem current_ne_eof_of_expression (h : expression rules limit level c = .ok e d) :
    c.current.kind ≠ .eof := by
  intro heof
  cases limit with
  | zero => cases h
  | succ limit =>
    rw [expression_of_eof heof] at h
    cases h

/-- Where an expression has been read, the next token ends it. -/
theorem peek_of_expression (h : expression rules limit level c = .ok e d) :
    d.peek.kind = .semicolon ∨ d.peek.kind.precedence.level ≤ level ∨
      d.peek.kind ∉ rules.operatorKinds := by
  cases limit with
  | zero => cases h
  | succ limit =>
    obtain ⟨left, c₁, -, h⟩ := bind_eq_ok.1 h
    -- the repetition has come to a stop here, and it stops for one of the three reasons only
    obtain ⟨c₂, -, hstop⟩ := iterate_ok (fun _ _ => True)
      (fun _ _ _ _ _ hnext => ⟨continuation_lt (forward_expression rules limit)
        current_ne_eof_of_expression hnext, trivial⟩) trivial h
    obtain ⟨rfl, hpeek⟩ := continuation_of_none hstop
    exact hpeek

/-- Reading an expression at a level comes to the same as reading one at a higher level and going on
from there at the lower one: the same tree at the same place, or the same fault. Where an expression
has been read, the next token is a semicolon, or does not bind tighter than the level, or continues
nothing by the rules. -/
theorem expression_eq_extended (rules : Rules) (limit : Nat) {p q : Nat} (hqp : q ≤ p) :
    (expression rules (limit + 1) q = do
      let left ← expression rules (limit + 1) p
      extend (expression rules limit) rules q left) ∧
    ∀ {c d e}, expression rules (limit + 1) p c = .ok e d →
      d.peek.kind = .semicolon ∨ d.peek.kind.precedence.level ≤ p ∨
        d.peek.kind ∉ rules.operatorKinds := by
  refine ⟨funext fun c => ?_, peek_of_expression⟩
  have hsame (left : Node) (c : Cursor) :
      continuation (expression rules limit) rules p left c = .ok none c ∨
        continuation (expression rules limit) rules q left c =
          continuation (expression rules limit) rules p left c :=
    continuation_of_le hqp left c
  -- both levels begin with the same operand, so only the two repetitions behind it are compared
  cases hleft : operand (expression rules limit) rules c with
  | error f d =>
    have hp : expression rules (limit + 1) p c = .error f d := bind_of_error hleft
    have hq : expression rules (limit + 1) q c = .error f d := bind_of_error hleft
    rw [bind_of_error hp, hq]
  | ok left c₁ =>
    have hp : expression rules (limit + 1) p c =
        extend (expression rules limit) rules p left c₁ := bind_of_ok hleft
    have hq : expression rules (limit + 1) q c =
        extend (expression rules limit) rules q left c₁ := bind_of_ok hleft
    rw [hq]
    cases h : extend (expression rules limit) rules p left c₁ with
    | error f d =>
      rw [bind_of_error (hp.trans h)]
      exact iterate_of_fails hsame h
    | ok e d =>
      rw [bind_of_ok (hp.trans h)]
      exact iterate_of_stops hsame (fun _ _ _ hnone => (continuation_of_none hnone).1)
        (fun _ _ _ _ => continuation_lt (forward_expression rules limit)
          current_ne_eof_of_expression) h

end

def readText? : EStateM.Result Fault Cursor Node → Option (String × Kind)
  | .ok e d => some (e.text, d.peek.kind)
  | .error _ _ => none

/-- For example, by rules without sums: the first operand is read at the level of products, and the
product and the comparison behind it when that is continued at the lowest level. -/
theorem expression_eq_extended_of_comparison :
    let rules := Rules.standard.dropOperator .plus
    let c := Cursor.ofString "2 * -x < f(y) + 3"
    let first := expression rules 4 Precedence.product.level
    let second := fun e => extend (expression rules 3) rules Precedence.lowest.level e
    Precedence.lowest.level ≤ Precedence.product.level ∧
      expression rules 4 Precedence.lowest.level = first >>= second ∧
      readText? (first c) = some ("2", .asterisk) ∧
      readText? ((first >>= second) c) = some ("((2 * (-x)) < f(y))", .plus) ∧
      ∀ {d e}, first c = .ok e d → d.peek.kind = .semicolon ∨
        d.peek.kind.precedence.level ≤ Precedence.product.level ∨
          d.peek.kind ∉ rules.operatorKinds := by
  intro rules c first second
  have hlevel : Precedence.lowest.level ≤ Precedence.product.level := by decide
  obtain ⟨heq, hpeek⟩ := expression_eq_extended rules 3 hlevel
  have hextended : expression rules 4 Precedence.lowest.level = first >>= second := heq
  refine ⟨hlevel, hextended, by decide +kernel, ?_, hpeek⟩
  rw [← hextended]
  decide +kernel

end Production

end MonkeySyntax
