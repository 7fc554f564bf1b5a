import MonkeySyntax.Token.Reader

namespace MonkeySyntax

namespace Position

def Before (p q : Position) : Prop :=
  p.line < q.line ∨ p.line = q.line ∧ p.column < q.column

variable {p q r : Position}

theorem Before.trans (h : p.Before q) (h' : q.Before r) : p.Before r := by
  unfold Before at h h' ⊢
  omega

theorem not_before_self (p : Position) : ¬p.Before p := by
  unfold Before
  omega

theorem before_next (p : Position) (c : Char) : p.Before (p.next c) := by
  unfold Before next
  split
  · left
    exact Int.lt_add_one_iff.2 (Int.le_refl p.line)
  · right
    exact ⟨rfl, Int.lt_add_one_iff.2 (Int.le_refl p.column)⟩

theorem before_past {cs : List Char} (h : cs ≠ []) (p : Position) : p.Before (p.past cs) := by
  induction cs generalizing p with
  | nil => exact absurd rfl h
  | cons c cs ih =>
    rw [past_cons]
    by_cases hcs : cs = []
    · rw [hcs]
      exact before_next p c
    · exact (before_next p c).trans (ih hcs (p.next c))

end Position

section

variable {p : Position} {cs : List Char} {t : Token}

/-- No token stands in front of the place where its text starts. -/
theorem position_of_mem_lex (h : t ∈ (lex p cs).tokens) :
    t.position = p ∨ p.Before t.position := by
  fun_induction lex p cs with
  | case1 p => cases h
  | case2 p c cs hlayout ih =>
    rcases ih h with heq | hlt
    · rw [heq]
      exact Or.inr (p.before_next c)
    · exact Or.inr ((p.before_next c).trans hlt)
  | case3 p c cs hlayout l behind ih =>
    rcases List.mem_cons.1 h with rfl | h
    · exact Or.inl rfl
    have hlt : p.Before (p.past l.text) := Position.before_past (lexeme_split c cs).2 p
    rcases ih h with heq | hlt'
    · rw [heq]
      exact Or.inr hlt
    · exact Or.inr (hlt.trans hlt')

/-- The tokens of a text stand one behind the other. -/
theorem pairwise_before_lex (p : Position) (cs : List Char) :
    (lex p cs).tokens.Pairwise fun t u => t.position.Before u.position := by
  fun_induction lex p cs with
  | case1 p => exact List.Pairwise.nil
  | case2 p c cs hlayout ih => exact ih
  | case3 p c cs hlayout l behind ih =>
    refine List.pairwise_cons.2 ⟨fun u hu => ?_, ih⟩
    have hlt : p.Before (p.past l.text) := Position.before_past (lexeme_split c cs).2 p
    rcases position_of_mem_lex hu with heq | hlt'
    · rw [heq]
      exact hlt
    · exact hlt.trans hlt'

theorem nodup_lex (p : Position) (cs : List Char) : (lex p cs).tokens.Nodup := by
  apply (pairwise_before_lex p cs).imp
  rintro t u hlt rfl
  exact Position.not_before_self t.position hlt

/-- A text ends behind its characters. -/
theorem stop_lex (p : Position) (cs : List Char) : (lex p cs).stop = p.past cs := by
  fun_induction lex p cs with
  | case1 p => rfl
  | case2 p c cs hlayout ih => exact ih
  | case3 p c cs hlayout l behind ih =>
    have hsplit := congrArg p.past (lexeme_split c cs).1
    rw [Position.past_append] at hsplit
    exact ih.trans hsplit

/-- The tokens of a text stand in front of its end. -/
theorem before_stop_lex (h : t ∈ (lex p cs).tokens) : t.position.Before (lex p cs).stop := by
  fun_induction lex p cs with
  | case1 p => cases h
  | case2 p c cs hlayout ih => exact ih h
  | case3 p c cs hlayout l behind ih =>
    rcases List.mem_cons.1 h with rfl | h
    · have hstop : (lex (p.past l.text) l.rest).stop = p.past (c :: cs) := by
        rw [stop_lex, ← Position.past_append]
        exact congrArg p.past (lexeme_split c cs).1
      change p.Before (lex (p.past l.text) l.rest).stop
      rw [hstop]
      exact Position.before_past (List.cons_ne_nil c cs) p
    · exact ih h

/-- Every token of a text stands in front of all later ones, the end of the text included. -/
theorem pairwise_before_tokenize (source : String) :
    (tokenize source).Pairwise fun t u => t.position.Before u.position := by
  refine List.pairwise_append.2 ⟨pairwise_before_lex _ _, List.pairwise_singleton _ _, ?_⟩
  intro t ht u hu
  rw [List.mem_singleton.1 hu]
  exact before_stop_lex ht

end

end MonkeySyntax
