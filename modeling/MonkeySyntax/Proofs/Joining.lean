import MonkeySyntax.Grammar.Production
import MonkeySyntax.Proofs.Lexemes
import MonkeySyntax.Proofs.Places

namespace MonkeySyntax

def Position.down (k : Int) (p : Position) : Position :=
  ⟨p.line + k, p.column⟩

def Token.down (k : Int) (t : Token) : Token :=
  { t with position := t.position.down k }

theorem Position.next_down (k : Int) (p : Position) (c : Char) :
    (p.down k).next c = (p.next c).down k := by
  unfold next
  split
  · exact Position.ext (Int.add_right_comm p.line k 1) rfl
  · rfl

section

variable {f : Position → Position} {I : Position → Prop} (hI : ∀ p c, I p → I (p.next c))
  (hf : ∀ p c, I p → (f p).next c = f (p.next c))

include hI hf

/-- Counting that starts at another place leads to another place. What is said of the places has to
hold from the first one on. -/
theorem Position.past_map {p : Position} (hp : I p) (cs : List Char) :
    I (p.past cs) ∧ (f p).past cs = f (p.past cs) := by
  induction cs generalizing p with
  | nil => exact ⟨hp, rfl⟩
  | cons c cs ih =>
    rw [past_cons, past_cons, hf p c hp]
    exact ih (hI p c hp)

/-- Where counting starts at another place, the same tokens stand at other places. -/
theorem tokens_lex_map {p : Position} (hp : I p) (cs : List Char) :
    (lex (f p) cs).tokens = (lex p cs).tokens.map fun t => { t with position := f t.position } := by
  fun_induction lex p cs with
  | case1 p =>
    rw [lex]
    rfl
  | case2 p c cs hlayout ih =>
    rw [lex, if_pos hlayout, hf p c hp]
    exact ih (hI p c hp)
  | case3 p c cs hlayout l behind ih =>
    obtain ⟨hl, hpast⟩ := Position.past_map hI hf hp l.text
    rw [lex, if_neg hlayout]
    dsimp only
    rw [hpast, ih hl]
    rfl

end

theorem Position.past_down (k : Int) (p : Position) (cs : List Char) :
    (p.down k).past cs = (p.past cs).down k :=
  (past_map (I := fun _ => True) (fun _ _ h => h) (fun p c _ => p.next_down k c) trivial cs).2

theorem Position.line_past (p : Position) (cs : List Char) :
    (p.past cs).line = p.line + cs.count '\n' := by
  induction cs generalizing p with
  | nil => exact (Int.add_zero p.line).symm
  | cons c cs ih =>
    rw [past_cons, ih, List.count_cons]
    unfold next
    by_cases hc : c = '\n'
    · rw [if_pos hc, if_pos (beq_iff_eq.2 hc)]
      dsimp only
      omega
    · rw [if_neg hc, if_neg (fun h => hc (beq_iff_eq.1 h))]
      rfl

/-- Further down a text is cut into the same tokens, further down. -/
theorem tokens_lex_down (k : Int) (p : Position) (cs : List Char) :
    (lex (p.down k) cs).tokens = (lex p cs).tokens.map (Token.down k) :=
  tokens_lex_map (I := fun _ => True) (fun _ _ h => h) (fun p c _ => p.next_down k c) trivial cs

/-- A text is cut the same way in front of a boundary, and what is behind it as well. -/
theorem tokens_lex_append (p : Position) (cs : List Char) {rest : List Char}
    (hrest : Boundary rest) :
    (lex p (cs ++ rest)).tokens = (lex p cs).tokens ++ (lex (p.past cs) rest).tokens := by
  fun_induction lex p cs with
  | case1 p => rfl
  | case2 p c cs hlayout ih =>
    rw [List.cons_append, lex, if_pos hlayout]
    exact ih
  | case3 p c cs hlayout l behind ih =>
    have hpast := congrArg p.past (lexeme_split c cs).1
    rw [Position.past_append] at hpast
    rw [List.cons_append, lex, if_neg hlayout, lexeme_append (Bool.eq_false_iff.2 hlayout) cs
      fun _ d hd => hrest.not_goesOn hd _]
    dsimp only
    rw [ih, hpast]
    rfl

/-- A line feed leads to the front of a line. -/
theorem next_past_start (cs : List Char) :
    (Position.start.past cs).next '\n' = Position.start.down (1 + cs.count '\n') := by
  have hline := Position.line_past .start cs
  unfold Position.next
  rw [if_pos rfl, hline]
  refine Position.ext ?_ rfl
  change 1 + (cs.count '\n' : Int) + 1 = 1 + (1 + cs.count '\n')
  omega

theorem rest_ofString (s : String) : (Cursor.ofString s).rest = (lex .start s.toList).tokens := rfl

theorem stop_ofString (s : String) : (Cursor.ofString s).stop = Position.start.past s.toList :=
  stop_lex .start s.toList

theorem toList_joined (s₁ s₂ : String) :
    (s₁ ++ "\n" ++ s₂).toList = s₁.toList ++ '\n' :: s₂.toList := by
  rw [String.toList_append, String.toList_append, List.append_assoc]
  rfl

/-- The tokens of two texts with a line feed between them. -/
theorem rest_joined (s₁ s₂ : String) :
    (Cursor.ofString (s₁ ++ "\n" ++ s₂)).rest = (Cursor.ofString s₁).rest ++
      (Cursor.ofString s₂).rest.map (Token.down (1 + s₁.toList.count '\n')) := by
  have hboundary : Boundary ('\n' :: s₂.toList) := boundary_cons (by decide) s₂.toList
  simp only [rest_ofString]
  rw [toList_joined, tokens_lex_append _ _ hboundary, lex, if_pos (by decide), next_past_start,
    tokens_lex_down]

theorem stop_joined (s₁ s₂ : String) :
    (Cursor.ofString (s₁ ++ "\n" ++ s₂)).stop =
      (Cursor.ofString s₂).stop.down (1 + s₁.toList.count '\n') := by
  rw [stop_ofString, stop_ofString, toList_joined, Position.past_append, Position.past_cons,
    next_past_start, Position.past_down]

end MonkeySyntax
