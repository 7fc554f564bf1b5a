import MonkeySyntax.Grammar.Program
import MonkeySyntax.Proofs.Joining

namespace MonkeySyntax

def returnedFrom (chosen : Nat → Bool) (i : Nat) (cs : List Char) : List Char :=
  (cs.zipIdx i).flatMap fun c => if c.1 = '\n' ∧ chosen c.2 then ['\r', c.1] else [c.1]

/-- The text with a carriage return in front of each line feed whose number among the characters is
chosen. -/
def returned (chosen : Nat → Bool) (source : String) : String :=
  String.ofList (returnedFrom chosen 0 source.toList)

theorem Position.next_return (p : Position) : (p.next '\r').next '\n' = p.next '\n' := rfl

/-- One carriage return in front of a line feed changes neither a token nor the end. -/
theorem lex_return (p : Position) (front back : List Char) :
    lex p (front ++ '\r' :: '\n' :: back) = lex p (front ++ '\n' :: back) := by
  have hreturn : Boundary ('\r' :: '\n' :: back) := boundary_cons (by decide) _
  have hfeed : Boundary ('\n' :: back) := boundary_cons (by decide) back
  have htokens : (lex p (front ++ '\r' :: '\n' :: back)).tokens =
      (lex p (front ++ '\n' :: back)).tokens := by
    have hskip (q : Position) : lex q ('\r' :: '\n' :: back) = lex q ('\n' :: back) :=
      calc lex q ('\r' :: '\n' :: back)
          = lex (q.next '\r') ('\n' :: back) := by rw [lex, if_pos (by decide)]
        _ = lex (q.next '\n') back := by rw [lex, if_pos (by decide), q.next_return]
        _ = lex q ('\n' :: back) := by rw [lex, if_pos (by decide)]
    rw [tokens_lex_append _ _ hreturn, tokens_lex_append _ _ hfeed, hskip]
  have hstop : (lex p (front ++ '\r' :: '\n' :: back)).stop =
      (lex p (front ++ '\n' :: back)).stop := by
    rw [stop_lex, stop_lex, Position.past_append, Position.past_append]
    rfl
  change Lexed.mk _ _ = Lexed.mk _ _
  rw [htokens, hstop]

/-- A return is put in where the text in front of it has been dealt with, so one place is looked at
at a time. -/
theorem lex_returnedFrom (chosen : Nat → Bool) (p : Position) (front : List Char) (i : Nat)
    (cs : List Char) : lex p (front ++ returnedFrom chosen i cs) = lex p (front ++ cs) := by
  -- the characters move to the front one by one, a carriage return apart
  induction cs generalizing front i with
  | nil => rfl
  | cons c cs ih =>
    have hcons : returnedFrom chosen i (c :: cs) =
        (if c = '\n' ∧ chosen i then ['\r', c] else [c]) ++ returnedFrom chosen (i + 1) cs := rfl
    rw [hcons, ← List.append_assoc, ih, List.append_assoc]
    split
    · next h =>
      obtain ⟨rfl, -⟩ := h
      exact lex_return p front cs
    · rfl

/-- Carriage returns in front of any of the line feeds of a text change no token of it and no place,
and it is read as before, with the same statements and the same defects. -/
theorem tokenize_returned (chosen : Nat → Bool) (source : String) :
    tokenize (returned chosen source) = tokenize source ∧
      ∀ limit, parseWithin limit (returned chosen source) = parseWithin limit source := by
  have hlex : lex .start (returned chosen source).toList = lex .start source.toList := by
    rw [returned, String.toList_ofList]
    exact lex_returnedFrom chosen .start [] 0 source.toList
  have hcursor : Cursor.ofString (returned chosen source) = Cursor.ofString source := by
    apply Cursor.ext
    · rw [rest_ofString, rest_ofString, hlex]
    · rw [stop_ofString, stop_ofString, ← stop_lex, ← stop_lex, hlex]
  refine ⟨?_, ?_⟩
  · rw [tokenize, hlex, tokenize]
  · intro limit
    rw [parseWithin, hcursor, parseWithin]

example : returned (· ≠ 3) "a\n;\nb\n" = "a\r\n;\nb\r\n" ∧
    tokenize "a\r\n;\nb\r\n" = tokenize "a\n;\nb\n" := by decide +kernel

end MonkeySyntax
