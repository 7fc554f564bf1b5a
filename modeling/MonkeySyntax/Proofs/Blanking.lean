import Mathlib.Data.List.Nodup
import MonkeySyntax.Proofs.Joining

namespace MonkeySyntax

def blankAt (p : Position) : Position → List Char → List Char
  | _, [] => []
  | q, c :: cs => (if q = p then ' ' else c) :: blankAt p (q.next c) cs

/-- The text with a space in the place of the character at `p`. -/
def blanked (source : String) (p : Position) : String :=
  String.ofList (blankAt p .start source.toList)

/-- Behind the place nothing changes. -/
theorem blankAt_of_before {p q : Position} (h : p.Before q) (cs : List Char) :
    blankAt p q cs = cs := by
  induction cs generalizing q with
  | nil => rfl
  | cons c cs ih =>
    have hne : q ≠ p := by
      rintro rfl
      exact Position.not_before_self q h
    unfold blankAt
    rw [if_neg hne, ih (h.trans (q.before_next c))]

theorem blankAt_past (q : Position) (cs : List Char) (c : Char) (ds : List Char) :
    blankAt (q.past cs) q (cs ++ c :: ds) = cs ++ ' ' :: ds := by
  induction cs generalizing q with
  | nil =>
    change (if q = q then ' ' else c) :: blankAt q (q.next c) ds = _
    rw [if_pos rfl, blankAt_of_before (q.before_next c)]
    rfl
  | cons b cs ih =>
    have hne : q ≠ q.past (b :: cs) := by
      intro heq
      have hbefore := Position.before_past (List.cons_ne_nil b cs) q
      rw [← heq] at hbefore
      exact Position.not_before_self q hbefore
    rw [List.cons_append]
    unfold blankAt
    rw [if_neg hne, Position.past_cons, ih]
    rfl

/-- A semicolon among the tokens is one among the characters. -/
theorem exists_semicolon {p : Position} {cs : List Char} {t : Token} (h : t ∈ (lex p cs).tokens)
    (ht : t.kind = .semicolon) :
    ∃ front back, cs = front ++ ';' :: back ∧ t.position = p.past front ∧
      (lex (p.past front) (';' :: back)).tokens =
        t :: (lex ((p.past front).next ';') back).tokens := by
  fun_induction lex p cs with
  | case1 p => cases h
  | case2 p c cs hlayout ih =>
    obtain ⟨front, back, rfl, hposition, htokens⟩ := ih h
    exact ⟨c :: front, back, rfl, hposition, htokens⟩
  | case3 p c cs hlayout l behind ih =>
    have hsplit := lexeme_split c cs
    rcases List.mem_cons.1 h with rfl | h
    · -- the only text of a semicolon is the character
      have hkind : l.kind = .semicolon := ht
      have htext : l.text = [';'] := by
        have hlexical : Lexical .semicolon l.text := by
          rw [← hkind]
          exact lexical_lexeme c cs
        have hstring := hlexical.eq_of_mem_tables (s := ";") (by decide)
        have hlist := congrArg String.toList hstring
        rw [String.toList_ofList] at hlist
        exact hlist
      have hchars : c :: cs = ';' :: l.rest := by
        rw [← hsplit.1]
        exact congrArg (· ++ l.rest) htext
      refine ⟨[], l.rest, hchars, rfl, ?_⟩
      rw [Position.past_nil, ← hchars, lex, if_neg hlayout]
      change _ :: (lex (p.past l.text) l.rest).tokens = _
      rw [htext]
      rfl
    · obtain ⟨front, back, hrest, hposition, htokens⟩ := ih h
      refine ⟨l.text ++ front, back, ?_, ?_, ?_⟩
      · rw [← hsplit.1, List.append_assoc, ← hrest]
      · rw [Position.past_append]
        exact hposition
      · rw [Position.past_append]
        exact htokens

/-- The tokens of a text in which a semicolon is blanked out are all but the semicolon. -/
theorem rest_blanked {source : String} {us vs : List Token} {t : Token}
    (h : (Cursor.ofString source).rest = us ++ t :: vs) (ht : t.kind = .semicolon) :
    (Cursor.ofString (blanked source t.position)).rest = us ++ vs := by
  rw [rest_ofString] at h ⊢
  have hmem : t ∈ (lex .start source.toList).tokens := by
    rw [h]
    exact List.mem_append_right us List.mem_cons_self
  obtain ⟨front, back, hsource, hposition, htokens⟩ := exists_semicolon hmem ht
  have hsemicolon : Boundary (';' :: back) := boundary_cons (by decide) back
  have hspace : Boundary (' ' :: back) := boundary_cons (by decide) back
  -- the semicolon occurs once, so the tokens on both sides of it are the same
  have hsplit : us = (lex .start front).tokens ∧
      vs = (lex ((Position.start.past front).next ';') back).tokens := by
    have hnodup := nodup_lex .start source.toList
    rw [h] at hnodup
    have honce : t ∉ us ++ vs := (List.nodup_cons.1 (List.nodup_middle.1 hnodup)).1
    have hfront : t ∉ us := fun hus => honce (List.mem_append_left vs hus)
    have hback : t ∉ vs := fun hvs => honce (List.mem_append_right us hvs)
    rw [hsource, tokens_lex_append _ _ hsemicolon, htokens] at h
    obtain ⟨hus, -, hvs⟩ := (List.append_cons_inj_of_notMem hfront hback).1 h.symm
    exact ⟨hus, hvs⟩
  have hblanked : (blanked source t.position).toList = front ++ ' ' :: back := by
    unfold blanked
    rw [String.toList_ofList, hposition, hsource, blankAt_past]
  rw [hblanked, tokens_lex_append _ _ hspace, lex, if_pos (by decide), hsplit.1, hsplit.2]
  rfl

end MonkeySyntax
