import MonkeySyntax.Grammar.Parser
import MonkeySyntax.Proofs.Forward
import MonkeySyntax.Proofs.Gaps

namespace MonkeySyntax

open Production

namespace Reader

variable (r : Reader)

def nthToken (r : Reader) : Nat → Token
  | 0 => r.takeToken.1
  | n + 1 => r.takeToken.2.nthToken n

/-- Taking a token takes the first one of those that the text ahead is cut into. -/
theorem takeToken_eq :
    r.takeToken.1 = r.lexed.tokens.headD (.finish r.lexed.stop) ∧
      r.takeToken.2.lexed = ⟨r.lexed.tokens.tail, r.lexed.stop⟩ := by
  cases hrest : r.skipLayout.rest with
  | nil =>
    have hlexed : r.lexed = ⟨[], r.skipLayout.position⟩ := by
      rw [← lexed_skipLayout, lexed, hrest, lex]
    rw [takeToken_of_nil hrest]
    change _ ∧ r.skipLayout.lexed = _
    rw [lexed_skipLayout, hlexed]
    exact ⟨rfl, rfl⟩
  | cons c cs =>
    rw [lexed_of_cons hrest]
    exact ⟨rfl, rfl⟩

/-- Behind the tokens ahead stands the end of the text, without end. -/
theorem nthToken_eq (n : Nat) :
    r.nthToken n = (r.lexed.tokens.drop n).headD (.finish r.lexed.stop) := by
  induction n generalizing r with
  | zero => exact r.takeToken_eq.1
  | succ n ih =>
    calc r.nthToken (n + 1)
        = r.takeToken.2.nthToken n := rfl
      _ = (r.lexed.tokens.tail.drop n).headD (.finish r.lexed.stop) := by
          rw [ih, r.takeToken_eq.2]
      _ = (r.lexed.tokens.drop (n + 1)).headD (.finish r.lexed.stop) := by
          rw [List.drop_tail]

/-- How many of the tokens that were ahead of a reader are behind a cursor. -/
def place (c : Cursor) : Nat := r.lexed.tokens.length - c.remaining

theorem place_ofReader : r.place (.ofReader r) = 0 := Nat.sub_self _

theorem place_le_place {c d : Cursor} (h : c.Reaches d) : r.place c ≤ r.place d := by
  exact Nat.sub_le_sub_left h.remaining_le _

/-- A cursor looks at the token that it has come to and the one behind it. -/
theorem nthToken_place {c : Cursor} (h : (Cursor.ofReader r).Reaches c) :
    c.current = r.nthToken (r.place c) ∧ c.peek = r.nthToken (r.place c + 1) := by
  have hstop : c.stop = r.lexed.stop := h.stop
  have hrest : c.rest = r.lexed.tokens.drop (r.place c) := by
    have hdrop := List.suffix_iff_eq_drop.1 h.suffix
    rw [← c.remaining_eq] at hdrop
    exact hdrop
  constructor
  · rw [Cursor.current, nthToken_eq, hrest, hstop]
  · rw [Cursor.peek, nthToken_eq, hrest, hstop, List.tail_drop]

end Reader

structure Production.Onward {α : Type} (x : Production α) : Prop where
  ok : ∀ {c d a}, x c = .ok a d → c.Reaches d
  error : ∀ {c d f}, x c = .error f d → c.Reaches d

theorem Production.Forward.onward {α : Type} {x : Production α} (hx : Forward x) : Onward x :=
  ⟨hx.ok, fun h => (hx.error h).1⟩

/-- A literal is converted on the spot, of whatever kind its token is. -/
theorem onward_integer : Onward integer := by
  refine ⟨fun {c d n} h => ?_, fun {c d f} h => ?_⟩
  · obtain ⟨rfl, -⟩ := integer_of_ok h
    exact Cursor.Reaches.refl d
  · obtain ⟨rfl, -⟩ := integer_of_error h
    exact Cursor.Reaches.refl d

namespace Parser

/-- A production moves forward at every token, also at one that it was not written for. -/
theorem NodeCall.onward (rules : Rules) (limit : Nat) (c : NodeCall) :
    Onward (c.production rules limit) := by
  have hsub (level : Nat) : Forward (Production.expression rules limit level) :=
    forward_expression rules limit level
  cases c with
  | statement => exact (forward_statement hsub).onward
  | letStatement => exact (forward_letStatement hsub).onward
  | returnStatement => exact (forward_returnStatement hsub).onward
  | expressionStatement => exact (forward_expressionStatement hsub).onward
  | block => exact (forward_block hsub).onward
  | identifier => exact forward_identifier.onward
  | integer => exact onward_integer
  | boolean => exact forward_boolean.onward
  | unary => exact (forward_unary hsub).onward
  | grouped => exact (forward_grouped hsub).onward
  | conditional => exact (forward_conditional hsub).onward
  | functionLiteral => exact (forward_functionLiteral hsub).onward
  | expression level => exact (hsub level).onward
  | binary left => exact (forward_binary hsub left).onward
  | call callee => exact (forward_call hsub callee).onward

theorem reaches_after {α : Type} {x : Production α} (hx : Onward x) (p : Parser)
    (answer : α → Answer) : p.cursor.Reaches (p.after answer x).2.cursor := by
  unfold after
  cases h : x p.cursor with
  | ok a d => exact hx.ok h
  | error f d => exact hx.error h

/-- No call goes back. -/
theorem reaches_step (limit : Nat) (p : Parser) (call : Call) :
    p.cursor.Reaches (p.step limit call).2.cursor := by
  have hsub (level : Nat) : Forward (expression p.rules limit level) :=
    forward_expression p.rules limit level
  cases call with
  | advance => exact reaches_after forward_advance.onward p _
  | skipStatement => exact p.cursor.reaches_skipStatement
  | expect k => exact reaches_after (forward_expect k).onward p _
  | node c => exact reaches_after (c.onward p.rules limit) p _
  | parameters =>
    have hlist : Forward parameters := forward_list hsub .parameter
    exact reaches_after hlist.onward p _
  | arguments =>
    have hlist : Forward (arguments (expression p.rules limit)) := forward_list hsub .argument
    exact reaches_after hlist.onward p _
  | program =>
    have hreaches := reaches_runFrom (forward_statementWithin p.rules limit) p.cursor
    unfold step afterProgram
    dsimp only
    split <;> exact hreaches
  | currentIs | peekIs | currentPrecedence | peekPrecedence | dropOperand | dropOperator =>
    exact Cursor.Reaches.refl _

theorem defects_after {α : Type} (p : Parser) (answer : α → Answer) (x : Production α) :
    (p.after answer x).2.defects = p.defects := by
  unfold after
  cases x p.cursor <;> rfl

/-- Only reading a program records defects. -/
theorem defects_step (limit : Nat) (p : Parser) {call : Call} (h : call ≠ .program) :
    (p.step limit call).2.defects = p.defects := by
  cases call with
  | program => exact absurd rfl h
  | advance | expect | node | parameters | arguments => exact p.defects_after _ _
  | skipStatement | currentIs | peekIs | currentPrecedence | peekPrecedence | dropOperand
  | dropOperator => rfl

/-- A token that is expected but not found is not passed. -/
theorem step_expect_of_fault {limit : Nat} {p : Parser} {k : Kind} {f : Fault}
    (h : (p.step limit (.expect k)).1 = .fault f) : (p.step limit (.expect k)).2 = p := by
  have hstep : p.step limit (.expect k) =
      if p.cursor.peek.kind = k then (.done, { p with cursor := p.cursor.advance })
      else (.fault (.defect (.unexpected k p.cursor.peek)), p) := by
    change p.after _ (expect k) = _
    unfold after
    rw [expect_eq]
    by_cases hk : p.cursor.peek.kind = k
    · rw [if_pos hk, if_pos hk]
    · rw [if_neg hk, if_neg hk]
  rw [hstep] at h ⊢
  split at h
  · cases h
  · next hk => rw [if_neg hk]

/-- Reading a program records defects behind those recorded before. It fails on nothing but an
oversized literal, and else answers with all of them, at the end of the text. -/
theorem step_program (limit : Nat) (p : Parser) :
    p.defects <+: (p.step limit .program).2.defects ∧
      ((∃ n, (p.step limit .program).1 = .fault (.oversizedLiteral n)) ∨
        (∃ ss, (p.step limit .program).1 = .program ss (p.step limit .program).2.defects) ∧
          (p.step limit .program).2.cursor.current.kind = .eof) := by
  have heof := eof_of_oversized_eq_none (forward_statementWithin p.rules limit) (c := p.cursor)
  unfold step afterProgram
  dsimp only
  split
  · next n hn => exact ⟨List.prefix_append _ _, Or.inl ⟨n, rfl⟩⟩
  · next hnone => exact ⟨List.prefix_append _ _, Or.inr ⟨⟨_, rfl⟩, heof hnone⟩⟩

def ofReader (r : Reader) : Parser := { cursor := .ofReader r }

def through (limit : Nat) (p : Parser) (calls : List Call) : Parser :=
  calls.foldl (fun p call => (p.step limit call).2) p

/-- Whether a parser looks at a token of a reader, counted from nought, and at the one behind it. -/
structure LooksAt (p : Parser) (r : Reader) (n : Nat) : Prop where
  current : p.cursor.current = r.nthToken n
  peek : p.cursor.peek = r.nthToken (n + 1)

structure Obeys (limit : Nat) (p : Parser) (call : Call) (r : Reader) (before behind : Nat) :
    Prop where
  looksAt : p.LooksAt r before
  looksAt_step : (p.step limit call).2.LooksAt r behind
  le : before ≤ behind
  stays : ∀ k f, call = .expect k → (p.step limit call).1 = .fault f → behind = before
  defects_eq : call ≠ .program → (p.step limit call).2.defects = p.defects
  defects_prefix : p.defects <+: (p.step limit call).2.defects
  program : call = .program →
    (∃ n, (p.step limit call).1 = .fault (.oversizedLiteral n)) ∨
      (∃ ss, (p.step limit call).1 = .program ss (p.step limit call).2.defects) ∧
        (p.step limit call).2.cursor.current.kind = .eof

/-- Behind any way forward the current token and the next one are neighbours in the text. -/
theorem looksAt_place {r : Reader} {p : Parser} (h : (Cursor.ofReader r).Reaches p.cursor) :
    p.LooksAt r (r.place p.cursor) :=
  ⟨(r.nthToken_place h).1, (r.nthToken_place h).2⟩

/-- A call obeys wherever the parser has come to. -/
theorem obeys_place {r : Reader} {p : Parser} (h : (Cursor.ofReader r).Reaches p.cursor)
    (limit : Nat) (call : Call) :
    p.Obeys limit call r (r.place p.cursor) (r.place (p.step limit call).2.cursor) where
  looksAt := looksAt_place h
  looksAt_step := looksAt_place (h.trans (reaches_step limit p call))
  le := r.place_le_place (reaches_step limit p call)
  stays := by
    rintro k f rfl hfault
    rw [step_expect_of_fault hfault]
  defects_eq := fun hcall => defects_step limit p hcall
  defects_prefix := by
    by_cases hcall : call = .program
    · rw [hcall]
      exact (step_program limit p).1
    · refine ⟨[], ?_⟩
      rw [List.append_nil, defects_step limit p hcall]
  program := by
    rintro rfl
    exact (step_program limit p).2

theorem reaches_through (limit : Nat) (p : Parser) (calls : List Call) :
    p.cursor.Reaches (p.through limit calls).cursor := by
  induction calls generalizing p with
  | nil => exact Cursor.Reaches.refl _
  | cons call calls ih => exact (reaches_step limit p call).trans (ih (p.step limit call).2)

theorem through_concat (limit : Nat) (p : Parser) (past : List Call) (call : Call) :
    p.through limit (past ++ [call]) = ((p.through limit past).step limit call).2 :=
  List.foldl_append

/-- In the course of a session, whatever is asked for and whatever fails, the parser looks at two
neighbouring tokens of its text and does not go back. -/
theorem session_obeys (limit : Nat) (r : Reader) :
    ∃ place : List Call → Nat, place [] = 0 ∧ ∀ (past : List Call) (call : Call),
      ((ofReader r).through limit past).Obeys limit call r (place past)
        (place (past ++ [call])) := by
  refine ⟨fun past => r.place ((ofReader r).through limit past).cursor, r.place_ofReader, ?_⟩
  intro past call
  have hobeys := obeys_place (reaches_through limit (ofReader r) past) limit call
  rw [← through_concat] at hobeys
  exact hobeys

end Parser

end MonkeySyntax
