import Mathlib.Data.List.TakeWhile
import MonkeySyntax.Proofs.Breaking
import MonkeySyntax.Proofs.Joining
import MonkeySyntax.Proofs.Reflecting
import MonkeySyntax.Tree.Text

namespace MonkeySyntax

open Production

def mapOutcome (f : Token → Token) : Except Defect Node → Except Defect Node
  | .ok s => .ok (s.mapTokens f)
  | .error e => .error (e.mapTokens f)

namespace Run

theorem statements_of_outcomes {r r₁ r₂ : Run} {f : Token → Token}
    (h : r.outcomes = r₁.outcomes ++ r₂.outcomes.map (mapOutcome f)) :
    r.statements = r₁.statements ++ r₂.statements.map (Node.mapTokens f) := by
  unfold statements
  rw [h, List.filterMap_append, List.filterMap_map, List.map_filterMap]
  congr 2
  funext o
  cases o <;> rfl

theorem defects_of_outcomes {r r₁ r₂ : Run} {f : Token → Token}
    (h : r.outcomes = r₁.outcomes ++ r₂.outcomes.map (mapOutcome f)) :
    r.defects = r₁.defects ++ r₂.defects.map (Defect.mapTokens f) := by
  unfold defects
  rw [h, List.filterMap_append, List.filterMap_map, List.map_filterMap]
  congr 2
  funext o
  cases o <;> rfl

end Run

section

variable {statement : Production Node} {m : Mirror} {c d : Cursor}

/-- Attempts that are seen as one another go on at places that are, if that counts of the steps
behind them. -/
theorem attempt_seen (hagree : m.Agree m.node (statement c) (statement d))
    (hfits : ∀ n c', statement c ≠ .error (.oversizedLiteral n) c')
    (hok : ∀ {s c₁ d₁}, statement c = .ok s c₁ → m.At c₁ d₁ → m.At c₁.advance d₁.advance)
    (herror : ∀ {e c₁ d₁}, statement c = .error (.defect e) c₁ → m.At c₁ d₁ →
      m.At c₁.advance d₁.advance ∧ m.At c₁.skipStatement.advance d₁.skipStatement.advance) :
    ∃ o c' d', attempt statement c = (.ok o, c') ∧
      attempt statement d = (.ok (mapOutcome m.token o), d') ∧ m.At c' d' := by
  cases hs : statement c with
  | ok s c₁ =>
    rw [hs] at hagree
    obtain ⟨d₁, hd₁, hat⟩ := Mirror.agree_ok hagree
    exact ⟨.ok s, c₁.advance, d₁.advance, by rw [attempt, hs], by rw [attempt, hd₁]; rfl,
      hok hs hat⟩
  | error f c₁ =>
    rw [hs] at hagree
    obtain ⟨d₁, hd₁, hat⟩ := Mirror.agree_error hagree
    cases f with
    | oversizedLiteral n => exact absurd hs (hfits n c₁)
    | defect e =>
      have hd₁' : statement d = .error (.defect (e.mapTokens m.token)) d₁ := hd₁
      obtain ⟨hadvance, hskip⟩ := herror hs hat
      refine ⟨.error e, _, _, by rw [attempt, hs], by rw [attempt, hd₁']; rfl, ?_⟩
      -- whether tokens are skipped is the same in a mirror
      by_cases he : e.isNesting
      · rw [if_pos he, e.isNesting_mapTokens, if_pos he]
        exact hskip
      · rw [if_neg he, e.isNesting_mapTokens, if_neg he]
        exact hadvance

/-- Runs whose attempts are seen as one another come to the same, up to the end of the first. -/
theorem runFrom_seen (hstatement : Forward statement) (I : Cursor → Prop)
    (hnext : ∀ {c d}, I c → m.At c d → c.current.kind ≠ .eof → d.current.kind ≠ .eof ∧
      ∃ o c' d', attempt statement c = (.ok o, c') ∧
        attempt statement d = (.ok (mapOutcome m.token o), d') ∧ m.At c' d' ∧ I c')
    (hc : I c) (hat : m.At c d) :
    ∃ c' d', m.At c' d' ∧ I c' ∧ c'.current.kind = .eof ∧
      (runFrom statement c).oversized = none ∧
      runFrom statement d = { runFrom statement d' with
        outcomes := (runFrom statement c).outcomes.map (mapOutcome m.token) ++
          (runFrom statement d').outcomes } := by
  fun_induction runFrom statement c generalizing d with
  | case1 c heof => exact ⟨c, d, hat, hc, heof, rfl, rfl⟩
  | case2 c heof n c' hattempt =>
    obtain ⟨-, o, c₁, d₁, hattempt', -⟩ := hnext hc hat heof
    rw [hattempt] at hattempt'
    cases hattempt'
  | case3 c heof o c' hattempt hlt ih =>
    -- both runs attempt the same statement and go on at places that are seen as each other
    obtain ⟨heof', o', c₁, d₁, hattempt', hseen, hat', hc'⟩ := hnext hc hat heof
    rw [hattempt] at hattempt'
    cases hattempt'
    obtain ⟨c₂, d₂, hat₂, hc₂, hend, hoversized, hrun⟩ := ih hc' hat'
    refine ⟨c₂, d₂, hat₂, hc₂, hend, hoversized, ?_⟩
    rw [runFrom_of_attempt heof' hseen (attempt_lt hstatement heof' hseen), hrun]
    rfl
  | case4 c heof o c' hattempt hlt => exact absurd (attempt_lt hstatement heof hattempt) hlt

end

section

variable {c d : Cursor} {limit : Nat}

def Fits (c : Cursor) : Prop :=
  ∀ t ∈ c.rest, t.kind = .int → t.literal.toList.length ≤ maxDigits

/-- Where all integers are short enough, none of them puts an end to reading. -/
theorem Fits.ne_oversized (h : Fits c) {n : Nat} :
    statementWithin .standard limit c ≠ .error (.oversizedLiteral n) d := by
  intro hs
  obtain ⟨t, ht, hint, hlength, hlt⟩ := ((forward_statementWithin .standard limit).error hs).2 n rfl
  have hle := h t ht hint
  omega

theorem Fits.of_reaches (h : Fits c) (hcd : c.Reaches d) : Fits d :=
  fun t ht => h t (hcd.suffix.mem ht)

/-- Rows of the same kinds are skipped up to the same place. -/
theorem skipStatement_map {f : Token → Token} (hkind : ∀ t, (f t).kind = t.kind)
    (h : d.rest = c.rest.map f) : d.skipStatement.rest = c.skipStatement.rest.map f := by
  have hp : (fun t : Token => decide (t.kind ≠ .semicolon) && decide (t.kind ≠ .eof)) ∘ f =
      fun t => decide (t.kind ≠ .semicolon) && decide (t.kind ≠ .eof) := by
    funext t
    simp only [Function.comp_apply, hkind]
  unfold Cursor.skipStatement
  dsimp only
  rw [h, List.dropWhile_map, hp]

end

section

variable {f : Token → Token} (hkind : ∀ t, (f t).kind = t.kind)
  (hliteral : ∀ t, (f t).literal = t.literal) (limit : Nat) {c d : Cursor}

include hkind hliteral

theorem statement_image (hat : (Mirror.image f hkind hliteral).At c d) :
    (Mirror.image f hkind hliteral).Agree (Mirror.image f hkind hliteral).node
      (statementWithin .standard limit c) (statementWithin .standard limit d) := by
  have hstatement := Mirror.reflects_statement fun level =>
    Mirror.reflects_expression (m := .image f hkind hliteral) .standard limit level
  refine (hstatement.seen c d hat).resolve_left fun hlost => ?_
  change Mirror.Lost _ _ (statementWithin .standard limit c) at hlost
  cases hs : statementWithin .standard limit c <;> rw [hs] at hlost <;> exact hlost

/-- An attempt on the one text comes to the image of what it comes to on the other. -/
theorem attempt_image (hat : (Mirror.image f hkind hliteral).At c d) :
    ∃ d', attempt (statementWithin .standard limit) d =
        ((attempt (statementWithin .standard limit) c).1.map (mapOutcome f), d') ∧
      (Mirror.image f hkind hliteral).At (attempt (statementWithin .standard limit) c).2 d' := by
  have hagree := statement_image hkind hliteral limit hat
  have hadvance {c d : Cursor} (hat : (Mirror.image f hkind hliteral).At c d) :
      (Mirror.image f hkind hliteral).At c.advance d.advance := Mirror.advance_at _ hat id
  by_cases hover : ∃ n c', statementWithin .standard limit c = .error (.oversizedLiteral n) c'
  · -- an oversized literal is as long in the other text
    obtain ⟨n, c', hs⟩ := hover
    rw [hs] at hagree
    obtain ⟨d', hd, hat'⟩ := Mirror.agree_error hagree
    unfold attempt
    rw [hs, hd]
    exact ⟨d', rfl, hat'⟩
  · obtain ⟨o, c', d', hc, hd, hat'⟩ := attempt_seen hagree (fun n c' hs => hover ⟨n, c', hs⟩)
      (fun _ hat => hadvance hat)
      fun _ hat => ⟨hadvance hat, hadvance ⟨skipStatement_map hkind hat.1, hat.2⟩⟩
    rw [hc, hd]
    exact ⟨d', rfl, hat'⟩

/-- A text with other tokens of the same kinds and literals is read in the same way, up to an
oversized literal if there is one. -/
theorem runFrom_image (hat : (Mirror.image f hkind hliteral).At c d) :
    (runFrom (statementWithin .standard limit) d).outcomes =
        (runFrom (statementWithin .standard limit) c).outcomes.map (mapOutcome f) ∧
      (runFrom (statementWithin .standard limit) d).oversized =
        (runFrom (statementWithin .standard limit) c).oversized := by
  have hend {c d : Cursor} (hat : (Mirror.image f hkind hliteral).At c d) :
      d.current.kind = .eof ↔ c.current.kind = .eof := by
    rw [Mirror.current_eq _ hat id, Mirror.kind_token]
  have hforward := forward_statementWithin .standard limit
  fun_induction runFrom (statementWithin .standard limit) c generalizing d with
  | case1 c heof =>
    rw [runFrom_of_eof ((hend hat).2 heof)]
    exact ⟨rfl, rfl⟩
  | case2 c heof n c' hattempt =>
    obtain ⟨d', hd, -⟩ := attempt_image hkind hliteral limit hat
    rw [hattempt] at hd
    rw [runFrom, if_neg fun h => heof ((hend hat).1 h), hd]
    exact ⟨rfl, rfl⟩
  | case3 c heof o c' hattempt hlt ih =>
    have heof' : d.current.kind ≠ .eof := fun h => heof ((hend hat).1 h)
    obtain ⟨d', hd, hat'⟩ := attempt_image hkind hliteral limit hat
    rw [hattempt] at hd hat'
    have hlt' := attempt_lt hforward heof' hd
    obtain ⟨houtcomes, hoversized⟩ := ih hat'
    rw [runFrom_of_attempt heof' hd hlt']
    exact ⟨congrArg (mapOutcome f o :: ·) houtcomes, hoversized⟩
  | case4 c heof o c' hattempt hlt => exact absurd (attempt_lt hforward heof hattempt) hlt

end

/-- Whether a text ends at a semicolon which no block holds, as reading sees it. -/
structure EndsClear (limit : Nat) (c : Cursor) : Prop where
  kinds : ∀ t ∈ c.rest, t.kind ≠ .eof
  fits : Fits c
  last : c.rest ≠ [] → lastKind c.rest = .semicolon
  blocks : ∀ b, .unterminatedBlock b ∉ (runFrom (statementWithin .standard limit) c).defects

theorem lastKind_of_suffix {us ts : List Token} (h : us <:+ ts) (hus : us ≠ []) :
    lastKind us = lastKind ts := by
  obtain ⟨vs, rfl⟩ := h
  exact (lastKind_append hus vs).symm

theorem exists_mem_of_lastKind {ts : List Token} {k : Kind} (h : lastKind ts = k) (hk : k ≠ .eof) :
    ∃ t ∈ ts, t.kind = k := by
  unfold lastKind at h
  cases hts : ts.reverse with
  | nil =>
    rw [hts] at h
    exact absurd h.symm hk
  | cons t us =>
    rw [hts] at h
    exact ⟨t, List.mem_reverse.1 (hts ▸ List.mem_cons_self), h⟩

section

variable {c d : Cursor} {limit : Nat} {ws : List Token} {stop : Position}

def AsksBehind (c : Cursor) : Prop :=
  c.rest.length < 2 ∧ c.current.kind ≠ .semicolon

theorem asksBehind_of_nil (h : c.rest = []) : AsksBehind c := by
  refine ⟨by rw [h]; decide, ?_⟩
  rw [kind_current, h]
  decide

/-- Behind a semicolon no statement asks for a next token. -/
theorem reflects_statement_swap (limit : Nat) (ws : List Token) (stop : Position) :
    (Mirror.swap [] ws stop).Reflects AsksBehind (Mirror.swap [] ws stop).node
      (statementWithin .standard limit) (statementWithin .standard limit) := by
  have hnil {c : Cursor} (h : (Mirror.swap [] ws stop).Blind 1 c) : AsksBehind c :=
    asksBehind_of_nil (List.length_eq_zero_iff.1 (Nat.lt_one_iff.1 h))
  have hexpression (level : Nat) :=
    Mirror.reflects_expression (m := .swap [] ws stop) .standard limit level
  refine Mirror.Reflects.statement hnil fun {x f f'} hx hf => ?_
  have hvalue : (Mirror.swap [] ws stop).Reflects ((Mirror.swap [] ws stop).Blind 2)
      (Mirror.swap [] ws stop).node x x := by
    rcases hx with rfl | rfl
    · exact Mirror.reflects_nextExpression hexpression
    · exact hexpression _
  have hlands {c d : Cursor} {v : Node} (h : x c = .ok v d) : d.current.kind.EndsExpression := by
    rcases hx with rfl | rfl
    · exact nextExpression_lands h
    · exact expression_lands limit (by decide) (by decide) h
  refine ⟨hvalue.forward.bind fun _ => (forward_allow _).bind fun _ => forward_pure _,
    fun c d hat => ?_⟩
  cases hc : x c with
  | error e c' =>
    rw [bind_of_error hc]
    refine (hvalue.of_error hc hat).imp_right ?_
    rintro ⟨d', hd, hat'⟩
    rw [bind_of_error hd]
    exact ⟨rfl, hat'⟩
  | ok v c' =>
    rw [bind_of_ok hc, allow_return_eq]
    by_cases hblind : (Mirror.swap [] ws stop).Blind 2 c'
    · -- the value ends at the last token, so there is no semicolon behind it
      left
      have htail : c'.rest.tail = [] := by
        rw [← List.length_eq_zero_iff, List.length_tail]
        change c'.rest.length < 2 at hblind
        omega
      rw [if_neg (by rw [kind_peek, htail]; decide)]
      exact ⟨hblind, Kind.ne_semicolon_of_endsExpression (hlands hc)⟩
    · right
      obtain ⟨d', hd, hat'⟩ := (hvalue.of_ok hc hat).resolve_left hblind
      rw [bind_of_ok hd, allow_return_eq, Mirror.peek_eq _ hat' hblind]
      refine ⟨hf v, ?_⟩
      by_cases hpeek : c'.peek.kind = .semicolon
      · rw [if_pos hpeek, if_pos (by rw [Mirror.kind_token]; exact hpeek)]
        exact Mirror.advance_at _ hat' fun h => hblind (Mirror.blind_two _ h)
      · rw [if_neg hpeek, if_neg (by rw [Mirror.kind_token]; exact hpeek)]
        exact hat'

/-- In a text that ends at a semicolon a statement is dropped up to a semicolon. -/
theorem skipStatement_swap (hlast : lastKind c.rest = .semicolon)
    (hat : (Mirror.swap [] ws stop).At c d) :
    c.skipStatement.rest ≠ [] ∧ (Mirror.swap [] ws stop).At c.skipStatement d.skipStatement := by
  obtain ⟨t, ht, hkind⟩ := exists_mem_of_lastKind hlast (by decide)
  have hne : c.skipStatement.rest ≠ [] := by
    intro hnil
    have hall := List.dropWhile_eq_nil_iff.1 hnil t ht
    rw [hkind] at hall
    exact absurd hall (by decide)
  obtain ⟨us, hc, hd, hstop⟩ := hat
  rw [List.append_nil] at hc
  refine ⟨hne, c.skipStatement.rest, (List.append_nil _).symm, ?_, hstop⟩
  unfold Cursor.skipStatement at hne ⊢
  dsimp only at hne ⊢
  rw [hd, ← hc, List.dropWhile_append, if_neg fun h => hne (List.isEmpty_iff.1 h)]

section

variable (h : EndsClear limit c) (hc : c.current.kind ≠ .eof)

include h hc

theorem EndsClear.lastKind_eq : lastKind c.rest = .semicolon := by
  apply h.last
  intro hnil
  rw [kind_current, hnil] at hc
  exact hc rfl

/-- A token is left where a statement ends, and if it is the last one it is the semicolon. -/
theorem EndsClear.ok {s : Node} (hs : statementWithin .standard limit c = .ok s d) :
    d.rest ≠ [] ∧ ¬AsksBehind d := by
  have hne : d.rest ≠ [] := by
    intro hnil
    have hlands := statement_lands hs
    rw [kind_current, hnil] at hlands
    exact absurd hlands (by decide)
  refine ⟨hne, fun hasks => hasks.2 ?_⟩
  have hsuffix := ((forward_statementWithin .standard limit).ok hs).suffix
  have hlast : lastKind d.rest = .semicolon :=
    (lastKind_of_suffix hsuffix hne).trans (h.lastKind_eq hc)
  have hlength : d.rest.length = 1 := by
    have hpos := List.length_pos_iff.2 hne
    have hlt := hasks.1
    omega
  obtain ⟨t, ht⟩ := List.length_eq_one_iff.1 hlength
  rw [ht] at hlast
  rw [kind_current, ht]
  exact hlast

/-- A defect that shows only at the end would be one of an open block. -/
theorem EndsClear.error {e : Defect}
    (hs : statementWithin .standard limit c = .error (.defect e) d) :
    e.sight ≤ d.rest.length := by
  refine Nat.not_lt.1 fun hlt => ?_
  have hahead : e.ahead d = [] := by
    apply List.drop_eq_nil_iff.2
    omega
  obtain ⟨us, vs, hsplit, -, hends⟩ := (statement_breaks (expression_breaks limit) hs).completed
  rcases hends hahead with ⟨b, rfl⟩ | hlast
  · exact h.blocks b (mem_defects_of_error hc hs)
  · rw [hahead, List.append_nil] at hsplit
    exact hlast (hsplit ▸ h.lastKind_eq hc)

/-- Each attempt at a statement of the text in front is seen in the whole text. -/
theorem EndsClear.attempt (hat : (Mirror.swap [] ws stop).At c d) :
    ∃ o c' d', attempt (statementWithin .standard limit) c = (.ok o, c') ∧
      attempt (statementWithin .standard limit) d = (.ok (mapOutcome id o), d') ∧
      (Mirror.swap [] ws stop).At c' d' ∧ EndsClear limit c' := by
  have hforward := forward_statementWithin .standard limit
  have hsight {n : Nat} {c : Cursor} (hc : n ≤ c.rest.length) :
      ¬(Mirror.swap [] ws stop).Blind n c := by
    intro hblind
    change c.rest.length < 0 + n at hblind
    omega
  have hagree : (Mirror.swap [] ws stop).Agree (Mirror.swap [] ws stop).node
      (statementWithin .standard limit c) (statementWithin .standard limit d) := by
    refine ((reflects_statement_swap limit ws stop).seen c d hat).resolve_left fun hlost => ?_
    cases hs : statementWithin .standard limit c with
    | ok s c₁ =>
      rw [hs] at hlost
      exact (h.ok hc hs).2 hlost
    | error f c₁ =>
      rw [hs] at hlost
      cases f with
      | oversizedLiteral n => exact h.fits.ne_oversized hs
      | defect e => exact hsight (h.error hc hs) hlost
  obtain ⟨o, c', d', hc', hd', hat'⟩ := attempt_seen hagree (fun n c' => h.fits.ne_oversized)
    (fun {s c₁ d₁} hs hat₁ => by
      have hpos := List.length_pos_iff.2 (h.ok hc hs).1
      exact Mirror.advance_at _ hat₁ (hsight hpos))
    (fun {e c₁ d₁} hs hat₁ => by
      have hpos : 1 ≤ c₁.rest.length := Nat.le_trans e.one_le_sight (h.error hc hs)
      have hsuffix := (hforward.error hs).1.suffix
      have hlast : lastKind c₁.rest = .semicolon :=
        (lastKind_of_suffix hsuffix (List.length_pos_iff.1 hpos)).trans (h.lastKind_eq hc)
      obtain ⟨hskip, hat₂⟩ := skipStatement_swap hlast hat₁
      exact ⟨Mirror.advance_at _ hat₁ (hsight hpos),
        Mirror.advance_at _ hat₂ (hsight (List.length_pos_iff.2 hskip))⟩)
  -- what is left of the text in front ends clear as well
  have hreaches := reaches_of_attempt hforward hc'
  have hrun := runFrom_of_attempt hc hc' (attempt_lt hforward hc hc')
  refine ⟨o, c', d', hc', hd', hat', ⟨fun t ht => h.kinds t (hreaches.suffix.mem ht),
    h.fits.of_reaches hreaches, fun hne => ?_, fun b hb => h.blocks b ?_⟩⟩
  · exact (lastKind_of_suffix hreaches.suffix hne).trans (h.lastKind_eq hc)
  · rw [hrun]
    exact Run.mem_defects_cons hb o

end

end

theorem mapOutcome_id (o : Except Defect Node) : mapOutcome id o = o := by
  cases o with
  | ok s => exact congrArg Except.ok s.mapTokens_id
  | error e => exact congrArg Except.error e.mapTokens_id

/-- Reading goes on behind a semicolon as it would start there. -/
theorem outcomes_of_endsClear {limit : Nat} {c d : Cursor} {ws : List Token}
    (h : EndsClear limit c) (hd : d.rest = c.rest ++ ws) :
    (runFrom (statementWithin .standard limit) d).outcomes =
      (runFrom (statementWithin .standard limit) c).outcomes ++
        (runFrom (statementWithin .standard limit) (.before ws d.stop)).outcomes := by
  have hat : (Mirror.swap [] ws d.stop).At c d := ⟨c.rest, (List.append_nil _).symm, hd, rfl⟩
  obtain ⟨c', d', ⟨us, hc', hd', hstop⟩, hclear, hend, -, hrun⟩ :=
    runFrom_seen (forward_statementWithin .standard limit) (EndsClear limit)
      (fun {c d} hclear hat hc => by
        refine ⟨?_, hclear.attempt hc hat⟩
        obtain ⟨us, hrest, hrest', -⟩ := hat
        rw [List.append_nil] at hrest
        rw [kind_current] at hc ⊢
        rw [hrest', ← hrest, nextKind_append _ _ hc]
        exact hc)
      h hat
  -- the run in front has come to its end, and the other one stands where the rest starts
  have hnil : us = [] := by
    rw [List.append_nil] at hc'
    exact hc'.symm.trans ((current_eq_eof_iff hclear.kinds).1 hend)
  have hbefore : d' = .before ws d.stop := by
    rw [hnil] at hd'
    exact Cursor.ext hd' hstop
  have hid : mapOutcome (Mirror.swap [] ws d.stop).token = id := funext mapOutcome_id
  rw [hrun, hid, List.map_id, hbefore]

/-- Further down, a defect is reported with the same message and in the same column. -/
theorem Defect.diagnostic_down (k : Int) (e : Defect) : (e.mapTokens (Token.down k)).diagnostic =
    ⟨e.message, ⟨e.token.position.line + k, e.token.position.column⟩⟩ := by
  have hmessage : (e.mapTokens (Token.down k)).message = e.message :=
    message_mapTokens (f := Token.down k) (fun _ => rfl) (fun _ => rfl) e
  unfold diagnostic
  rw [hmessage, token_mapTokens]
  rfl

/-- Two texts with a semicolon and a line feed between them are read like each of them alone, unless
the first one leaves a block open. -/
theorem parseWithin_joined (limit : Nat) (s₁ s₂ : String)
    (hlast : lastKind (tokenize s₁).dropLast = .semicolon)
    (hblocks : ∀ b, .unterminatedBlock b ∉ (parseWithin limit s₁).defects)
    (hdigits₁ : ∀ t ∈ tokenize s₁, t.kind = .int → t.literal.toList.length ≤ maxDigits)
    (hdigits₂ : ∀ t ∈ tokenize s₂, t.kind = .int → t.literal.toList.length ≤ maxDigits) :
    let lines : Int := 1 + s₁.toList.count '\n'
    let joined := parseWithin limit (s₁ ++ "\n" ++ s₂)
    joined.oversized = none ∧
      joined.statements = (parseWithin limit s₁).statements ++
        (parseWithin limit s₂).statements.map (Node.mapTokens (Token.down lines)) ∧
      joined.defects = (parseWithin limit s₁).defects ++
        (parseWithin limit s₂).defects.map (Defect.mapTokens (Token.down lines)) ∧
      joined.defects.map Defect.diagnostic = (parseWithin limit s₁).defects.map Defect.diagnostic ++
        (parseWithin limit s₂).defects.map fun e =>
          ⟨e.message, ⟨e.token.position.line + lines, e.token.position.column⟩⟩ := by
  intro lines joined
  have hrest₁ : ∀ t ∈ (Cursor.ofString s₁).rest, t.kind = .int →
      t.literal.toList.length ≤ maxDigits := fun t ht => hdigits₁ t (List.mem_append_left _ ht)
  have hrest₂ : ∀ t ∈ (Cursor.ofString s₂).rest, t.kind = .int →
      t.literal.toList.length ≤ maxDigits := fun t ht => hdigits₂ t (List.mem_append_left _ ht)
  have hrest : (Cursor.ofString (s₁ ++ "\n" ++ s₂)).rest =
      (Cursor.ofString s₁).rest ++ (Cursor.ofString s₂).rest.map (Token.down lines) :=
    rest_joined s₁ s₂
  have hstop : Token.finish (Cursor.ofString (s₁ ++ "\n" ++ s₂)).stop =
      Token.down lines (.finish (Cursor.ofString s₂).stop) :=
    congrArg Token.finish (stop_joined s₁ s₂)
  -- nothing that is read of the first text depends on the second one
  have hclear : EndsClear limit (.ofString s₁) :=
    { kinds := fun t ht => (isLexical_of_mem_lex ht).kind_ne_eof
      fits := hrest₁
      last := fun _ => by rw [← dropLast_tokenize, hlast]
      blocks := hblocks }
  have houtcomes : joined.outcomes = (parseWithin limit s₁).outcomes ++
      (parseWithin limit s₂).outcomes.map (mapOutcome (Token.down lines)) := by
    have hfront := outcomes_of_endsClear hclear hrest
    have hback := (runFrom_image (f := Token.down lines) (fun _ => rfl) (fun _ => rfl) limit
      (c := .ofString s₂) (d := .before _ _) ⟨rfl, hstop⟩).1
    rw [hback] at hfront
    exact hfront
  have hdefects := Run.defects_of_outcomes houtcomes
  refine ⟨oversized_eq_none fun t ht => ?_, Run.statements_of_outcomes houtcomes, hdefects, ?_⟩
  · rw [hrest] at ht
    rcases List.mem_append.1 ht with ht | ht
    · exact hrest₁ t ht
    · obtain ⟨u, hu, rfl⟩ := List.mem_map.1 ht
      exact hrest₂ u hu
  · rw [hdefects, List.map_append, List.map_map]
    exact congrArg _ (List.map_congr_left fun e _ => e.diagnostic_down lines)

/-- Expressions are nested too deeply in both texts, and what is reported and read of the second one
moves down behind the two lines of the first. -/
theorem parseWithin_joined_of_defects :
    let s₁ := "!!!x;\nf(1 2;"
    let s₂ := "y\nlet 1; !!!z"
    lastKind (tokenize s₁).dropLast = .semicolon ∧
    (∀ b, .unterminatedBlock b ∉ (parseWithin 3 s₁).defects) ∧
    (∀ t ∈ tokenize s₁, t.kind = .int → t.literal.toList.length ≤ maxDigits) ∧
    (∀ t ∈ tokenize s₂, t.kind = .int → t.literal.toList.length ≤ maxDigits) ∧
    (parseWithin 3 (s₁ ++ "\n" ++ s₂)).oversized = none ∧
    (parseWithin 3 (s₁ ++ "\n" ++ s₂)).statements.map Node.token =
      [⟨.int, "2", ⟨2, 5⟩⟩, ⟨.ident, "y", ⟨3, 1⟩⟩, ⟨.int, "1", ⟨4, 5⟩⟩] ∧
    (parseWithin 3 (s₁ ++ "\n" ++ s₂)).defects =
      [.nestedTooDeeply ⟨.ident, "x", ⟨1, 4⟩⟩, .unexpected .rparen ⟨.int, "2", ⟨2, 5⟩⟩,
        .unexpected .ident ⟨.int, "1", ⟨4, 5⟩⟩, .nestedTooDeeply ⟨.ident, "z", ⟨4, 11⟩⟩] ∧
    (parseWithin 3 (s₁ ++ "\n" ++ s₂)).defects.map Defect.diagnostic =
      [⟨"expression nested too deeply", ⟨1, 4⟩⟩,
        ⟨"expected next token to be RPAREN, got '2' instead", ⟨2, 5⟩⟩,
        ⟨"expected next token to be IDENT, got '1' instead", ⟨4, 5⟩⟩,
        ⟨"expression nested too deeply", ⟨4, 11⟩⟩] := by
  intro s₁ s₂
  have hlast : lastKind (tokenize s₁).dropLast = .semicolon := by decide +kernel
  have hdefects : (parseWithin 3 s₁).defects =
      [.nestedTooDeeply ⟨.ident, "x", ⟨1, 4⟩⟩, .unexpected .rparen ⟨.int, "2", ⟨2, 5⟩⟩] := by
    decide +kernel
  have hblocks : ∀ b, .unterminatedBlock b ∉ (parseWithin 3 s₁).defects := by
    rw [hdefects]
    simp
  have hdigits₁ : ∀ t ∈ tokenize s₁, t.kind = .int → t.literal.toList.length ≤ maxDigits := by
    decide +kernel
  have hdigits₂ : ∀ t ∈ tokenize s₂, t.kind = .int → t.literal.toList.length ≤ maxDigits := by
    decide +kernel
  obtain ⟨hoversized, hstatements, hjoined, hreported⟩ :=
    parseWithin_joined 3 s₁ s₂ hlast hblocks hdigits₁ hdigits₂
  have htokens := congrArg (List.map Node.token) hstatements
  exact ⟨hlast, hblocks, hdigits₁, hdigits₂, hoversized, htokens.trans (by decide +kernel),
    hjoined.trans (by decide +kernel), hreported.trans (by decide +kernel)⟩

end MonkeySyntax
