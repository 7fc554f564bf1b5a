import MonkeySyntax.Proofs.Gaps

/-!
# Scanning character by character

The scanning steps of a reader are defined by the text ahead. Here they are also written as loops
that look at one character and take it, with the request that can be refused as the only way to
move. Both come to the same, wherever the reader stands, so none of the loops is ever refused a
character: each takes only what it has seen.
-/

namespace MonkeySyntax

namespace Reader

section

variable {r r' : Reader} {c : Char} {cs ds : List Char} {p : Char → Bool}

/-- A look at a distance sees what stands behind as many characters. -/
theorem peek_of_append (h : r.rest = cs ++ ds) : r.peek cs.length = ds.head? := by
  unfold rest at h
  unfold peek
  dsimp only
  split at h
  · next hneg =>
    -- in front of the text nothing is ahead, so nothing has been passed
    obtain ⟨rfl, rfl⟩ := List.append_eq_nil_iff.1 h.symm
    rw [List.length_nil, Int.natCast_zero, Int.add_zero, if_pos hneg]
    rfl
  · next hneg =>
    have hindex : ¬r.offset + cs.length < 0 := by omega
    have hnat : (r.offset + cs.length).toNat = r.offset.toNat + cs.length := by omega
    rw [if_neg hindex, hnat, ← List.getElem?_drop, h, List.getElem?_append_right (Nat.le_refl _),
      Nat.sub_self, List.head?_eq_getElem?]

theorem peek_zero (r : Reader) : r.peek 0 = r.rest.head? :=
  peek_of_append (List.nil_append r.rest).symm

theorem next_of_cons (h : r.rest = c :: cs) : r.next = .ok (c, r.past [c]) := by
  unfold rest at h
  split at h
  · cases h
  · next hneg =>
    have hget : r.source[r.offset.toNat]? = some c := by
      rw [← List.head?_drop, h]
      rfl
    have hlt : r.offset.toNat < r.source.length := (List.getElem?_eq_some_iff.1 hget).1
    have hend : r.atEnd = false := decide_eq_false (by omega)
    unfold next
    rw [hend, if_neg Bool.false_ne_true, if_neg hneg]
    dsimp only
    rw [if_neg hneg, hget]

theorem rest_past_singleton (h : r.rest = c :: cs) : (r.past [c]).rest = cs :=
  rest_past h

/-- Only behind all text is the next character refused, unless the reader stands in front of the
text. -/
theorem next_of_nil (hoffset : 0 ≤ r.offset) (h : r.rest = []) :
    r.next = .error (.pastEnd r.offset r.position.line) := by
  unfold rest at h
  rw [if_neg (Int.not_lt.2 hoffset), List.drop_eq_nil_iff] at h
  have hend : r.atEnd = true := decide_eq_true (by omega)
  unfold next
  rw [if_pos hend]

theorem length_rest_of_next (hp : (r.peek 0).any p = true) (h : r.next = .ok (c, r')) :
    r'.rest.length < r.rest.length := by
  rw [peek_zero] at hp
  cases hrest : r.rest with
  | nil =>
    rw [hrest] at hp
    cases hp
  | cons d ds =>
    rw [next_of_cons hrest] at h
    cases h
    rw [rest_past_singleton hrest]
    exact Nat.lt_succ_self _

end

def nextWhile (p : Char → Bool) (r : Reader) : Except Fault Reader :=
  if _hp : (r.peek 0).any p then
    match _h : r.next with
    | .ok (_, r') => nextWhile p r'
    | .error f => .error f
  else .ok r
termination_by r.rest.length
decreasing_by exact length_rest_of_next _hp _h

def nextTimes : Nat → Reader → Except Fault Reader
  | 0, r => .ok r
  | n + 1, r => do
    let (_, r') ← r.next
    nextTimes n r'

/-- The characters of the text from one offset to another. Offsets in front of the text count from
the end of the text. -/
def stretch (source : List Char) (i j : Int) : List Char :=
  let index (k : Int) : Nat := (if k < 0 then source.length + k else k).toNat
  (source.take (index j)).drop (index i)

/-- Looks at up to `n` further characters behind those in `seen`, and keeps the last text on the way
that is an operator or a delimiter. -/
def widest (r : Reader) : (n : Nat) → (seen : List Char) → (best : Option (Kind × List Char)) →
    Option (Kind × List Char)
  | 0, _, best => best
  | n + 1, seen, best =>
    match r.peek seen.length with
    | none => best
    | some c =>
      match Kind.ofSymbol? (String.ofList (seen ++ [c])) with
      | some k => r.widest n (seen ++ [c]) (some (k, seen ++ [c]))
      | none => r.widest n (seen ++ [c]) best

def symbolEach (r : Reader) : Except Fault (Option Token × Reader) :=
  match r.widest Kind.maxSymbolLength [] none with
  | none => .ok (none, r)
  | some (k, cs) => do
    let r' ← nextTimes cs.length r
    .ok (some ⟨k, String.ofList cs, r.position⟩, r')

def runEach (p : Char → Bool) (r : Reader) : Except Fault (List Char × Reader) := do
  let r' ← nextWhile p r
  .ok (stretch r.source r.offset r'.offset, r')

def tokenEach (r : Reader) : Except Fault (Token × Reader) := do
  let r ← nextWhile isLayout r
  match r.peek 0 with
  | none => .ok (.finish r.position, r)
  | some c =>
    if isLetter c then
      let (cs, r') ← runEach isLetter r
      .ok (⟨.ofWord (String.ofList cs), String.ofList cs, r.position⟩, r')
    else if c.isDigit then
      let (cs, r') ← runEach Char.isDigit r
      .ok (⟨.int, String.ofList cs, r.position⟩, r')
    else
      match ← r.symbolEach with
      | (some t, r') => .ok (t, r')
      | (none, _) =>
        let (c, r') ← r.next
        .ok (⟨.illegal, String.ofList [c], r.position⟩, r')

/-- The loop takes the run that is ahead and is not refused a character of it. -/
theorem nextWhile_eq (p : Char → Bool) (r : Reader) :
    nextWhile p r = .ok (r.past (r.rest.takeWhile p)) := by
  induction hrest : r.rest generalizing r with
  | nil =>
    have hpeek : ¬(r.peek 0).any p = true := by
      rw [peek_zero, hrest]
      exact Bool.false_ne_true
    rw [nextWhile, dif_neg hpeek, List.takeWhile_nil, past_nil]
  | cons c cs ih =>
    have hpeek : (r.peek 0).any p = p c := by
      rw [peek_zero, hrest]
      rfl
    rw [nextWhile]
    by_cases hc : p c = true
    · rw [dif_pos (hpeek.trans hc)]
      -- the character in sight is there to be taken
      split
      · next d r' hnext =>
        rw [next_of_cons hrest] at hnext
        cases hnext
        rw [ih _ (rest_past_singleton hrest), past_past, List.takeWhile_cons_of_pos hc,
          List.singleton_append]
      · next f hnext =>
        rw [next_of_cons hrest] at hnext
        cases hnext
    · rw [dif_neg (hpeek ▸ hc), List.takeWhile_cons_of_neg hc, past_nil]

theorem nextWhile_isLayout (r : Reader) : nextWhile isLayout r = .ok r.skipLayout :=
  nextWhile_eq isLayout r

theorem nextTimes_eq {r : Reader} {cs ds : List Char} (h : r.rest = cs ++ ds) :
    nextTimes cs.length r = .ok (r.past cs) := by
  induction cs generalizing r with
  | nil => rw [past_nil]; rfl
  | cons c cs ih =>
    calc nextTimes (c :: cs).length r
        = r.next >>= fun b => nextTimes cs.length b.2 := rfl
      _ = nextTimes cs.length (r.past [c]) := by rw [next_of_cons h]; rfl
      _ = .ok (r.past (c :: cs)) := by
          rw [ih (rest_past_singleton h), past_past, List.singleton_append]

theorem stretch_self (source : List Char) (i : Int) : stretch source i i = [] :=
  List.drop_eq_nil_of_le (List.length_take_le _ _)

/-- What stands between two places is what was taken from one to the other. -/
theorem stretch_past {r : Reader} {cs ds : List Char} (h : r.rest = cs ++ ds) :
    stretch r.source r.offset (r.past cs).offset = cs := by
  unfold rest at h
  split at h
  · obtain ⟨rfl, rfl⟩ := List.append_eq_nil_iff.1 h.symm
    rw [past_nil, stretch_self]
  · next hneg =>
    have hoffset : (r.past cs).offset = r.offset + cs.length := rfl
    have hbehind : ¬r.offset + cs.length < 0 := by omega
    have hnat : (r.offset + cs.length).toNat = r.offset.toNat + cs.length := by omega
    unfold stretch
    dsimp only
    rw [hoffset, if_neg hneg, if_neg hbehind, hnat, List.drop_take, h, Nat.add_sub_cancel_left,
      List.take_left]

theorem runEach_eq (p : Char → Bool) (r : Reader) : runEach p r = .ok (r.takeRun p) := by
  unfold runEach
  rw [nextWhile_eq]
  change Except.ok _ = _
  rw [stretch_past List.takeWhile_append_dropWhile.symm]
  rfl

/-- Beyond the end of a text no longer operator or delimiter is found. -/
theorem longestSymbol?_of_length_le {n : Nat} {cs : List Char} (h : cs.length ≤ n) :
    longestSymbol? n cs = longestSymbol? cs.length cs := by
  induction n with
  | zero => rw [Nat.le_zero.1 h]
  | succ n ih =>
    rcases Nat.lt_or_ge n cs.length with hlt | hle
    · rw [Nat.le_antisymm h hlt]
    · have htake : cs.take (n + 1) = cs := List.take_of_length_le (Nat.le_succ_of_le hle)
      have hdrop : cs.drop (n + 1) = [] := List.drop_eq_nil_of_le (Nat.le_succ_of_le hle)
      rw [longestSymbol?, htake, hdrop]
      cases hkind : Kind.ofSymbol? (String.ofList cs) with
      | none => exact ih hle
      | some k =>
        -- the whole text has been found, and is found at once as well
        cases cs with
        | nil => cases hkind
        | cons c cs =>
          dsimp only
          rw [List.length_cons, longestSymbol?, ← List.length_cons, List.take_length,
            List.drop_length, hkind]

/-- The texts that have been looked at decide as if they had been tried from the longest on. -/
theorem widest_eq {r : Reader} {seen behind : List Char} (h : r.rest = seen ++ behind) (n : Nat) :
    r.widest n seen ((longestSymbol? seen.length r.rest).map fun l => (l.kind, l.text)) =
      (longestSymbol? (seen.length + n) r.rest).map fun l => (l.kind, l.text) := by
  induction n generalizing seen behind with
  | zero => rfl
  | succ n ih =>
    unfold widest
    rw [peek_of_append h]
    cases behind with
    | nil =>
      rw [List.append_nil] at h
      dsimp only [List.head?_nil]
      rw [h, longestSymbol?_of_length_le (Nat.le_add_right _ _)]
    | cons c behind =>
      have hseen : r.rest = (seen ++ [c]) ++ behind := by
        rw [h, List.append_assoc, List.singleton_append]
      have hih := ih hseen
      have htake : r.rest.take (seen.length + 1) = seen ++ [c] := by
        rw [hseen]
        exact List.take_left' List.length_append
      rw [List.length_append, List.length_singleton, longestSymbol?, htake] at hih
      dsimp only [List.head?_cons]
      rw [show seen.length + (n + 1) = seen.length + 1 + n by omega, ← hih]
      cases Kind.ofSymbol? (String.ofList (seen ++ [c])) <;> rfl

theorem symbolEach_eq (r : Reader) : r.symbolEach = .ok r.takeSymbol := by
  have hwidest : r.widest Kind.maxSymbolLength [] none =
      (symbol? r.rest).map fun l => (l.kind, l.text) := by
    have hwidest := widest_eq (List.nil_append r.rest).symm Kind.maxSymbolLength
    rw [List.length_nil, Nat.zero_add] at hwidest
    exact hwidest
  unfold symbolEach takeSymbol
  rw [hwidest]
  cases hsymbol : symbol? r.rest with
  | none => rfl
  | some l =>
    dsimp only [Option.map_some]
    rw [nextTimes_eq (longestSymbol?_split hsymbol).1.symm]
    rfl

/-- A token that is taken character by character is the one defined by the text ahead. -/
theorem tokenEach_eq (r : Reader) : r.tokenEach = .ok r.takeToken := by
  unfold tokenEach
  rw [nextWhile_isLayout]
  change (match r.skipLayout.peek 0 with | none => _ | some c => _) = _
  rw [peek_zero]
  cases hrest : r.skipLayout.rest with
  | nil =>
    rw [takeToken_of_nil hrest]
    rfl
  | cons c cs =>
    rw [takeToken_of_cons hrest]
    dsimp only [List.head?_cons]
    by_cases hletter : isLetter c = true
    · rw [if_pos hletter, runEach_eq, lexeme_of_isLetter hletter, takeRun, hrest,
        List.takeWhile_cons_of_pos hletter]
      rfl
    · rw [if_neg hletter]
      by_cases hdigit : c.isDigit = true
      · rw [if_pos hdigit, runEach_eq, lexeme_of_isDigit hdigit, takeRun, hrest,
          List.takeWhile_cons_of_pos hdigit]
        rfl
      · have hmark : isMark c = true :=
          isMark_iff.2 ⟨Bool.eq_false_iff.2 hletter, Bool.eq_false_iff.2 hdigit,
            not_isLayout_of_cons hrest⟩
        rw [if_neg hdigit, symbolEach_eq, lexeme_of_isMark hmark, takeSymbol, hrest]
        cases symbol? (c :: cs) with
        | none =>
          dsimp only [Option.getD_none]
          rw [next_of_cons hrest]
          rfl
        | some l => rfl

theorem length_rest_of_tokenEach {r r' : Reader} {t : Token} (h : r.tokenEach = .ok (t, r'))
    (ht : t.kind ≠ .eof) : r'.rest.length < r.rest.length := by
  obtain ⟨rfl, rfl⟩ := Prod.ext_iff.1 (Except.ok.inj (r.tokenEach_eq.symm.trans h))
  exact length_rest_takeToken ht

def allEach (r : Reader) : Except Fault (List Token × Reader) :=
  match _h : r.tokenEach with
  | .error f => .error f
  | .ok (t, r') =>
    if _ht : t.kind = .eof then .ok ([t], r')
    else do
      let (ts, r'') ← r'.allEach
      .ok (t :: ts, r'')
termination_by r.rest.length
decreasing_by exact length_rest_of_tokenEach _h _ht

theorem Yields.allEach_eq {r r' : Reader} {ts : List Token} (h : r.Yields ts r') :
    r.allEach = .ok (ts, r') := by
  induction h with
  | finish htake ht =>
    rw [allEach, tokenEach_eq, htake]
    exact dif_pos ht
  | token htake ht _ ih =>
    rw [allEach, tokenEach_eq, htake]
    dsimp only
    rw [dif_neg ht, ih]
    rfl

theorem allEach_eq (r : Reader) : r.allEach = .ok r.takeAll :=
  r.yields_takeAll.allEach_eq

/-- One step of a session, made by these loops. -/
def stepEach (r : Reader) : Call → Except Fault (Answer × Reader)
  | .next => do let (c, r') ← r.next; .ok (.character c, r')
  | .peek distance => .ok (.ahead (r.peek distance), r)
  | .atEnd => .ok (.flag r.atEnd, r)
  | .skipLayout => do let r' ← nextWhile isLayout r; .ok (.done, r')
  | .symbol => do let (t, r') ← r.symbolEach; .ok (.symbol t, r')
  | .letters => do let (cs, r') ← runEach isLetter r; .ok (.run cs, r')
  | .digits => do let (cs, r') ← runEach Char.isDigit r; .ok (.run cs, r')
  | .token => do let (t, r') ← r.tokenEach; .ok (.token t, r')
  | .all => do let (ts, r') ← r.allEach; .ok (.tokens ts, r')

/-- Nothing but the plain request for the next character is ever refused. -/
theorem stepEach_eq (r : Reader) {call : Call} (h : call ≠ .next) :
    r.stepEach call = .ok (r.step call) := by
  unfold stepEach
  cases call with
  | next => exact absurd rfl h
  | peek | atEnd => rfl
  | skipLayout => rw [nextWhile_isLayout]; rfl
  | symbol => rw [symbolEach_eq]; rfl
  | letters | digits => dsimp only [stepEach]; rw [runEach_eq]; rfl
  | token => rw [tokenEach_eq]; rfl
  | all => rw [allEach_eq]; rfl

end Reader

end MonkeySyntax
