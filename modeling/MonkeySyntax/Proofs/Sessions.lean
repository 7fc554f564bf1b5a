import MonkeySyntax.Proofs.Scanning

namespace MonkeySyntax

namespace Reader

def Answer.lastToken? : Answer → Option Token
  | .token t => some t
  | .tokens ts => ts.getLast?
  | _ => none

/-- Whether an answer is what the characters `cs` that were passed for it make it: they are the
character, the run or the operator, or tokens with the layout in front of them. An answer that holds
no text was given without passing any. -/
inductive Answer.Tells (p : Position) : List Char → Answer → Prop
  | done {cs : List Char} (h : IsGap cs) : Answer.Tells p cs .done
  | flag (b : Bool) : Answer.Tells p [] (.flag b)
  | ahead (c : Option Char) : Answer.Tells p [] (.ahead c)
  | fault (f : Fault) : Answer.Tells p [] (.fault f)
  | character (c : Char) : Answer.Tells p [c] (.character c)
  | run (cs : List Char) : Answer.Tells p cs (.run cs)
  | noSymbol : Answer.Tells p [] (.symbol none)
  | symbol {cs : List Char} {t : Token} (h : MakesUp p cs [⟨[], t⟩]) :
      Answer.Tells p cs (.symbol (some t))
  | token {cs : List Char} {t : Token} (h : MakesUp p cs [⟨cs.takeWhile isLayout, t⟩]) :
      Answer.Tells p cs (.token t)
  | tokens {cs : List Char} {ss : List Spaced} (h : MakesUp p cs ss) :
      Answer.Tells p cs (.tokens (ss.map Spaced.token))

/-- The reader behind calls that are made one after the other, whatever becomes of each. -/
def through (r : Reader) (calls : List Call) : Reader :=
  calls.foldl (fun r call => (r.step call).2) r

/-- Whether a reader is where a session may have led that began at `start`: between the start and
the end of the same text, in the line and the column that counting leads to. -/
structure StandsBehind (start r : Reader) : Prop where
  source_eq : r.source = start.source
  start_le : start.offset ≤ r.offset
  le_end : r.offset ≤ start.source.length
  position_eq : r.position = start.position.counted (stretch start.source start.offset r.offset)

structure Keeps (start r : Reader) (call : Call) : Prop where
  before : start.StandsBehind r
  behind : start.StandsBehind (r.step call).2
  offset_le : r.offset ≤ (r.step call).2.offset
  tells : (r.step call).1.Tells r.position (stretch r.source r.offset (r.step call).2.offset)
  returns : ∀ b, r.stepEach call = .ok b → r.step call = b
  raises : ∀ f, r.stepEach call = .error f → r.step call = (.fault f, r)
  raises_iff : (∃ f, r.stepEach call = .error f) ↔ call = .next ∧ r.offset = r.source.length
  finished : ∀ t, (r.step call).1.lastToken? = some t → t.kind = .eof →
    ∀ later, (r.step call).2.through later = (r.step call).2 ∧
      (r.step call).2.step .token = (.token t, (r.step call).2)

structure Passes (r : Reader) (call : Call) (cs : List Char) : Prop where
  ahead : cs <+: r.rest
  step_eq : (r.step call).2 = r.past cs
  tells : (r.step call).1.Tells r.position cs

theorem makesUp_singleton {p : Position} {cs gap : List Char} {t : Token} (hgap : IsGap gap)
    (hcs : cs = gap ++ t.literal.toList) (hposition : t.position = p.past gap) :
    MakesUp p cs [⟨gap, t⟩] := by
  have h : MakesUp p (Spaced.text ⟨gap, t⟩ ++ []) [⟨gap, t⟩] :=
    MakesUp.cons hgap hposition (makesUp_nil _)
  rw [List.append_nil] at h
  rw [hcs]
  exact h

theorem passes_symbol (r : Reader) : ∃ cs, r.Passes .symbol cs := by
  have hstep : r.step .symbol = (.symbol r.takeSymbol.1, r.takeSymbol.2) := rfl
  unfold takeSymbol at hstep
  cases hsymbol : symbol? r.rest with
  | none =>
    rw [hsymbol] at hstep
    refine ⟨[], List.nil_prefix, ?_, ?_⟩ <;> rw [hstep]
    · exact past_nil.symm
    · exact Answer.Tells.noSymbol
  | some l =>
    rw [hsymbol] at hstep
    refine ⟨l.text, ⟨l.rest, (longestSymbol?_split hsymbol).1⟩, ?_, ?_⟩ <;> rw [hstep]
    exact Answer.Tells.symbol (makesUp_singleton isGap_nil String.toList_ofList.symm rfl)

/-- A token is taken with the layout in front of it and with nothing else. -/
theorem passes_token (r : Reader) : ∃ cs, r.Passes .token cs := by
  have hstep : r.step .token = (.token r.takeToken.1, r.takeToken.2) := rfl
  have hgap := isGap_takeWhile r.rest
  cases hrest : r.skipLayout.rest with
  | nil =>
    -- nothing but layout is ahead
    rw [takeToken_of_nil hrest] at hstep
    have hall : r.rest.takeWhile isLayout = r.rest := by
      rw [rest_skipLayout] at hrest
      have h := List.takeWhile_append_dropWhile (p := isLayout) (l := r.rest)
      rwa [hrest, List.append_nil] at h
    refine ⟨r.rest, List.prefix_refl _, ?_, ?_⟩ <;> rw [hstep]
    · change r.past _ = _
      rw [hall]
    · refine Answer.Tells.token (makesUp_singleton hgap ?_ rfl)
      rw [hall]
      exact (List.append_nil _).symm
  | cons c cs =>
    rw [takeToken_of_cons hrest] at hstep
    obtain ⟨hsplit, hne⟩ := lexeme_split c cs
    have hahead : r.rest.takeWhile isLayout ++ ((lexeme c cs).text ++ (lexeme c cs).rest) =
        r.rest := by
      rw [hsplit, ← hrest, rest_skipLayout, List.takeWhile_append_dropWhile]
    -- the token starts where the layout ends
    have hhead (d : Char) (hd : (lexeme c cs).text.head? = some d) : isLayout d = false := by
      obtain ⟨e, text, htext⟩ := List.exists_cons_of_ne_nil hne
      rw [htext] at hsplit hd
      rw [← Option.some.inj hd, (List.cons.inj hsplit).1]
      exact not_isLayout_of_cons hrest
    have hall : (r.rest.takeWhile isLayout ++ (lexeme c cs).text).takeWhile isLayout =
        r.rest.takeWhile isLayout :=
      (takeWhile_run (fun d hd => isLayout_iff.2 (hgap d hd)) hhead).1
    refine ⟨r.rest.takeWhile isLayout ++ (lexeme c cs).text, ?_, ?_, ?_⟩
    · exact ⟨(lexeme c cs).rest, by rw [List.append_assoc, hahead]⟩
    · rw [hstep, ← past_past]
      rfl
    · rw [hstep]
      refine Answer.Tells.token ?_
      rw [hall]
      exact makesUp_singleton hgap (by rw [String.toList_ofList]) rfl

/-- Every call is answered by passing text that is ahead. -/
theorem exists_passes {r : Reader} (hr : 0 ≤ r.offset) (call : Call) : ∃ cs, r.Passes call cs := by
  cases call with
  | next =>
    cases hrest : r.rest with
    | nil =>
      have hstep : r.step .next = (.fault (.pastEnd r.offset r.position.line), r) := by
        dsimp only [step]
        rw [next_of_nil hr hrest]
      refine ⟨[], List.nil_prefix, ?_, ?_⟩ <;> rw [hstep]
      · exact past_nil.symm
      · exact Answer.Tells.fault _
    | cons c cs =>
      have hstep : r.step .next = (.character c, r.past [c]) := by
        dsimp only [step]
        rw [next_of_cons hrest]
      refine ⟨[c], ⟨cs, hrest.symm⟩, ?_, ?_⟩ <;> rw [hstep]
      exact Answer.Tells.character c
  | peek distance => exact ⟨[], List.nil_prefix, past_nil.symm, Answer.Tells.ahead _⟩
  | atEnd => exact ⟨[], List.nil_prefix, past_nil.symm, Answer.Tells.flag _⟩
  | skipLayout =>
    exact ⟨_, List.takeWhile_prefix _, rfl, Answer.Tells.done (isGap_takeWhile r.rest)⟩
  | symbol => exact passes_symbol r
  | letters | digits => exact ⟨_, List.takeWhile_prefix _, rfl, Answer.Tells.run _⟩
  | token => exact passes_token r
  | all =>
    obtain ⟨ss, htokens, hmakes⟩ := exists_makesUp r.position r.rest
    have hstep : r.step .all = (.tokens (ss.map Spaced.token), r.past r.rest) := by
      rw [htokens]
      rfl
    refine ⟨r.rest, List.prefix_refl _, ?_, ?_⟩ <;> rw [hstep]
    exact Answer.Tells.tokens hmakes

/-- At the end of the text no call moves the reader. -/
theorem rest_through_nil {r : Reader} (hr : 0 ≤ r.offset) (hrest : r.rest = [])
    (later : List Call) : r.through later = r := by
  induction later with
  | nil => rfl
  | cons call later ih =>
    obtain ⟨cs, h⟩ := exists_passes hr call
    have hcs : cs = [] := List.prefix_nil.1 (hrest ▸ h.ahead)
    have hstep : (r.step call).2 = r := by rw [h.step_eq, hcs, past_nil]
    calc r.through (call :: later)
        = (r.step call).2.through later := rfl
      _ = r := by rw [hstep, ih]

theorem takeToken_of_rest_eq_nil {r : Reader} (hrest : r.rest = []) :
    r.takeToken = (.finish r.position, r) := by
  have hskip : r.skipLayout = r := by
    rw [skipLayout, hrest, List.takeWhile_nil, past_nil]
  have htake := takeToken_of_nil (r := r) (by rw [hskip, hrest])
  rwa [hskip] at htake

theorem step_token_of_nil {r : Reader} (hrest : r.rest = []) :
    r.step .token = (.token (.finish r.position), r) := by
  dsimp only [step]
  rw [takeToken_of_rest_eq_nil hrest]

/-- Where the end of the text has been announced no text is ahead. -/
theorem rest_of_lastToken? {r : Reader} {call : Call} {t : Token}
    (h : (r.step call).1.lastToken? = some t) (ht : t.kind = .eof) :
    (r.step call).2.rest = [] ∧ t = .finish (r.step call).2.position := by
  cases call with
  | token =>
    change some r.takeToken.1 = some t at h
    change r.takeToken.2.rest = [] ∧ t = .finish r.takeToken.2.position
    cases hrest : r.skipLayout.rest with
    | nil =>
      rw [takeToken_of_nil hrest] at h ⊢
      exact ⟨hrest, (Option.some.inj h).symm⟩
    | cons c cs =>
      rw [takeToken_of_cons hrest] at h
      rw [← Option.some.inj h] at ht
      exact absurd ht (lexical_lexeme c cs).kind_ne_eof
  | all =>
    change (r.lexed.tokens ++ [Token.finish r.lexed.stop]).getLast? = some t at h
    rw [List.getLast?_concat, lexed, stop_lex] at h
    exact ⟨rest_past (List.append_nil r.rest).symm, (Option.some.inj h).symm⟩
  | next =>
    dsimp only [step] at h
    cases hnext : r.next with
    | ok b => rw [hnext] at h; cases h
    | error f => rw [hnext] at h; cases h
  | peek | atEnd | skipLayout | symbol | letters | digits => cases h

/-- What is ahead of the start is what a session has passed and what it has not. -/
theorem exists_through {start : Reader} (hstart : 0 ≤ start.offset) (past : List Call) :
    ∃ cs, cs <+: start.rest ∧ start.through past = start.past cs := by
  -- the last call is the one that is added, for it is made where the others have led
  induction past using List.reverseRecOn with
  | nil => exact ⟨[], List.nil_prefix, past_nil.symm⟩
  | append_singleton past call ih =>
    obtain ⟨cs, ⟨ds, hds⟩, hpast⟩ := ih
    have hoffset : 0 ≤ (start.past cs).offset :=
      Int.add_nonneg hstart (Int.natCast_nonneg _)
    obtain ⟨es, h⟩ := exists_passes hoffset call
    have hes : es <+: ds := by
      have hahead := h.ahead
      rwa [rest_past hds.symm] at hahead
    refine ⟨cs ++ es, ?_, ?_⟩
    · rw [← hds]
      exact (List.prefix_append_right_inj cs).2 hes
    · calc start.through (past ++ [call])
          = ((start.through past).step call).2 := List.foldl_append
        _ = (start.past cs).past es := by rw [hpast, h.step_eq]
        _ = start.past (cs ++ es) := past_past

theorem standsBehind_past {start : Reader} (hstart : 0 ≤ start.offset)
    (hend : start.offset ≤ start.source.length) {cs : List Char} (hcs : cs <+: start.rest) :
    start.StandsBehind (start.past cs) where
  source_eq := rfl
  start_le := Int.le_add_of_nonneg_right (Int.natCast_nonneg _)
  le_end := by
    have hlen := hcs.length_le
    unfold rest at hlen
    rw [if_neg (Int.not_lt.2 hstart), List.length_drop] at hlen
    change start.offset + cs.length ≤ _
    omega
  position_eq := by
    obtain ⟨ds, hds⟩ := hcs
    rw [stretch_past hds.symm]
    exact start.position.past_eq_counted cs

/-- Character by character too, a call is refused only where the next character is asked for and no
text is ahead. -/
theorem stepEach_cases {r : Reader} (hr : 0 ≤ r.offset) (call : Call) :
    ((call = .next ∧ r.rest = []) ∧
        ∃ f, r.stepEach call = .error f ∧ r.step call = (.fault f, r)) ∨
      ¬(call = .next ∧ r.rest = []) ∧ r.stepEach call = .ok (r.step call) := by
  by_cases hcall : call = .next
  · subst hcall
    dsimp only [stepEach, step]
    cases hrest : r.rest with
    | nil =>
      rw [next_of_nil hr hrest]
      exact Or.inl ⟨⟨rfl, rfl⟩, _, rfl, rfl⟩
    | cons c cs =>
      rw [next_of_cons hrest]
      exact Or.inr ⟨fun h => List.cons_ne_nil c cs h.2, rfl⟩
  · exact Or.inr ⟨fun h => hcall h.1, r.stepEach_eq hcall⟩

theorem rest_eq_nil_iff {r : Reader} (hr : 0 ≤ r.offset) (hend : r.offset ≤ r.source.length) :
    r.rest = [] ↔ r.offset = r.source.length := by
  unfold rest
  rw [if_neg (Int.not_lt.2 hr), List.drop_eq_nil_iff]
  omega

/-- Wherever a session has led, the next call keeps what is promised. -/
theorem keeps_of_standsBehind {start r : Reader} (hstart : 0 ≤ start.offset)
    (h : start.StandsBehind r) {call : Call} (hstep : start.StandsBehind (r.step call).2) :
    start.Keeps r call := by
  have hr : 0 ≤ r.offset := Int.le_trans hstart h.start_le
  have hend : r.rest = [] ↔ r.offset = r.source.length :=
    rest_eq_nil_iff hr (h.source_eq ▸ h.le_end)
  obtain ⟨cs, hpasses⟩ := exists_passes hr call
  obtain ⟨ds, hds⟩ := hpasses.ahead
  have hbehind : 0 ≤ (r.step call).2.offset := Int.le_trans hstart hstep.start_le
  -- the step by characters is refused at the end or is the step itself
  have hcases := stepEach_cases hr call
  exact {
    before := h
    behind := hstep
    offset_le := by
      rw [hpasses.step_eq]
      exact Int.le_add_of_nonneg_right (Int.natCast_nonneg _)
    tells := by
      rw [hpasses.step_eq, stretch_past hds.symm]
      exact hpasses.tells
    returns := by
      intro b hb
      rcases hcases with ⟨-, f, hf, -⟩ | ⟨-, hok⟩
      · cases hf.symm.trans hb
      · exact Except.ok.inj (hok.symm.trans hb)
    raises := by
      intro f hf
      rcases hcases with ⟨-, g, hg, hstep⟩ | ⟨-, hok⟩
      · rw [← Except.error.inj (hg.symm.trans hf)]
        exact hstep
      · cases hok.symm.trans hf
    raises_iff := by
      rw [← hend]
      rcases hcases with ⟨hnil, f, hf, -⟩ | ⟨hne, hok⟩
      · exact ⟨fun _ => hnil, fun _ => ⟨f, hf⟩⟩
      · exact ⟨fun ⟨f, hf⟩ => absurd (hok.symm.trans hf) nofun, fun hnil => absurd hnil hne⟩
    finished := by
      intro t hlast ht later
      obtain ⟨hrest, hfinish⟩ := rest_of_lastToken? hlast ht
      refine ⟨rest_through_nil hbehind hrest later, ?_⟩
      rw [step_token_of_nil hrest, ← hfinish] }

end Reader

/-- Wherever in a text a reader is set up, with any line and column, a session keeps to its promises
from call to call, whatever is called for and in whatever order. In front of the text and behind its
end the next token is the end of the text, where the reader stands. -/
theorem session_keeps (source : String) (offset : Int) (p : Position) :
    let start : Reader := ⟨source.toList, offset, p⟩
    (0 ≤ offset → offset ≤ source.length →
      ∀ past call, start.Keeps (start.through past) call) ∧
    (offset < 0 ∨ source.length < offset →
      start.tokenEach = .ok (.finish p, start) ∧
        start.step .token = (.token (.finish p), start)) := by
  intro start
  constructor
  · intro hstart hend past call
    have hoffset : 0 ≤ start.offset := hstart
    have hlength : start.offset ≤ start.source.length := by
      change offset ≤ source.toList.length
      rwa [String.length_toList]
    have hstands (calls : List Reader.Call) : start.StandsBehind (start.through calls) := by
      obtain ⟨cs, hcs, hthrough⟩ := Reader.exists_through hoffset calls
      rw [hthrough]
      exact Reader.standsBehind_past hoffset hlength hcs
    -- one more call is a longer session
    have hstep : start.through (past ++ [call]) = ((start.through past).step call).2 :=
      List.foldl_append
    refine Reader.keeps_of_standsBehind hoffset (hstands past) ?_
    rw [← hstep]
    exact hstands (past ++ [call])
  · intro houtside
    have hrest : start.rest = [] := by
      unfold Reader.rest
      split
      · rfl
      · next hneg =>
        have hbehind : source.length < offset := houtside.resolve_left hneg
        refine List.drop_eq_nil_of_le ?_
        change source.toList.length ≤ offset.toNat
        rw [String.length_toList]
        omega
    refine ⟨?_, Reader.step_token_of_nil hrest⟩
    rw [Reader.tokenEach_eq, Reader.takeToken_of_rest_eq_nil hrest]

theorem session_keeps_of_middle :
    let start (offset : Int) : Reader := ⟨"a == b".toList, offset, ⟨1, 4⟩⟩
    (start 3).Keeps ((start 3).through [.symbol, .digits, .token]) .token ∧
      (start (-1)).tokenEach = .ok (.finish ⟨1, 4⟩, start (-1)) ∧
      (start 7).step .token = (.token (.finish ⟨1, 4⟩), start 7) :=
  ⟨(session_keeps "a == b" 3 ⟨1, 4⟩).1 (by decide) (by decide) _ _,
    ((session_keeps "a == b" (-1) ⟨1, 4⟩).2 (by decide)).1,
    ((session_keeps "a == b" 7 ⟨1, 4⟩).2 (by decide)).2⟩

end MonkeySyntax
