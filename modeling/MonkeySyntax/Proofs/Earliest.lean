import Mathlib.Data.List.Nodup
import MonkeySyntax.Proofs.Breaking
import MonkeySyntax.Proofs.Places
import MonkeySyntax.Proofs.Reflecting

namespace MonkeySyntax

open Production

/-- The first defect that reading statements from a place on meets, and where it gives up there. -/
inductive FirstDefect (statement : Production Node) (e : Defect) (d : Cursor) : Cursor → Prop
  | here {c : Cursor} (hc : c.current.kind ≠ .eof) (h : statement c = .error (.defect e) d) :
      FirstDefect statement e d c
  | later {c c' : Cursor} {s : Node} (hc : c.current.kind ≠ .eof) (h : statement c = .ok s c')
      (hlater : FirstDefect statement e d c'.advance) : FirstDefect statement e d c

section

variable {statement : Production Node} {e : Defect} {es : List Defect} {c d : Cursor}

/-- Where there is a defect there is a first one, behind statements without any. -/
theorem exists_firstDefect (h : (runFrom statement c).defects = e :: es) :
    ∃ d, FirstDefect statement e d c := by
  fun_induction runFrom statement c with
  | case1 c heof => cases h
  | case2 c heof n c' hattempt => cases h
  | case3 c heof o c' hattempt hlt ih =>
    cases o with
    | error e' =>
      obtain ⟨d, hs, -⟩ := attempt_error hattempt
      cases h
      exact ⟨d, FirstDefect.here heof hs⟩
    | ok s =>
      obtain ⟨d, hs, rfl⟩ := attempt_ok hattempt
      obtain ⟨d', hd'⟩ := ih h
      exact ⟨d', FirstDefect.later heof hs hd'⟩
  | case4 c heof o c' hattempt hlt =>
    cases o with
    | error e' =>
      obtain ⟨d, hs, -⟩ := attempt_error hattempt
      cases h
      exact ⟨d, FirstDefect.here heof hs⟩
    | ok s => cases h

theorem FirstDefect.current_ne_eof (h : FirstDefect statement e d c) : c.current.kind ≠ .eof := by
  cases h with
  | here hc => exact hc
  | later hc => exact hc

theorem FirstDefect.reaches (h : FirstDefect statement e d c) (hforward : Forward statement) :
    c.Reaches d := by
  induction h with
  | here hc h => exact (hforward.error h).1
  | later hc h hlater ih => exact ((hforward.ok h).trans (Cursor.reaches_advance _)).trans ih

/-- In a mirror the same first defect is met. -/
theorem FirstDefect.seen {m : Mirror} (h : FirstDefect statement e d c)
    (hstatement : m.Reflects (m.Blind 2) m.node statement statement) (hd : ¬m.Blind e.sight d)
    {c₂ : Cursor} (hat : m.At c c₂) :
    ∃ d₂, FirstDefect statement (e.mapTokens m.token) d₂ c₂ := by
  have hforward := hstatement.forward
  have hsight {c : Cursor} (h : FirstDefect statement e d c) : ¬m.Blind 1 c := fun hblind =>
    hd (Mirror.blind_of_sight (f := .defect e) (m.blind_reaches hblind (h.reaches hforward)))
  have hcurrent {c c₂ : Cursor} (h : FirstDefect statement e d c) (hat : m.At c c₂) :
      c₂.current.kind ≠ .eof := by
    rw [m.current_eq hat (hsight h), m.kind_token]
    exact h.current_ne_eof
  induction h generalizing c₂ with
  | here hc h =>
    obtain ⟨d₂, hd₂, -⟩ := (hstatement.of_error h hat).resolve_left hd
    exact ⟨d₂, FirstDefect.here (hcurrent (FirstDefect.here hc h) hat) hd₂⟩
  | later hc h hlater ih =>
    -- a statement that is read leaves the defect in sight, so it is not lost itself
    rcases hstatement.of_ok h hat with hlost | ⟨c', hc', hat'⟩
    · exact absurd (m.blind_advance hlost) (hsight hlater)
    · have hahead : ¬m.Blind 1 _ := fun hblind =>
        hsight hlater (m.blind_reaches hblind (Cursor.reaches_advance _))
      obtain ⟨d₂, hd₂⟩ := ih (m.advance_at hat' hahead)
      exact ⟨d₂, FirstDefect.later (hcurrent (FirstDefect.later hc h hlater) hat) hc' hd₂⟩

end

section

variable {e : Defect} {c d : Cursor} {limit : Nat}

/-- What is read up to the first defect can be completed. -/
theorem FirstDefect.breaksOff (h : FirstDefect (statementWithin .standard limit) e d c) :
    BreaksOff (Derives .statements) c.rest e d := by
  induction h with
  | here hc h => exact (statement_breaks (expression_breaks limit) h).statements
  | @later c c' s hc h hlater ih =>
    obtain ⟨us, hus, hended⟩ := statement_sound (expression_sound limit) h
    refine ih.within us [] hus (fun hnil => ?_) fun vs hvs => ?_
    · -- there is a token left where the defect is met
      have hcurrent := hlater.current_ne_eof
      rw [kind_current, hnil] at hcurrent
      exact absurd rfl hcurrent
    · rw [List.append_nil]
      exact Derives.statements hended.derives hvs

/-- Where statements are spelled there is no defect, but reading may give up. -/
theorem FirstDefect.isNesting_of_spells (h : FirstDefect (statementWithin .standard limit) e d c)
    {ss : List Node} (hspells : Spells (.statements ss) c.rest) : e.isNesting := by
  -- at every place the next statement is read, or its depth makes reading give up
  have hcons {c : Cursor} {ss : List Node} (hc : c.current.kind ≠ .eof)
      (hspells : Spells (.statements ss) c.rest) : ∃ s ss' us, Spells (.statements ss') us ∧
        (GaveUp (statementWithin .standard limit c) ∨
          ∃ t, statementWithin .standard limit c = .ok s (.before (t :: us) c.stop)) := by
    cases ss with
    | nil =>
      rw [kind_current] at hc
      generalize c.rest = ts at hspells hc
      cases hspells
      exact absurd rfl hc
    | cons s ss' =>
      obtain ⟨us, hss, -, -, hread⟩ := hspells.statements_cons
      have hbefore : Cursor.before c.rest c.stop = c := Cursor.ext rfl rfl
      have hread := hread limit c.stop
      rw [hbefore] at hread
      exact ⟨s, ss', us, hss, hread⟩
  induction h generalizing ss with
  | here hc h =>
    obtain ⟨s, ss', us, -, ⟨u, d', hgave⟩ | ⟨t, hread⟩⟩ := hcons hc hspells
    · rw [h] at hgave
      cases hgave
      rfl
    · rw [h] at hread
      cases hread
  | later hc h hlater ih =>
    obtain ⟨s, ss', us, hss, ⟨u, d', hgave⟩ | ⟨t, hread⟩⟩ := hcons hc hspells
    · rw [h] at hgave
      cases hgave
    · rw [h] at hread
      cases hread
      exact ih hss

end

/-- Of a token the grammar knows the kind, and of an integer the value as well. -/
theorem Derives.map {n : Nonterminal} {ts : List Token} (h : Derives n ts) {f : Token → Token}
    (hkind : ∀ t, (f t).kind = t.kind)
    (hvalue : ∀ t, t.kind = .int → decimalValue t.literal.toList ≤ maxInteger →
      decimalValue (f t).literal.toList ≤ maxInteger) : Derives n (ts.map f) := by
  have hk {t : Token} {k : Kind} (ht : t.kind = k) : (f t).kind = k := (hkind t).trans ht
  induction h with
  | identifier ht => exact Derives.identifier (hk ht)
  | integer ht hv => exact Derives.integer (hk ht) (hvalue _ ht hv)
  | boolean ht => exact Derives.boolean (ht.imp hk hk)
  | unary ht he ih => exact Derives.unary (ht.imp hk hk) ih
  | binary hl ht hr ihl ihr =>
    rw [List.map_append, List.map_cons]
    exact Derives.binary ihl (by rw [hkind]; exact ht) ihr
  | grouped hl he hr ih =>
    simp only [List.map_append, List.map_cons, List.map_nil]
    exact Derives.grouped (hk hl) ih (hk hr)
  | conditional ht hl hc hr hb ihc ihb =>
    simp only [List.map_append, List.map_cons]
    exact Derives.conditional (hk ht) (hk hl) ihc (hk hr) ihb
  | choice ht hl hc hr hb ho ha ihc ihb iha =>
    simp only [List.map_append, List.map_cons]
    exact Derives.choice (hk ht) (hk hl) ihc (hk hr) ihb (hk ho) iha
  | function ht hl hps hr hb ihps ihb =>
    simp only [List.map_append, List.map_cons]
    exact Derives.function (hk ht) (hk hl) ihps (hk hr) ihb
  | call hf hl has hr ihf ihas =>
    simp only [List.map_append, List.map_cons, List.map_nil]
    exact Derives.call ihf (hk hl) ihas (hk hr)
  | parameter ht => exact Derives.parameter (hk ht)
  | argument he ih => exact Derives.argument ih
  | noFurther => exact Derives.noFurther
  | further ht hn hns ihn ihns =>
    rw [List.map_cons, List.map_append]
    exact Derives.further (hk ht) ihn ihns
  | noItems => exact Derives.noItems
  | items hn hns ihn ihns =>
    rw [List.map_append]
    exact Derives.items ihn ihns
  | letClause ht hx ha he ih => exact Derives.letClause (hk ht) (hk hx) (hk ha) ih
  | returnClause ht he ih => exact Derives.returnClause (hk ht) ih
  | expressionClause he ih => exact Derives.expressionClause ih
  | terminated hs ht ih =>
    rw [List.map_append]
    exact Derives.terminated ih (hk ht)
  | unterminated hs ih => exact Derives.unterminated ih
  | noStatements => exact Derives.noStatements
  | statements hs hss ihs ihss =>
    rw [List.map_append]
    exact Derives.statements ihs ihss
  | block hl hss hr ih =>
    simp only [List.map_append, List.map_cons, List.map_nil]
    exact Derives.block (hk hl) ih (hk hr)

/-- Whether a defect shows only at the end of a text, so that more of the text could mend it. -/
def Defect.AtEnd (e : Defect) : Prop :=
  (∃ b, e = .unterminatedBlock b) ∨ e.token.kind = .eof

/-- The tokens from a defect on are none at the end of a text, and else its own one is the first. -/
theorem Defect.IsAt.ahead_eq {e : Defect} {d : Cursor} (h : e.IsAt d)
    (hd : ∀ t ∈ d.rest, t.kind ≠ .eof) (hdeep : ¬e.isNesting) :
    e.AtEnd ∧ e.ahead d = [] ∨
      ¬e.AtEnd ∧ ∃ vs, e.ahead d = e.token :: vs := by
  have hsplit {c : Cursor} (hc : ∀ t ∈ c.rest, t.kind ≠ .eof) (ht : e.token = c.current)
      (hb : ∀ b, e ≠ .unterminatedBlock b) :
      e.AtEnd ∧ c.rest = [] ∨ ¬e.AtEnd ∧ ∃ vs, c.rest = e.token :: vs := by
    unfold AtEnd
    rw [ht]
    by_cases heof : c.current.kind = .eof
    · exact Or.inl ⟨Or.inr heof, (current_eq_eof_iff hc).1 heof⟩
    · refine Or.inr ⟨?_, c.rest.tail, rest_eq_cons heof⟩
      rintro (⟨b, hb'⟩ | hkind)
      · exact hb b hb'
      · exact heof hkind
  cases e with
  | unexpected k t =>
    have htail : ∀ t ∈ d.advance.rest, t.kind ≠ .eof := fun t ht => hd t (List.mem_of_mem_tail ht)
    have hahead : (Defect.unexpected k t).ahead d = d.advance.rest := List.drop_one
    rw [hahead]
    exact hsplit htail h fun _ h => nomatch h
  | noOperand t | malformedInteger t | integerOutOfRange t =>
    exact hsplit hd h fun _ h => nomatch h
  | unterminatedBlock b => exact Or.inl ⟨Or.inl ⟨b, rfl⟩, (current_eq_eof_iff hd).1 h⟩
  | nestedTooDeeply t => exact absurd rfl hdeep

/-- The integers behind some tokens may as well be zero. -/
theorem exists_numerals {n : Nonterminal} {us ws : List Token} (h : Derives n (us ++ ws))
    (hus : Numerals us) : ∃ ws', Derives n (us ++ ws') ∧ Numerals (us ++ ws') := by
  let f (t : Token) : Token := if t ∈ us then t else ⟨t.kind, "0", t.position⟩
  have hmem {t : Token} (ht : t ∈ us) : f t = t := if_pos ht
  have hne {t : Token} (ht : t ∉ us) : f t = ⟨t.kind, "0", t.position⟩ := if_neg ht
  have hzero : decimalValue "0".toList ≤ maxInteger := by decide
  have hnumeral (k : Kind) (p : Position) : (⟨k, "0", p⟩ : Token).IsNumeral := by
    have hne : "0".toList ≠ [] := by decide
    have hdigits : ∀ c ∈ "0".toList, c.isDigit := List.all_eq_true.1 (by decide)
    have hlength : "0".toList.length ≤ maxDigits := by decide
    exact ⟨hne, hdigits, hlength⟩
  have hmap : Derives n ((us ++ ws).map f) := by
    refine h.map (fun t => ?_) fun t _ hv => ?_
    · by_cases ht : t ∈ us
      · rw [hmem ht]
      · rw [hne ht]
    · by_cases ht : t ∈ us
      · rw [hmem ht]
        exact hv
      · rw [hne ht]
        exact hzero
  have hfront : us.map f = us := (List.map_congr_left fun t ht => hmem ht).trans (List.map_id us)
  rw [List.map_append, hfront] at hmap
  refine ⟨ws.map f, hmap, numerals_append.2 ⟨hus, ?_⟩⟩
  intro t ht hint
  obtain ⟨u, -, rfl⟩ := List.mem_map.1 ht
  by_cases hu : u ∈ us
  · rw [hmem hu] at hint ⊢
    exact hus u hu hint
  · rw [hne hu]
    exact hnumeral _ _

section

variable {limit : Nat} {c d : Cursor} {e : Defect}

/-- Nothing that the grammar derives begins with the tokens up to the first defect. -/
theorem FirstDefect.not_derives (h : FirstDefect (statementWithin .standard limit) e d c)
    (hdeep : ¬e.isNesting) (hc : Numerals c.rest) {us vs : List Token} {t : Token}
    (hrest : c.rest = us ++ t :: vs) (hahead : e.ahead d = t :: vs) (ws : List Token) :
    ¬Derives .statements (us ++ t :: ws) := by
  intro hderives
  rw [List.append_cons] at hrest hderives
  rw [hrest] at hc
  obtain ⟨ws', hderives', hnumerals⟩ := exists_numerals hderives (numerals_append.1 hc).1
  obtain ⟨ss, hspells⟩ := spells_of_derives hderives' hnumerals
  -- the other text is read like this one up to the defect, which is in sight there
  have hsight : ¬(Mirror.swap vs ws' c.stop).Blind e.sight d := by
    intro hblind
    have hlength := congrArg List.length hahead
    change d.rest.length < vs.length + e.sight at hblind
    unfold Defect.ahead at hlength
    rw [List.length_drop, List.length_cons] at hlength
    omega
  have hstatement : (Mirror.swap vs ws' c.stop).Reflects ((Mirror.swap vs ws' c.stop).Blind 2)
      (Mirror.swap vs ws' c.stop).node (statementWithin .standard limit)
      (statementWithin .standard limit) :=
    Mirror.reflects_statement fun level => Mirror.reflects_expression _ limit level
  have hat : (Mirror.swap vs ws' c.stop).At c (.before (us ++ [t] ++ ws') c.stop) :=
    ⟨us ++ [t], hrest, rfl, rfl⟩
  obtain ⟨d₂, hd₂⟩ := h.seen hstatement hsight hat
  have he : (e.mapTokens id).isNesting := hd₂.isNesting_of_spells hspells
  rw [Defect.mapTokens_id] at he
  exact hdeep he

end

/-- The first defect of a text is found at the earliest token possible: if it shows only at the end,
the text can be completed, and else what is in front of its token can be completed, but not with
that token behind it. -/
theorem earliest_of_first_defect (limit : Nat) (source : String)
    (hdigits : ∀ t ∈ tokenize source, t.kind = .int → t.literal.toList.length ≤ maxDigits)
    (hdeep : (parseWithin limit source).withinLimit) {e : Defect} {es : List Defect}
    (hfirst : (parseWithin limit source).defects = e :: es) :
    (e.AtEnd → ∃ ws, ws ≠ [] ∧ Derives .statements ((tokenize source).dropLast ++ ws)) ∧
      (¬e.AtEnd → e.token ∈ (tokenize source).dropLast ∧
        ∀ us vs, (tokenize source).dropLast = us ++ e.token :: vs →
          (∃ ws, Derives .statements (us ++ ws)) ∧
            ∀ ws, ¬Derives .statements (us ++ e.token :: ws)) := by
  have hrest : ∀ t ∈ (Cursor.ofString source).rest, t.kind = .int →
      t.literal.toList.length ≤ maxDigits :=
    fun t ht => hdigits t (List.mem_append_left _ ht)
  have hnumerals := numerals_ofString hrest
  have hne : ¬e.isNesting :=
    Run.withinLimit_iff.1 hdeep e (by rw [hfirst]; exact List.mem_cons_self)
  obtain ⟨d, hd⟩ := exists_firstDefect hfirst
  have hreaches := hd.reaches (forward_statementWithin .standard limit)
  have hkinds : ∀ t ∈ d.rest, t.kind ≠ .eof :=
    fun t ht => (isLexical_of_mem_lex (hreaches.suffix.mem ht)).kind_ne_eof
  obtain ⟨us, ws, hsplit, hderives, -⟩ := hd.breaksOff.completed
  rw [dropLast_tokenize]
  rcases hd.breaksOff.isAt.ahead_eq hkinds hne with ⟨hend, hahead⟩ | ⟨hend, vs, hahead⟩
  · refine ⟨fun _ => ⟨ws, ?_, ?_⟩, fun hnot => absurd hend hnot⟩
    · -- a text that the grammar derives as it is would have no defect
      rintro rfl
      rw [hahead] at hsplit
      rw [← hsplit] at hderives
      obtain ⟨ss, hspells⟩ := spells_of_derives hderives hnumerals
      exact hne (hd.isNesting_of_spells hspells)
    · rw [hsplit, hahead, List.append_nil]
      exact hderives
  · rw [hahead] at hsplit
    refine ⟨fun hyes => absurd hyes hend, fun _ => ⟨?_, fun us' vs' hsplit' => ?_⟩⟩
    · rw [hsplit]
      exact List.mem_append_right us List.mem_cons_self
    -- a token stands in a text only once
    have hnodup : (us ++ e.token :: vs).Nodup := hsplit ▸ nodup_lex _ _
    have hmem : e.token ∉ us ∧ e.token ∉ vs := by
      rw [List.nodup_middle, List.nodup_cons, List.mem_append, not_or] at hnodup
      exact hnodup.1
    rw [hsplit, List.append_cons_inj_of_notMem hmem.1 hmem.2] at hsplit'
    obtain ⟨rfl, -, rfl⟩ := hsplit'
    exact ⟨⟨ws, hderives⟩, hd.not_derives hne hnumerals hsplit hahead⟩

theorem earliest_of_missing_comma :
    (∀ t ∈ tokenize "f(1 2", t.kind = .int → t.literal.toList.length ≤ maxDigits) ∧
    (parseWithin 9 "f(1 2").withinLimit ∧
    (parseWithin 9 "f(1 2").defects = [.unexpected .rparen ⟨.int, "2", ⟨1, 5⟩⟩] ∧
    (∃ ws, Derives .statements
      ([⟨.ident, "f", ⟨1, 1⟩⟩, ⟨.lparen, "(", ⟨1, 2⟩⟩, ⟨.int, "1", ⟨1, 3⟩⟩] ++ ws)) ∧
    ∀ ws, ¬Derives .statements
      ([⟨.ident, "f", ⟨1, 1⟩⟩, ⟨.lparen, "(", ⟨1, 2⟩⟩, ⟨.int, "1", ⟨1, 3⟩⟩] ++
        ⟨.int, "2", ⟨1, 5⟩⟩ :: ws) := by
  have hdigits : ∀ t ∈ tokenize "f(1 2", t.kind = .int →
      t.literal.toList.length ≤ maxDigits := by decide +kernel
  have hdeep : (parseWithin 9 "f(1 2").withinLimit := by decide +kernel
  have hfirst : (parseWithin 9 "f(1 2").defects = [.unexpected .rparen ⟨.int, "2", ⟨1, 5⟩⟩] := by
    decide +kernel
  have hend : ¬(Defect.unexpected .rparen ⟨.int, "2", ⟨1, 5⟩⟩).AtEnd := by
    rintro (⟨b, hb⟩ | hkind)
    · cases hb
    · cases hkind
  obtain ⟨-, hsplit⟩ := (earliest_of_first_defect 9 "f(1 2" hdigits hdeep hfirst).2 hend
  obtain ⟨hfront, hbehind⟩ := hsplit
    [⟨.ident, "f", ⟨1, 1⟩⟩, ⟨.lparen, "(", ⟨1, 2⟩⟩, ⟨.int, "1", ⟨1, 3⟩⟩] [] (by decide +kernel)
  exact ⟨hdigits, hdeep, hfirst, hfront, hbehind⟩

end MonkeySyntax
