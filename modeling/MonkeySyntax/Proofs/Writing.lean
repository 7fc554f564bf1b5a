import MonkeySyntax.Proofs.Reading
import MonkeySyntax.Proofs.WellFormed

/-!
# Trees written out

All ways to write a tree down. Any expression may stand in any number of parentheses, and it has to
stand in some where it does not hold together as tightly as is asked of it: an operand of a binary
operator that is a weaker operation, or on the right one of the same level, an operand of a sign
that is an operation, and a callee that is an operation or has a sign. Whatever a tree is written
as, it is read back, places apart.
-/

namespace MonkeySyntax

open Production

/-- A row of tokens has a phrase written out. Of an expression the strength is what is asked of it
where it stands. -/
inductive Written : Phrase → List Token → Prop
  | identifier {m : Nat} {t u : Token} {x : String} (hu : u.bare = t.bare) :
      Written (.expression m (.identifier t x)) [u]
  | integer {m : Nat} {t u : Token} {v : Int} (hu : u.bare = t.bare) :
      Written (.expression m (.integer t v)) [u]
  | boolean {m : Nat} {t u : Token} {v : Bool} (hu : u.bare = t.bare) :
      Written (.expression m (.boolean t v)) [u]
  | grouped {m : Nat} {l r : Token} {e : Node} {us : List Token} (hl : l.kind = .lparen)
      (he : Written (.expression Precedence.lowest.level e) us) (hr : r.kind = .rparen) :
      Written (.expression m e) (l :: (us ++ [r]))
  | conditional {m : Nat} {t u l r : Token} {c b : Node} {us vs : List Token}
      (hu : u.bare = t.bare) (hl : l.kind = .lparen)
      (hc : Written (.expression Precedence.lowest.level c) us) (hr : r.kind = .rparen)
      (hb : Written (.block b) vs) :
      Written (.expression m (.conditional t c b none)) (u :: l :: (us ++ r :: vs))
  | choice {m : Nat} {t u l r o : Token} {c b a : Node} {us vs ws : List Token}
      (hu : u.bare = t.bare) (hl : l.kind = .lparen)
      (hc : Written (.expression Precedence.lowest.level c) us) (hr : r.kind = .rparen)
      (hb : Written (.block b) vs) (ho : o.kind = .wordElse) (ha : Written (.block a) ws) :
      Written (.expression m (.conditional t c b (some a)))
        (u :: l :: (us ++ r :: (vs ++ o :: ws)))
  | function {m : Nat} {t u l r : Token} {ps : List Node} {b : Node} {us vs : List Token}
      (hu : u.bare = t.bare) (hl : l.kind = .lparen) (hps : Written (.items .parameter ps) us)
      (hr : r.kind = .rparen) (hb : Written (.block b) vs) :
      Written (.expression m (.function t ps b)) (u :: l :: (us ++ r :: vs))
  | call {m : Nat} {t u r : Token} {f : Node} {as : List Node} {us vs : List Token}
      (hm : m ≤ Precedence.call.level)
      (hf : Written (.expression Precedence.call.level f) us) (hu : u.bare = t.bare)
      (has : Written (.items .argument as) vs) (hr : r.kind = .rparen) :
      Written (.expression m (.call t f as)) (us ++ u :: (vs ++ [r]))
  | unary {m : Nat} {t u : Token} {op : String} {e : Node} {us : List Token}
      (hm : m ≤ Precedence.unary.level) (hu : u.bare = t.bare)
      (he : Written (.expression Precedence.unary.level e) us) :
      Written (.expression m (.unary t op e)) (u :: us)
  | binary {m : Nat} {t u : Token} {op : String} {l r : Node} {us vs : List Token}
      (hm : m ≤ t.kind.precedence.level)
      (hl : Written (.expression t.kind.precedence.level l) us) (hu : u.bare = t.bare)
      (hr : Written (.expression (t.kind.precedence.level + 1) r) vs) :
      Written (.expression m (.binary t l op r)) (us ++ u :: vs)
  | parameter {t u : Token} {x : String} (hu : u.bare = t.bare) :
      Written (.item .parameter (.identifier t x)) [u]
  | argument {e : Node} {us : List Token}
      (he : Written (.expression Precedence.lowest.level e) us) : Written (.item .argument e) us
  | noFurther {s : Slot} : Written (.further s []) []
  | further {s : Slot} {t : Token} {n : Node} {ns : List Node} {us vs : List Token}
      (ht : t.kind = .comma) (hn : Written (.item s n) us) (hns : Written (.further s ns) vs) :
      Written (.further s (n :: ns)) (t :: (us ++ vs))
  | noItems {s : Slot} : Written (.items s []) []
  | items {s : Slot} {n : Node} {ns : List Node} {us vs : List Token}
      (hn : Written (.item s n) us) (hns : Written (.further s ns) vs) :
      Written (.items s (n :: ns)) (us ++ vs)
  | letStatement {t u x y a : Token} {n : String} {v : Node} {us : List Token}
      (hu : u.bare = t.bare) (hy : y.bare = x.bare) (ha : a.kind = .assign)
      (hv : Written (.expression Precedence.lowest.level v) us) :
      Written (.statement (.letStatement t (.identifier x n) v)) (u :: y :: a :: us)
  | returnStatement {t u : Token} {v : Node} {us : List Token} (hu : u.bare = t.bare)
      (hv : Written (.expression Precedence.lowest.level v) us) :
      Written (.statement (.returnStatement t v)) (u :: us)
  | expressionStatement {t : Token} {v : Node} {us : List Token}
      (hv : Written (.expression Precedence.lowest.level v) us) :
      Written (.statement (.expressionStatement t v)) us
  | noStatements : Written (.statements []) []
  | terminated {t : Token} {s : Node} {ss : List Node} {us vs : List Token}
      (hs : Written (.statement s) us) (ht : t.kind = .semicolon)
      (hss : Written (.statements ss) vs) : Written (.statements (s :: ss)) (us ++ t :: vs)
  | apart {s : Node} {ss : List Node} {us vs : List Token} (hs : Written (.statement s) us)
      (hss : Written (.statements ss) vs) (hvs : Apart vs) :
      Written (.statements (s :: ss)) (us ++ vs)
  | block {t u r : Token} {ss : List Node} {us : List Token} (hu : u.bare = t.bare)
      (hss : Written (.statements ss) us) (hr : r.kind = .rbrace) :
      Written (.block (.block t ss)) (u :: (us ++ [r]))

theorem Token.kind_eq_of_bare {t u : Token} (h : u.bare = t.bare) : u.kind = t.kind := by
  have hkind := congrArg Token.kind h
  exact hkind

theorem Token.literal_eq_of_bare {t u : Token} (h : u.bare = t.bare) : u.literal = t.literal := by
  have hliteral := congrArg Token.literal h
  exact hliteral

theorem Token.Is.kind_of_bare {t u : Token} {k : Kind} (h : t.Is k) (hu : u.bare = t.bare) :
    u.kind = k :=
  (Token.kind_eq_of_bare hu).trans h.kind_eq

theorem Token.Is.isNumeral {t : Token} (h : t.Is .int)
    (hlength : t.literal.toList.length ≤ maxDigits) :
    t.IsNumeral := by
  have hlexical : Lexical .int t.literal.toList := h.kind_eq ▸ h.isLexical
  exact ⟨hlexical.digits.1, hlexical.digits.2, hlength⟩

theorem Token.IsNumeral.of_literal_eq {t u : Token} (h : t.IsNumeral)
    (hu : u.literal = t.literal) : u.IsNumeral := by
  refine ⟨?_, ?_, ?_⟩ <;> rw [hu]
  · exact h.ne_nil
  · exact h.digits
  · exact h.length_le

def Phrase.IsSpelledAlike : Phrase → List Token → Prop
  | .expression m e, us =>
    m ≤ atomic → ∃ k e', m ≤ k ∧ e'.bare = e.bare ∧ Spells (.expression k e') us
  | .item s n, us => ∃ n', n'.bare = n.bare ∧ Spells (.item s n') us
  | .further s ns, us => ∃ ns', Node.bareAll ns' = Node.bareAll ns ∧ Spells (.further s ns') us
  | .items s ns, us => ∃ ns', Node.bareAll ns' = Node.bareAll ns ∧ Spells (.items s ns') us
  | .statement s, us => ∃ s', s'.bare = s.bare ∧ Spells (.statement s') us
  | .statements ss, us => ∃ ss', Node.bareAll ss' = Node.bareAll ss ∧ Spells (.statements ss') us
  | .block b, us => ∃ b', b'.bare = b.bare ∧ Spells (.block b') us

theorem Node.bareAll_cons_congr {n n' : Node} {ns ns' : List Node} (hn : n'.bare = n.bare)
    (hns : bareAll ns' = bareAll ns) : bareAll (n' :: ns') = bareAll (n :: ns) := by
  rw [bareAll, hn, hns, bareAll]

namespace Phrase.IsSpelledAlike

variable {m : Nat} {t u l r o : Token} {op : String} {c b a e f : Node} {ps as : List Node}
  {us vs ws : List Token}

theorem conditional (ht : t.Is .wordIf) (hu : u.bare = t.bare) (hl : l.kind = .lparen)
    (hc : (expression Precedence.lowest.level c).IsSpelledAlike us) (hr : r.kind = .rparen)
    (hb : (block b).IsSpelledAlike vs) :
    (expression m (.conditional t c b none)).IsSpelledAlike (u :: l :: (us ++ r :: vs)) := by
  intro hm
  obtain ⟨k, c', -, hcbare, hc'⟩ := hc (by decide)
  obtain ⟨b', hbbare, hb'⟩ := hb
  refine ⟨atomic, _, hm, ?_, Spells.conditional (ht.kind_of_bare hu) hl hc' hr hb'⟩
  simp only [Node.bare, hu, hcbare, hbbare]

theorem choice (ht : t.Is .wordIf) (hu : u.bare = t.bare) (hl : l.kind = .lparen)
    (hc : (expression Precedence.lowest.level c).IsSpelledAlike us) (hr : r.kind = .rparen)
    (hb : (block b).IsSpelledAlike vs) (ho : o.kind = .wordElse)
    (ha : (block a).IsSpelledAlike ws) :
    (expression m (.conditional t c b (some a))).IsSpelledAlike
      (u :: l :: (us ++ r :: (vs ++ o :: ws))) := by
  intro hm
  obtain ⟨k, c', -, hcbare, hc'⟩ := hc (by decide)
  obtain ⟨b', hbbare, hb'⟩ := hb
  obtain ⟨a', habare, ha'⟩ := ha
  refine ⟨atomic, _, hm, ?_, Spells.choice (ht.kind_of_bare hu) hl hc' hr hb' ho ha'⟩
  simp only [Node.bare, hu, hcbare, hbbare, habare]

theorem function (ht : t.Is .wordFn) (hu : u.bare = t.bare) (hl : l.kind = .lparen)
    (hps : (items .parameter ps).IsSpelledAlike us) (hr : r.kind = .rparen)
    (hb : (block b).IsSpelledAlike vs) :
    (expression m (.function t ps b)).IsSpelledAlike (u :: l :: (us ++ r :: vs)) := by
  intro hm
  obtain ⟨ps', hpsbare, hps'⟩ := hps
  obtain ⟨b', hbbare, hb'⟩ := hb
  refine ⟨atomic, _, hm, ?_, Spells.function (ht.kind_of_bare hu) hl hps' hr hb'⟩
  simp only [Node.bare, hu, hpsbare, hbbare]

theorem call (hm : m ≤ Precedence.call.level)
    (hf : (expression Precedence.call.level f).IsSpelledAlike us) (ht : t.Is .lparen)
    (hu : u.bare = t.bare) (has : (items .argument as).IsSpelledAlike vs)
    (hr : r.kind = .rparen) :
    (expression m (.call t f as)).IsSpelledAlike (us ++ u :: (vs ++ [r])) := by
  intro _
  obtain ⟨k, f', hk, hfbare, hf'⟩ := hf (by decide)
  obtain ⟨as', hasbare, has'⟩ := has
  refine ⟨_, _, hm, ?_, Spells.call hf' hk (ht.kind_of_bare hu) has' hr⟩
  simp only [Node.bare, hu, hfbare, hasbare]

theorem unary (hm : m ≤ Precedence.unary.level) (ht : t.Is .bang ∨ t.Is .minus)
    (hu : u.bare = t.bare) (hop : op = t.literal)
    (he : (expression Precedence.unary.level e).IsSpelledAlike us) :
    (expression m (.unary t op e)).IsSpelledAlike (u :: us) := by
  intro _
  obtain ⟨k, e', hk, hbare, he'⟩ := he (by decide)
  refine ⟨_, _, hm, ?_, Spells.unary (t := u) ?_ he' hk⟩
  · simp only [Node.bare, hu, hbare, Token.literal_eq_of_bare hu, hop]
  · exact ht.imp (fun ht => ht.kind_of_bare hu) (fun ht => ht.kind_of_bare hu)

theorem binary (hm : m ≤ t.kind.precedence.level) (ht : t.kind.IsBinary)
    (ha : (expression t.kind.precedence.level a).IsSpelledAlike us) (hu : u.bare = t.bare)
    (hop : op = t.literal)
    (hb : (expression (t.kind.precedence.level + 1) b).IsSpelledAlike vs) :
    (expression m (.binary t a op b)).IsSpelledAlike (us ++ u :: vs) := by
  intro _
  have hlt : t.kind.precedence.level < Precedence.unary.level := ht.level_lt
  have hle : t.kind.precedence.level + 1 ≤ atomic := Nat.le_trans hlt (by decide)
  obtain ⟨k, a', hk, habare, ha'⟩ := ha (Nat.le_of_succ_le hle)
  obtain ⟨n, b', hn, hbbare, hb'⟩ := hb hle
  -- the operator that is read has the level of the one that was written
  rw [← Token.kind_eq_of_bare hu] at ht hm hk hn
  refine ⟨_, _, hm, ?_, Spells.binary ht ha' hk hb' hn⟩
  simp only [Node.bare, hu, habare, hbbare, Token.literal_eq_of_bare hu, hop]

/-- The statement that is read holds its first token, which need not be that of the tree. -/
theorem expressionStatement (he : (expression Precedence.lowest.level e).IsSpelledAlike us) :
    (statement (.expressionStatement t e)).IsSpelledAlike us := by
  obtain ⟨k, e', -, hbare, hspells⟩ := he (by decide)
  cases us with
  | nil => exact absurd rfl hspells.ne_nil_of_expression
  | cons u us =>
    refine ⟨_, ?_, Spells.expressionStatement hspells⟩
    simp only [Node.bare, hbare]

end Phrase.IsSpelledAlike

/-- Tokens that have a well-formed phrase written out spell it, up to places. -/
theorem isSpelledAlike_of_written {φ : Phrase} {us : List Token} (h : Written φ us)
    (hφ : φ.WellFormed) : φ.IsSpelledAlike us := by
  induction h with
  | @identifier m t u x hu =>
    intro hm
    cases hφ with
    | identifier ht =>
      refine ⟨atomic, _, hm, ?_, Spells.identifier (ht.kind_of_bare hu)⟩
      simp only [Node.bare, hu, Token.literal_eq_of_bare hu]
  | @integer m t u v hu =>
    intro hm
    have hliteral := Token.literal_eq_of_bare hu
    cases hφ with
    | integer ht hdigits hv =>
      refine ⟨atomic, _, hm, ?_, Spells.integer (ht.kind_of_bare hu)
        ((ht.isNumeral hdigits).of_literal_eq hliteral) (by rw [hliteral]; exact hv)⟩
      simp only [Node.bare, hu, hliteral]
  | @boolean m t u v hu =>
    intro hm
    have hkind := Token.kind_eq_of_bare hu
    cases hφ with
    | boolean ht =>
      refine ⟨atomic, _, hm, ?_, Spells.boolean (t := u) ?_⟩
      · simp only [Node.bare, hu, hkind]
      · exact ht.imp (fun ht => ht.kind_of_bare hu) (fun ht => ht.kind_of_bare hu)
  | grouped hl he hr ih =>
    intro hm
    -- in parentheses every expression is as strong as can be asked for
    obtain ⟨k, e', -, hbare, hspells⟩ := ih hφ (by decide)
    exact ⟨atomic, e', hm, hbare, Spells.grouped hl hspells hr⟩
  | conditional hu hl hc hr hb ihc ihb =>
    cases hφ with
    | conditional ht hc hb => exact .conditional ht hu hl (ihc hc) hr (ihb hb)
  | choice hu hl hc hr hb ho ha ihc ihb iha =>
    cases hφ with
    | choice ht hc hb ha => exact .choice ht hu hl (ihc hc) hr (ihb hb) ho (iha ha)
  | function hu hl hps hr hb ihps ihb =>
    cases hφ with
    | function ht hps hb => exact .function ht hu hl (ihps hps) hr (ihb hb)
  | call hm hf hu has hr ihf ihas =>
    cases hφ with
    | call ht hf has => exact .call hm (ihf hf) ht hu (ihas has) hr
  | unary hm hu he ih =>
    cases hφ with
    | unary ht he => exact .unary hm ht hu rfl (ih he)
  | binary hm hl hu hr ihl ihr =>
    cases hφ with
    | binary ht ht' hl hr => exact .binary hm ht (ihl hl) hu rfl (ihr hr)
  | @parameter t u x hu =>
    cases hφ with
    | name ht =>
      refine ⟨_, ?_, Spells.parameter (ht.kind_of_bare hu)⟩
      simp only [Node.bare, hu, Token.literal_eq_of_bare hu]
  | argument he ih =>
    obtain ⟨k, e', -, hbare, hspells⟩ := ih hφ (by decide)
    exact ⟨e', hbare, Spells.argument hspells⟩
  | noFurther => exact ⟨[], rfl, Spells.noFurther⟩
  | further ht hn hns ihn ihns =>
    obtain ⟨hn, hns⟩ := List.forall_mem_cons.1 hφ
    obtain ⟨n', hnbare, hn'⟩ := ihn hn
    obtain ⟨ns', hnsbare, hns'⟩ := ihns hns
    exact ⟨n' :: ns', Node.bareAll_cons_congr hnbare hnsbare, Spells.further ht hn' hns'⟩
  | noItems => exact ⟨[], rfl, Spells.noItems⟩
  | items hn hns ihn ihns =>
    obtain ⟨hn, hns⟩ := List.forall_mem_cons.1 hφ
    obtain ⟨n', hnbare, hn'⟩ := ihn hn
    obtain ⟨ns', hnsbare, hns'⟩ := ihns hns
    exact ⟨n' :: ns', Node.bareAll_cons_congr hnbare hnsbare, Spells.items hn' hns'⟩
  | @letStatement t u x y a n v us hu hy ha hv ih =>
    cases hφ with
    | letStatement ht hx hv =>
      obtain ⟨k, v', -, hbare, hspells⟩ := ih hv (by decide)
      cases hx with
      | name hx =>
        refine ⟨_, ?_, Spells.letStatement (ht.kind_of_bare hu) (hx.kind_of_bare hy) ha hspells⟩
        simp only [Node.bare, hu, hy, hbare, Token.literal_eq_of_bare hy]
  | @returnStatement t u v us hu hv ih =>
    cases hφ with
    | returnStatement ht hv =>
      obtain ⟨k, v', -, hbare, hspells⟩ := ih hv (by decide)
      refine ⟨_, ?_, Spells.returnStatement (ht.kind_of_bare hu) hspells⟩
      simp only [Node.bare, hu, hbare]
  | expressionStatement hv ih =>
    cases hφ with
    | expressionStatement hv => exact .expressionStatement (ih hv)
  | noStatements => exact ⟨[], rfl, Spells.noStatements⟩
  | terminated hs ht hss ihs ihss =>
    obtain ⟨hs, hss⟩ := List.forall_mem_cons.1 hφ
    obtain ⟨s', hsbare, hs'⟩ := ihs hs
    obtain ⟨ss', hssbare, hss'⟩ := ihss hss
    exact ⟨s' :: ss', Node.bareAll_cons_congr hsbare hssbare, Spells.terminated hs' ht hss'⟩
  | apart hs hss hvs ihs ihss =>
    obtain ⟨hs, hss⟩ := List.forall_mem_cons.1 hφ
    obtain ⟨s', hsbare, hs'⟩ := ihs hs
    obtain ⟨ss', hssbare, hss'⟩ := ihss hss
    exact ⟨s' :: ss', Node.bareAll_cons_congr hsbare hssbare, Spells.apart hs' hss' hvs⟩
  | @block t u r ss us hu hss hr ih =>
    cases hφ with
    | block ht hss =>
      obtain ⟨ss', hbare, hspells⟩ := ih hss
      refine ⟨_, ?_, Spells.block (ht.kind_of_bare hu) hspells hr⟩
      simp only [Node.bare, hu, hbare]

/-- Whatever well-formed statements are written as is read without a defect, and what is read is
these statements. -/
theorem read_of_written {ss : List Node} {c : Cursor} (limit : Nat)
    (hss : ∀ s ∈ ss, WellFormed .statement s) (h : Written (.statements ss) c.rest)
    (hdeep : (runFrom (statementWithin .standard limit) c).withinLimit) :
    let run := runFrom (statementWithin .standard limit) c
    run.defects = [] ∧ run.oversized = none ∧ run.cursor = .before [] c.stop ∧
      Node.bareAll run.statements = Node.bareAll ss := by
  intro run
  obtain ⟨ss', hbare, hspells⟩ := isSpelledAlike_of_written h hss
  have hrun : run = ⟨ss'.map .ok, .before [] c.stop, none⟩ := hspells.read limit hdeep
  rw [hrun, Run.defects_map_ok, Run.statements_map_ok]
  exact ⟨rfl, rfl, rfl, hbare⟩

theorem read_of_written_product :
    let a : Token := ⟨.ident, "a", .nowhere⟩
    let plus : Token := ⟨.plus, "+", .nowhere⟩
    let times : Token := ⟨.asterisk, "*", .nowhere⟩
    let sum : Node := .binary plus (.identifier a "a") "+" (.identifier a "a")
    let s : Node := .letStatement ⟨.wordLet, "let", .nowhere⟩ (.identifier a "a")
      (.binary times sum "*" (.identifier a "a"))
    let c : Cursor := .ofString "let a = ((a + a)) * (a);"
    WellFormed .statement s ∧ Written (.statements [s]) c.rest ∧
      (runFrom (statementWithin .standard 9) c).withinLimit ∧
      (runFrom (statementWithin .standard 9) c).defects = [] ∧
      Node.bareAll (runFrom (statementWithin .standard 9) c).statements = Node.bareAll [s] := by
  intro a plus times sum s c
  have hname : Lexical .ident "a".toList :=
    Lexical.word (by decide +kernel) (List.all_eq_true.1 (by decide +kernel)) (by decide +kernel)
  have ha : a.Is .ident := ⟨rfl, hname⟩
  have hplus : plus.IsLexical := Lexical.symbol (by decide +kernel)
  have htimes : times.IsLexical := Lexical.symbol (by decide +kernel)
  have hlet : (⟨.wordLet, "let", .nowhere⟩ : Token).Is .wordLet :=
    ⟨rfl, Lexical.word (by decide +kernel) (List.all_eq_true.1 (by decide +kernel))
      (by decide +kernel)⟩
  have hs : WellFormed .statement s :=
    WellFormed.letStatement hlet (WellFormed.name ha)
      (WellFormed.binary (by decide) htimes
        (WellFormed.binary (by decide) hplus (WellFormed.identifier ha) (WellFormed.identifier ha))
        (WellFormed.identifier ha))
  -- the row of tokens is grouped the way it is written
  have hrest : c.rest =
      (⟨.wordLet, "let", ⟨1, 1⟩⟩ :: ⟨.ident, "a", ⟨1, 5⟩⟩ :: ⟨.assign, "=", ⟨1, 7⟩⟩ ::
        ((⟨.lparen, "(", ⟨1, 9⟩⟩ :: ((⟨.lparen, "(", ⟨1, 10⟩⟩ ::
            (([⟨.ident, "a", ⟨1, 11⟩⟩] ++ ⟨.plus, "+", ⟨1, 13⟩⟩ :: [⟨.ident, "a", ⟨1, 15⟩⟩]) ++
              [⟨.rparen, ")", ⟨1, 16⟩⟩])) ++ [⟨.rparen, ")", ⟨1, 17⟩⟩])) ++
          ⟨.asterisk, "*", ⟨1, 19⟩⟩ ::
            (⟨.lparen, "(", ⟨1, 21⟩⟩ :: ([⟨.ident, "a", ⟨1, 22⟩⟩] ++ [⟨.rparen, ")", ⟨1, 23⟩⟩])))) ++
        ⟨.semicolon, ";", ⟨1, 24⟩⟩ :: [] := by
    decide +kernel
  have hwritten : Written (.statements [s]) c.rest := by
    rw [hrest]
    refine Written.terminated ?_ rfl Written.noStatements
    refine Written.letStatement rfl rfl rfl ?_
    refine Written.binary (by decide) ?_ rfl ?_
    · refine Written.grouped rfl ?_ rfl
      refine Written.grouped rfl ?_ rfl
      exact Written.binary (by decide) (Written.identifier rfl) rfl (Written.identifier rfl)
    · exact Written.grouped rfl (Written.identifier rfl) rfl
  have hdeep : (runFrom (statementWithin .standard 9) c).withinLimit := by
    decide +kernel
  obtain ⟨hdefects, -, -, hbare⟩ :=
    read_of_written 9 (List.forall_mem_singleton.2 hs) hwritten hdeep
  exact ⟨hs, hwritten, hdeep, hdefects, hbare⟩

end MonkeySyntax
