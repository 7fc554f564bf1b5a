import MonkeySyntax.Proofs.Forward

/-!
# Texts side by side

Reading looks at the current token and the next one and no further, and of a token it looks at the
kind and the literal only. So two texts that agree up to some place are read alike up to there, and
a text that stands at another place is read as the same trees at that place. Both are facts about a
mirror, which shows one text as another one as far as it reaches.
-/

namespace MonkeySyntax

namespace Node

mutual

def mapTokens (f : Token → Token) : Node → Node
  | .identifier t x => .identifier (f t) x
  | .integer t v => .integer (f t) v
  | .boolean t v => .boolean (f t) v
  | .unary t op e => .unary (f t) op (e.mapTokens f)
  | .binary t l op r => .binary (f t) (l.mapTokens f) op (r.mapTokens f)
  | .conditional t c b none => .conditional (f t) (c.mapTokens f) (b.mapTokens f) none
  | .conditional t c b (some a) =>
    .conditional (f t) (c.mapTokens f) (b.mapTokens f) (some (a.mapTokens f))
  | .function t ps b => .function (f t) (mapAll f ps) (b.mapTokens f)
  | .call t e as => .call (f t) (e.mapTokens f) (mapAll f as)
  | .placeholder t => .placeholder (f t)
  | .letStatement t x v => .letStatement (f t) (x.mapTokens f) (v.mapTokens f)
  | .returnStatement t v => .returnStatement (f t) (v.mapTokens f)
  | .expressionStatement t v => .expressionStatement (f t) (v.mapTokens f)
  | .block t ss => .block (f t) (mapAll f ss)

def mapAll (f : Token → Token) : List Node → List Node
  | [] => []
  | n :: ns => n.mapTokens f :: mapAll f ns

end

theorem mapAll_eq_map (f : Token → Token) (ns : List Node) :
    mapAll f ns = ns.map (mapTokens f) := by
  induction ns with
  | nil => rfl
  | cons n ns ih => rw [mapAll, ih, List.map_cons]

mutual

@[simp] theorem mapTokens_id : (n : Node) → n.mapTokens id = n
  | .identifier .. | .integer .. | .boolean .. | .placeholder .. => rfl
  | .unary _ _ e => by simp only [mapTokens, mapTokens_id e, id_eq]
  | .binary _ l _ r => by simp only [mapTokens, mapTokens_id l, mapTokens_id r, id_eq]
  | .conditional _ c b none => by simp only [mapTokens, mapTokens_id c, mapTokens_id b, id_eq]
  | .conditional _ c b (some a) => by
    simp only [mapTokens, mapTokens_id c, mapTokens_id b, mapTokens_id a, id_eq]
  | .function _ ps b => by simp only [mapTokens, mapAll_id ps, mapTokens_id b, id_eq]
  | .call _ e as => by simp only [mapTokens, mapTokens_id e, mapAll_id as, id_eq]
  | .letStatement _ x v => by simp only [mapTokens, mapTokens_id x, mapTokens_id v, id_eq]
  | .returnStatement _ v => by simp only [mapTokens, mapTokens_id v, id_eq]
  | .expressionStatement _ v => by simp only [mapTokens, mapTokens_id v, id_eq]
  | .block _ ss => by simp only [mapTokens, mapAll_id ss, id_eq]

theorem mapAll_id : (ns : List Node) → mapAll id ns = ns
  | [] => rfl
  | n :: ns => by simp only [mapAll, mapTokens_id n, mapAll_id ns]

end

end Node

def Defect.mapTokens (f : Token → Token) : Defect → Defect
  | .unexpected k t => .unexpected k (f t)
  | .noOperand t => .noOperand (f t)
  | .unterminatedBlock t => .unterminatedBlock (f t)
  | .malformedInteger t => .malformedInteger (f t)
  | .integerOutOfRange t => .integerOutOfRange (f t)
  | .nestedTooDeeply t => .nestedTooDeeply (f t)

namespace Defect

@[simp] theorem mapTokens_id (e : Defect) : e.mapTokens id = e := by
  cases e <;> rfl

@[simp] theorem token_mapTokens (f : Token → Token) (e : Defect) :
    (e.mapTokens f).token = f e.token := by
  cases e <;> rfl

@[simp] theorem isNesting_mapTokens (f : Token → Token) (e : Defect) :
    (e.mapTokens f).isNesting = e.isNesting := by
  cases e <;> rfl

/-- A message quotes the kinds and the literals of tokens only. -/
theorem message_mapTokens {f : Token → Token} (hkind : ∀ t, (f t).kind = t.kind)
    (hliteral : ∀ t, (f t).literal = t.literal) (e : Defect) :
    (e.mapTokens f).message = e.message := by
  have hdescribe (t : Token) : (f t).describe = t.describe := by
    unfold Token.describe
    rw [hkind, hliteral]
  unfold message
  cases e with
  | unexpected k t | noOperand t | malformedInteger t | integerOutOfRange t =>
    dsimp only [mapTokens]
    simp only [hkind, hliteral, hdescribe]
  | unterminatedBlock t | nestedTooDeeply t => rfl

end Defect

def Fault.mapTokens (f : Token → Token) : Fault → Fault
  | .defect e => .defect (e.mapTokens f)
  | .oversizedLiteral n => .oversizedLiteral n

/-- How many tokens from the current one on show a defect: an unexpected token is the next one. -/
def Defect.sight : Defect → Nat
  | .unexpected .. => 2
  | _ => 1

def Fault.sight : Fault → Nat
  | .defect e => e.sight
  | .oversizedLiteral _ => 1

theorem Defect.one_le_sight (e : Defect) : 1 ≤ e.sight := by
  cases e with
  | unexpected => exact Nat.le_succ 1
  | _ => exact Nat.le_refl 1

theorem Fault.sight_cases (f : Fault) : f.sight = 1 ∨ f.sight = 2 := by
  rcases f with (_ | _ | _ | _ | _ | _) | _
  · exact Or.inr rfl
  all_goals exact Or.inl rfl

theorem Cursor.Reaches.advance {c d : Cursor} (h : c.Reaches d) : c.advance.Reaches d.advance := by
  refine ⟨?_, h.stop⟩
  obtain ⟨us, hus⟩ := h.suffix
  change d.rest.tail <:+ c.rest.tail
  rw [← hus]
  cases us with
  | nil => exact List.suffix_rfl
  | cons u us => exact (List.tail_suffix d.rest).trans (List.suffix_append us d.rest)

namespace Production

variable {α β : Type}

/-- Whether a production takes a token before it gives up because of the current one. -/
structure Steps (x : Production α) : Prop where
  forward : Forward x
  error : ∀ {c d f}, x c = .error f d → f.sight = 1 → c.advance.Reaches d

structure Moves (x : Production α) : Prop extends Steps x where
  ok : ∀ {c d a}, x c = .ok a d → c.advance.Reaches d

theorem steps_pure (a : α) : Steps (pure a : Production α) := by
  refine ⟨forward_pure a, fun {c d f} h _ => ?_⟩
  cases h

theorem Steps.peek {f : Token → Production α} (hf : ∀ t, Steps (f t)) :
    Steps (Production.peek >>= f) :=
  ⟨forward_peek.bind fun t => (hf t).forward, fun {c _ _} h hsight => (hf c.peek).error h hsight⟩

theorem Steps.ite {p : Prop} [Decidable p] {x y : Production α} (hx : Steps x) (hy : Steps y) :
    Steps (if p then x else y) := by
  split
  · exact hx
  · exact hy

theorem Steps.bind {x : Production α} {f : α → Production β} (hx : Steps x)
    (hf : ∀ a, Steps (f a)) : Steps (x >>= f) := by
  refine ⟨hx.forward.bind fun a => (hf a).forward, fun {c d e} h hsight => ?_⟩
  cases hc : x c with
  | ok a c' =>
    rw [bind_of_ok hc] at h
    exact (hx.forward.ok hc).advance.trans ((hf a).error h hsight)
  | error e' c' =>
    rw [bind_of_error hc] at h
    cases h
    exact hx.error hc hsight

theorem Moves.bind {x : Production α} {f : α → Production β} (hx : Moves x)
    (hf : ∀ a, Forward (f a)) : Moves (x >>= f) := by
  refine ⟨⟨hx.forward.bind hf, fun {c d e} h hsight => ?_⟩, fun {c d b} h => ?_⟩
  · cases hc : x c with
    | ok a c' =>
      rw [bind_of_ok hc] at h
      exact (hx.ok hc).trans ((hf a).error h).1
    | error e' c' =>
      rw [bind_of_error hc] at h
      cases h
      exact hx.error hc hsight
  · obtain ⟨a, c', hc, hb⟩ := bind_eq_ok.1 h
    exact (hx.ok hc).trans ((hf a).ok hb)

theorem Moves.ite {p : Prop} [Decidable p] {x y : Production α} (hx : Moves x) (hy : Moves y) :
    Moves (if p then x else y) := by
  split
  · exact hx
  · exact hy

theorem Steps.bind_moves {x : Production α} {f : α → Production β} (hx : Steps x)
    (hf : ∀ a, Moves (f a)) : Moves (x >>= f) := by
  refine ⟨hx.bind fun a => (hf a).toSteps, fun {c d b} h => ?_⟩
  obtain ⟨a, c', hc, hb⟩ := bind_eq_ok.1 h
  exact (hx.forward.ok hc).advance.trans ((hf a).ok hb)

theorem moves_advance : Moves advance := by
  refine ⟨⟨forward_advance, fun {c d f} h _ => ?_⟩, fun {c d u} h => ?_⟩
  · cases h
  · cases h
    exact Cursor.Reaches.refl c.advance

theorem moves_expect (k : Kind) : Moves (expect k) := by
  refine ⟨⟨forward_expect k, fun {c d f} h hsight => ?_⟩, fun {c d u} h => ?_⟩
  · rw [expect_eq] at h
    split at h
    · cases h
    · cases h
      cases hsight
  · rw [expect_eq] at h
    split at h
    · cases h
      exact Cursor.Reaches.refl c.advance
    · cases h

theorem steps_allow (k : Kind) : Steps (allow k) :=
  Steps.peek fun _ => moves_advance.toSteps.ite (steps_pure _)

theorem Steps.many {item : Production (Option α)} (hitem : Steps item) :
    Steps (Production.many item) := by
  refine ⟨hitem.forward.many, fun {c d f} h hsight => ?_⟩
  fun_induction Production.many item c generalizing f d with
  | case1 c e c' hc =>
    cases h
    exact hitem.error hc hsight
  | case2 c c' hc => cases h
  | case3 c a c' hc hlt e c'' hmany ih =>
    cases h
    exact (hitem.forward.ok hc).advance.trans (ih hmany hsight)
  | case4 c a c' hc hlt as c'' hmany ih => cases h
  | case5 c a c' hc hlt => cases h

theorem Steps.iterate {step : α → Production (Option α)} (hstep : ∀ a, Steps (step a)) (a : α) :
    Steps (Production.iterate step a) := by
  refine ⟨Forward.iterate (fun a => (hstep a).forward) a, fun {c d f} h hsight => ?_⟩
  fun_induction Production.iterate step a c with
  | case1 a c e c' hc =>
    cases h
    exact (hstep _).error hc hsight
  | case2 a c c' hc => cases h
  | case3 a c b c' hc hlt ih => exact ((hstep _).forward.ok hc).advance.trans (ih h)
  | case4 a c b c' hc hlt => cases h

end Production

/-- A way to see one text as another one, as far as tokens are in sight. -/
structure Mirror where
  token : Token → Token
  kind_token : ∀ t, (token t).kind = t.kind
  literal_token : ∀ t, (token t).literal = t.literal
  At : Cursor → Cursor → Prop
  /-- Whether less than a number of tokens is in sight at a place. -/
  Blind : Nat → Cursor → Prop
  current_eq : ∀ {c d}, At c d → ¬Blind 1 c → d.current = token c.current
  peek_eq : ∀ {c d}, At c d → ¬Blind 2 c → d.peek = token c.peek
  advance_at : ∀ {c d}, At c d → ¬Blind 1 c → At c.advance d.advance
  remaining_lt_iff : ∀ {c d c' d'}, At c d → At c' d' →
    (d'.remaining < d.remaining ↔ c'.remaining < c.remaining)
  blind_two : ∀ {c}, Blind 1 c → Blind 2 c
  blind_advance : ∀ {c}, Blind 2 c → Blind 1 c.advance
  blind_reaches : ∀ {n c d}, Blind n c → c.Reaches d → Blind n d

namespace Mirror

open Production

variable {α β : Type} (m : Mirror)

/-- Whether a result lies out of sight. Where a production succeeds this depends on how far it
looked, which `E` says of the place it leads to. -/
def Lost (E : Cursor → Prop) : EStateM.Result Fault Cursor α → Prop
  | .ok _ c => E c
  | .error f c => m.Blind f.sight c

def Agree (g : α → α) : EStateM.Result Fault Cursor α → EStateM.Result Fault Cursor α → Prop
  | .ok a c, .ok b d => b = g a ∧ m.At c d
  | .error f c, .error f' d => f' = f.mapTokens m.token ∧ m.At c d
  | _, _ => False

/-- Whether a production is seen as another one, unless it gets out of sight. -/
structure Reflects (E : Cursor → Prop) (g : α → α) (x y : Production α) : Prop where
  forward : Forward x
  seen : ∀ c d, m.At c d → m.Lost E (x c) ∨ m.Agree g (x c) (y d)

variable {m} {E E' : Cursor → Prop} {g : α → α} {h : β → β}

theorem agree_ok {a : α} {c : Cursor} {r : EStateM.Result Fault Cursor α}
    (hr : m.Agree g (.ok a c) r) : ∃ d, r = .ok (g a) d ∧ m.At c d := by
  cases r with
  | ok b d =>
    obtain ⟨rfl, hat⟩ := hr
    exact ⟨d, rfl, hat⟩
  | error f d => exact hr.elim

theorem agree_error {f : Fault} {c : Cursor} {r : EStateM.Result Fault Cursor α}
    (hr : m.Agree g (.error f c) r) : ∃ d, r = .error (f.mapTokens m.token) d ∧ m.At c d := by
  cases r with
  | ok b d => exact hr.elim
  | error f' d =>
    obtain ⟨rfl, hat⟩ := hr
    exact ⟨d, rfl, hat⟩

variable {x y : Production α} {c c' d : Cursor}

theorem Reflects.of_ok {a : α} (hx : m.Reflects E g x y) (h : x c = .ok a c') (hat : m.At c d) :
    E c' ∨ ∃ d', y d = .ok (g a) d' ∧ m.At c' d' := by
  have hseen := hx.seen c d hat
  rw [h] at hseen
  exact hseen.imp_right agree_ok

theorem Reflects.of_error {f : Fault} (hx : m.Reflects E g x y) (h : x c = .error f c')
    (hat : m.At c d) :
    m.Blind f.sight c' ∨ ∃ d', y d = .error (f.mapTokens m.token) d' ∧ m.At c' d' := by
  have hseen := hx.seen c d hat
  rw [h] at hseen
  exact hseen.imp_right agree_error

theorem blind_of_sight {f : Fault} {c : Cursor} (hc : m.Blind 1 c) : m.Blind f.sight c := by
  rcases f.sight_cases with hf | hf <;> rw [hf]
  · exact hc
  · exact m.blind_two hc

/-- Out of sight of the current token a production stays so. -/
theorem lost_of_forward {x : Production α} (hx : Forward x) (hE : ∀ {c}, m.Blind 1 c → E c)
    {c : Cursor} (hc : m.Blind 1 c) : m.Lost E (x c) := by
  cases hr : x c with
  | ok a d => exact hE (m.blind_reaches hc (hx.ok hr))
  | error f d => exact blind_of_sight (m.blind_reaches hc (hx.error hr).1)

/-- Out of sight of the next token a production stays so if it does not give up at once. -/
theorem lost_of_steps {x : Production α} (hx : Steps x) {c : Cursor} (hc : m.Blind 2 c) :
    m.Lost (m.Blind 2) (x c) := by
  cases hr : x c with
  | ok a d => exact m.blind_reaches hc (hx.forward.ok hr)
  | error f d =>
    change m.Blind f.sight d
    rcases f.sight_cases with hf | hf
    · rw [hf]
      exact m.blind_reaches (m.blind_advance hc) (hx.error hr hf)
    · rw [hf]
      exact m.blind_reaches hc (hx.forward.error hr).1

/-- Where one token is in sight, a production that takes one gets out of sight. -/
theorem lost_of_moves {x : Production α} (hx : Moves x) (hE : ∀ {c}, m.Blind 1 c → E c)
    {c : Cursor} (hc : m.Blind 2 c) : m.Lost E (x c) := by
  cases hr : x c with
  | ok a d => exact hE (m.blind_reaches (m.blind_advance hc) (hx.ok hr))
  | error f d =>
    have hlost := lost_of_steps hx.toSteps hc
    rw [hr] at hlost
    exact hlost

theorem Lost.mono {r : EStateM.Result Fault Cursor α} (hr : m.Lost E r) (hE : ∀ {c}, E c → E' c) :
    m.Lost E' r := by
  cases r with
  | ok a c => exact hE hr
  | error f c => exact hr

theorem Reflects.mono {x y : Production α} (hx : m.Reflects E g x y) (hE : ∀ {c}, E c → E' c) :
    m.Reflects E' g x y :=
  ⟨hx.forward, fun c d hat => (hx.seen c d hat).imp_left fun hlost => hlost.mono hE⟩

theorem reflects_pure {a b : α} (hb : b = g a) : m.Reflects E g (pure a) (pure b) :=
  ⟨forward_pure a, fun _ _ hat => Or.inr ⟨hb, hat⟩⟩

theorem reflects_fail {e e' : Defect} (he : e' = e.mapTokens m.token) :
    m.Reflects E g (fail e) (fail e') :=
  ⟨forward_fail e, fun _ _ hat => Or.inr ⟨congrArg Fault.defect he, hat⟩⟩

theorem reflects_current : m.Reflects (m.Blind 1) m.token current current := by
  refine ⟨forward_current, fun c d hat => ?_⟩
  by_cases hc : m.Blind 1 c
  · exact Or.inl hc
  · exact Or.inr ⟨m.current_eq hat hc, hat⟩

theorem reflects_peek : m.Reflects (m.Blind 2) m.token peek peek := by
  refine ⟨forward_peek, fun c d hat => ?_⟩
  by_cases hc : m.Blind 2 c
  · exact Or.inl hc
  · exact Or.inr ⟨m.peek_eq hat hc, hat⟩

theorem reflects_advance : m.Reflects (m.Blind 1) id advance advance := by
  refine ⟨forward_advance, fun c d hat => ?_⟩
  by_cases hc : m.Blind 1 c
  · exact Or.inl (m.blind_reaches hc c.reaches_advance)
  · exact Or.inr ⟨rfl, m.advance_at hat hc⟩

/-- What is out of sight after the first production stays so in the second one; where it is in
sight, the second one starts at places that are seen as each other. -/
theorem Reflects.bind {x y : Production α} {f f' : α → Production β} (hx : m.Reflects E g x y)
    (hf : ∀ a, m.Reflects E' h (f a) (f' (g a))) (hlost : ∀ a c, E c → m.Lost E' (f a c)) :
    m.Reflects E' h (x >>= f) (y >>= f') := by
  refine ⟨hx.forward.bind fun a => (hf a).forward, fun c d hat => ?_⟩
  cases hc : x c with
  | ok a c' =>
    rw [bind_of_ok hc]
    rcases hx.of_ok hc hat with hE | ⟨d', hd, hat'⟩
    · exact Or.inl (hlost a c' hE)
    · rw [bind_of_ok hd]
      exact (hf a).seen c' d' hat'
  | error e c' =>
    rw [bind_of_error hc]
    refine (hx.of_error hc hat).imp_right ?_
    rintro ⟨d', hd, hat'⟩
    rw [bind_of_error hd]
    exact ⟨rfl, hat'⟩

/-- What looks at the current token only may be followed by anything. -/
theorem Reflects.bind_near {x y : Production α} {f f' : α → Production β}
    (hx : m.Reflects (m.Blind 1) g x y) (hE : ∀ {c}, m.Blind 1 c → E c)
    (hf : ∀ a, m.Reflects E h (f a) (f' (g a))) : m.Reflects E h (x >>= f) (y >>= f') :=
  hx.bind hf fun a _ hc => lost_of_forward (hf a).forward hE hc

/-- What looks at the next token may not be followed by what gives up at the current one. -/
theorem Reflects.bind_far {x y : Production α} {f f' : α → Production β}
    (hx : m.Reflects (m.Blind 2) g x y) (hf : ∀ a, m.Reflects (m.Blind 2) h (f a) (f' (g a)))
    (hsteps : ∀ a, Steps (f a)) : m.Reflects (m.Blind 2) h (x >>= f) (y >>= f') :=
  hx.bind hf fun a _ hc => lost_of_steps (hsteps a) hc

theorem Reflects.bind_moves {x y : Production α} {f f' : α → Production β}
    (hx : m.Reflects (m.Blind 2) g x y) (hE : ∀ {c}, m.Blind 1 c → E c)
    (hf : ∀ a, m.Reflects E h (f a) (f' (g a))) (hmoves : ∀ a, Moves (f a)) :
    m.Reflects E h (x >>= f) (y >>= f') :=
  hx.bind hf fun a _ hc => lost_of_moves (hmoves a) hE hc

theorem Reflects.ite {p q : Prop} [Decidable p] [Decidable q] {x x' y y' : Production α}
    (hpq : q ↔ p) (hx : m.Reflects E g x x') (hy : m.Reflects E g y y') :
    m.Reflects E g (if p then x else y) (if q then x' else y') := by
  by_cases hp : p
  · rw [if_pos hp, if_pos (hpq.2 hp)]
    exact hx
  · rw [if_neg hp, if_neg fun hq => hp (hpq.1 hq)]
    exact hy

theorem kind_eq_iff (m : Mirror) (t : Token) (k : Kind) : (m.token t).kind = k ↔ t.kind = k := by
  rw [m.kind_token]

theorem reflects_expect (k : Kind) : m.Reflects (m.Blind 1) id (expect k) (expect k) := by
  refine ⟨forward_expect k, fun c d hat => ?_⟩
  rw [expect_eq, expect_eq]
  by_cases hc : m.Blind 2 c
  · left
    split
    · exact m.blind_advance hc
    · exact hc
  · rw [m.peek_eq hat hc, m.kind_token]
    have hc' : ¬m.Blind 1 c := fun hblind => hc (m.blind_two hblind)
    right
    split
    · exact ⟨rfl, m.advance_at hat hc'⟩
    · exact ⟨rfl, hat⟩

theorem reflects_allow (k : Kind) : m.Reflects (m.Blind 2) id (allow k) (allow k) :=
  reflects_peek.bind_far
    (fun t => Reflects.ite (m.kind_eq_iff t k) (reflects_advance.mono m.blind_two)
      (reflects_pure rfl))
    fun _ => moves_advance.toSteps.ite (steps_pure _)

theorem lost_many {item : Production (Option α)} (hitem : ∀ c, E c → m.Lost E (item c))
    {c : Cursor} (hc : E c) : m.Lost E (many item c) := by
  fun_induction many item c with
  | case1 c _ _ hr | case2 c _ hr | case5 c _ _ hr =>
    have hlost := hitem c hc
    rw [hr] at hlost
    exact hlost
  | case3 c _ _ hr _ _ _ hmany ih | case4 c _ _ hr _ _ _ hmany ih =>
    have hlost := hitem c hc
    rw [hr] at hlost
    have hrest := ih hlost
    rw [hmany] at hrest
    exact hrest

theorem lost_iterate {step : α → Production (Option α)} (hstep : ∀ a c, E c → m.Lost E (step a c))
    {a : α} {c : Cursor} (hc : E c) : m.Lost E (iterate step a c) := by
  fun_induction iterate step a c with
  | case1 a c _ _ hr | case2 a c _ hr | case4 a c _ _ hr =>
    have hlost := hstep a c hc
    rw [hr] at hlost
    exact hlost
  | case3 a c _ _ hr _ ih =>
    have hlost := hstep a c hc
    rw [hr] at hlost
    exact ih hlost

/-- A repetition is seen as the repetition of what its items are seen as. -/
theorem Reflects.many {item item' : Production (Option α)}
    (hitem : m.Reflects E (Option.map g) item item') (hlost : ∀ c, E c → m.Lost E (item c)) :
    m.Reflects E (List.map g) (many item) (many item') := by
  refine ⟨hitem.forward.many, fun c d hat => ?_⟩
  fun_induction Production.many item c generalizing d with
  | case1 c f c' hr =>
    refine (hitem.of_error hr hat).imp_right ?_
    rintro ⟨d', hd, hat'⟩
    rw [Production.many, hd]
    exact ⟨rfl, hat'⟩
  | case2 c c' hr =>
    refine (hitem.of_ok hr hat).imp_right ?_
    rintro ⟨d', hd, hat'⟩
    rw [Production.many, hd]
    exact ⟨rfl, hat'⟩
  | case3 c a c' hr hlt f c'' hmany ih =>
    rcases hitem.of_ok hr hat with hE | ⟨d', hd, hat'⟩
    · have hrest := lost_many hlost hE
      rw [hmany] at hrest
      exact Or.inl hrest
    · have hrest := ih d' hat'
      rw [hmany] at hrest
      refine hrest.imp_right fun hagree => ?_
      obtain ⟨d'', hd', hat''⟩ := agree_error hagree
      rw [many_of_some hd ((m.remaining_lt_iff hat hat').2 hlt), bind_of_error hd']
      exact ⟨rfl, hat''⟩
  | case4 c a c' hr hlt as c'' hmany ih =>
    rcases hitem.of_ok hr hat with hE | ⟨d', hd, hat'⟩
    · have hrest := lost_many hlost hE
      rw [hmany] at hrest
      exact Or.inl hrest
    · have hrest := ih d' hat'
      rw [hmany] at hrest
      refine hrest.imp_right fun hagree => ?_
      obtain ⟨d'', hd', hat''⟩ := agree_ok hagree
      rw [many_of_some hd ((m.remaining_lt_iff hat hat').2 hlt), bind_of_ok hd']
      exact ⟨rfl, hat''⟩
  | case5 c a c' hr hlt =>
    refine (hitem.of_ok hr hat).imp_right ?_
    rintro ⟨d', hd, hat'⟩
    -- the last round used up no token in either text
    have hlt' : ¬d'.remaining < d.remaining := fun h => hlt ((m.remaining_lt_iff hat hat').1 h)
    rw [Production.many, hd]
    dsimp only [Option.map_some]
    rw [if_neg hlt']
    exact ⟨rfl, hat'⟩

/-- A repetition is seen round by round, by induction on the tokens left in the text that is seen.
-/
theorem Reflects.iterate {step step' : α → Production (Option α)}
    (hstep : ∀ a, m.Reflects E (Option.map g) (step a) (step' (g a)))
    (hlost : ∀ a c, E c → m.Lost E (step a c)) (a : α) :
    m.Reflects E g (iterate step a) (iterate step' (g a)) := by
  refine ⟨Forward.iterate (fun a => (hstep a).forward) a, fun c d hat => ?_⟩
  fun_induction Production.iterate step a c generalizing d with
  | case1 a c f c' hr =>
    refine ((hstep a).of_error hr hat).imp_right ?_
    rintro ⟨d', hd, hat'⟩
    rw [Production.iterate, hd]
    exact ⟨rfl, hat'⟩
  | case2 a c c' hr =>
    refine ((hstep a).of_ok hr hat).imp_right ?_
    rintro ⟨d', hd, hat'⟩
    rw [iterate_of_none hd]
    exact ⟨rfl, hat'⟩
  | case3 a c b c' hr hlt ih =>
    rcases (hstep a).of_ok hr hat with hE | ⟨d', hd, hat'⟩
    · exact Or.inl (lost_iterate hlost hE)
    · rw [iterate_of_some hd ((m.remaining_lt_iff hat hat').2 hlt)]
      exact ih d' hat'
  | case4 a c b c' hr hlt =>
    refine ((hstep a).of_ok hr hat).imp_right ?_
    rintro ⟨d', hd, hat'⟩
    have hlt' : ¬d'.remaining < d.remaining := fun h => hlt ((m.remaining_lt_iff hat hat').1 h)
    rw [Production.iterate, hd]
    dsimp only [Option.map_some]
    rw [if_neg hlt']
    exact ⟨rfl, hat'⟩

/-- A text that goes on with `vs` is seen as one that goes on with `ws` and ends at `stop`, up to
there. -/
def swap (vs ws : List Token) (stop : Position) : Mirror where
  token := id
  kind_token _ := rfl
  literal_token _ := rfl
  At c d := ∃ us, c.rest = us ++ vs ∧ d.rest = us ++ ws ∧ d.stop = stop
  Blind n c := c.rest.length < vs.length + n
  current_eq := by
    rintro c d ⟨us, hc, hd, -⟩ hblind
    unfold Cursor.current
    rw [hc, List.length_append] at hblind
    rw [hc, hd]
    cases us with
    | nil => exact absurd hblind (by simp)
    | cons u us => rfl
  peek_eq := by
    rintro c d ⟨us, hc, hd, -⟩ hblind
    unfold Cursor.peek
    rw [hc, List.length_append] at hblind
    rw [hc, hd]
    rcases us with _ | ⟨u, _ | ⟨u', us⟩⟩
    · exact absurd hblind (by simp)
    · exact absurd hblind (by simp only [List.length_cons, List.length_nil]; omega)
    · rfl
  advance_at := by
    rintro c d ⟨us, hc, hd, hstop⟩ hblind
    rw [hc, List.length_append] at hblind
    cases us with
    | nil => exact absurd hblind (by simp)
    | cons u us =>
      refine ⟨us, ?_, ?_, hstop⟩
      · exact congrArg List.tail hc
      · exact congrArg List.tail hd
  remaining_lt_iff := by
    rintro c d c' d' ⟨us, hc, hd, -⟩ ⟨us', hc', hd', -⟩
    simp only [Cursor.remaining_eq, hc, hd, hc', hd', List.length_append]
    omega
  blind_two := by
    intro c h
    omega
  blind_advance := by
    intro c h
    change c.rest.tail.length < _
    rw [List.length_tail]
    omega
  blind_reaches := by
    intro n c d h hcd
    exact Nat.lt_of_le_of_lt hcd.suffix.length_le h

def image (f : Token → Token) (hkind : ∀ t, (f t).kind = t.kind)
    (hliteral : ∀ t, (f t).literal = t.literal) : Mirror where
  token := f
  kind_token := hkind
  literal_token := hliteral
  At c d := d.rest = c.rest.map f ∧ Token.finish d.stop = f (.finish c.stop)
  Blind _ _ := False
  current_eq := by
    rintro c d ⟨hrest, hstop⟩ -
    unfold Cursor.current
    rw [hrest, hstop]
    cases c.rest <;> rfl
  peek_eq := by
    rintro c d ⟨hrest, hstop⟩ -
    unfold Cursor.peek
    rw [hrest, hstop]
    rcases c.rest with _ | ⟨t, _ | ⟨u, ts⟩⟩ <;> rfl
  advance_at := by
    rintro c d ⟨hrest, hstop⟩ -
    refine ⟨?_, hstop⟩
    exact (congrArg List.tail hrest).trans List.map_tail.symm
  remaining_lt_iff := by
    rintro c d c' d' ⟨hrest, -⟩ ⟨hrest', -⟩
    simp only [Cursor.remaining_eq, hrest, hrest', List.length_map]
  blind_two := id
  blind_advance := id
  blind_reaches := fun h _ => h

end Mirror

end MonkeySyntax
