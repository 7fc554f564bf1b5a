import MonkeySyntax.Proofs.Productions

/-!
# Productions step by step

How a production gets from one place in a text to another. A production leads to another one if it
comes to the same as the other one further on; so reading is followed construct by construct, and
what counts of a place is the tokens behind the current one. A production that gave up because
expressions are nested too deeply counts as led anywhere.
-/

namespace MonkeySyntax

abbrev Cursor.before (ts : List Token) (stop : Position) : Cursor :=
  { rest := ts, stop := stop }

namespace Production

variable {α β : Type}

def GaveUp (r : EStateM.Result Fault Cursor α) : Prop :=
  ∃ t c, r = .error (.defect (.nestedTooDeeply t)) c

/-- In front of `ts`, the production `x` comes to the same as `y` does where `us` is behind the
current token. -/
def Leads (x : Production α) (ts : List Token) (y : Production α) (us : List Token) : Prop :=
  ∀ stop, GaveUp (x (.before ts stop)) ∨
    ∃ t, x (.before ts stop) = y (.before (t :: us) stop)

theorem Leads.refl (x : Production α) (t : Token) (ts : List Token) : Leads x (t :: ts) x ts :=
  fun _ => Or.inr ⟨t, rfl⟩

/-- The token that is current in between does not matter, since no production goes back to it. -/
theorem Leads.trans {x y z : Production α} {ts us vs : List Token} (h : Leads x ts y us)
    (h' : ∀ t, Leads y (t :: us) z vs) : Leads x ts z vs := by
  intro stop
  rcases h stop with hx | ⟨t, hx⟩
  · exact Or.inl hx
  · rw [hx]
    exact h' t stop

/-- A production may be replaced by what it comes to in one step. -/
theorem Leads.of_step {x y z : Production α} {ts us vs : List Token}
    (hx : ∀ stop, x (.before ts stop) = y (.before us stop)) (h : Leads y us z vs) :
    Leads x ts z vs := by
  intro stop
  rw [hx stop]
  exact h stop

theorem Leads.of_gaveUp {x y : Production α} {ts us : List Token}
    (h : ∀ stop, GaveUp (x (.before ts stop))) : Leads x ts y us :=
  fun stop => Or.inl (h stop)

theorem gaveUp_bind {x : Production α} (f : α → Production β) {c : Cursor} (h : GaveUp (x c)) :
    GaveUp ((x >>= f) c) := by
  obtain ⟨t, d, hd⟩ := h
  exact ⟨t, d, bind_of_error hd⟩

theorem Leads.bind {x : Production α} {a : α} {ts us : List Token} (h : Leads x ts (pure a) us)
    (f : α → Production β) : Leads (x >>= f) ts (f a) us := by
  intro stop
  rcases h stop with hx | ⟨t, hx⟩
  · exact Or.inl (gaveUp_bind f hx)
  · exact Or.inr ⟨t, bind_of_ok hx⟩

theorem Leads.bind_next {x : Production α} {f : α → Production β} {y : Production β} {a : α}
    {ts us vs : List Token} (h : Leads x ts (pure a) us)
    (h' : ∀ t, Leads (f a) (t :: us) y vs) : Leads (x >>= f) ts y vs :=
  (h.bind f).trans h'

theorem Leads.current {f : Token → Production α} {y : Production α} {t : Token}
    {ts us : List Token} (h : Leads (f t) (t :: ts) y us) :
    Leads (current >>= f) (t :: ts) y us :=
  fun stop => h stop

theorem Leads.advance {f : Unit → Production α} {y : Production α} {t : Token}
    {ts us : List Token} (h : Leads (f ()) ts y us) : Leads (advance >>= f) (t :: ts) y us :=
  fun stop => h stop

theorem Leads.peek {f : Token → Production α} {y : Production α} {t : Token} {ts us : List Token}
    (h : ∀ u, u.kind = nextKind ts → Leads (f u) (t :: ts) y us) :
    Leads (peek >>= f) (t :: ts) y us :=
  fun stop => h _ (kind_peek (.before (t :: ts) stop)) stop

theorem Leads.expect {k : Kind} {f : Unit → Production α} {y : Production α} {t u : Token}
    {ts us : List Token} (ht : t.kind = k) (h : Leads (f ()) (t :: ts) y us) :
    Leads (expect k >>= f) (u :: t :: ts) y us := by
  refine Leads.of_step (fun stop => bind_of_ok ?_) h
  rw [expect_eq]
  exact if_pos ht

theorem Leads.allow {k : Kind} {f : Unit → Production α} {y : Production α} {t u : Token}
    {ts us : List Token} (ht : t.kind = k) (h : Leads (f ()) (t :: ts) y us) :
    Leads (allow k >>= f) (u :: t :: ts) y us := by
  refine Leads.of_step (fun stop => bind_of_ok ?_) h
  rw [allow_eq]
  exact if_pos ht

theorem Leads.allow_of_ne {k : Kind} {f : Unit → Production α} {y : Production α} {u : Token}
    {ts us : List Token} (hts : nextKind ts ≠ k) (h : Leads (f ()) (u :: ts) y us) :
    Leads (Production.allow k >>= f) (u :: ts) y us := by
  refine Leads.of_step (fun stop => bind_of_ok ?_) h
  rw [allow_eq]
  exact if_neg (by rw [kind_peek]; exact hts)

/-- Where a production leads is where the cursor stands once it is advanced. -/
theorem Leads.advanced {x : Production α} {a : α} {ts us : List Token}
    (h : Leads x ts (pure a) us) (f : α → Production β) (stop : Position) :
    GaveUp ((do let a ← x; Production.advance; f a) (.before ts stop)) ∨
      (do let a ← x; Production.advance; f a) (.before ts stop) = f a (.before us stop) := by
  rcases h stop with hx | ⟨t, hx⟩
  · exact Or.inl (gaveUp_bind _ hx)
  · exact Or.inr (bind_of_ok hx)

theorem Leads.iterate_next {step : α → Production (Option α)} {a b : α} {ts us : List Token}
    (h : Leads (step a) ts (pure (some b)) us) (hlt : us.length + 1 < ts.length) :
    Leads (iterate step a) ts (iterate step b) us := by
  intro stop
  rcases h stop with ⟨e, d, hx⟩ | ⟨t, hx⟩
  · exact Or.inl ⟨e, d, by rw [iterate, hx]⟩
  · -- where the step leads, the current token still counts as one that remains
    exact Or.inr ⟨t, iterate_of_some hx hlt⟩

theorem Leads.iterate_stop {step : α → Production (Option α)} {a : α} {ts us : List Token}
    (h : Leads (step a) ts (pure none) us) : Leads (iterate step a) ts (pure a) us := by
  intro stop
  rcases h stop with ⟨e, d, hx⟩ | ⟨t, hx⟩
  · exact Or.inl ⟨e, d, by rw [iterate, hx]⟩
  · exact Or.inr ⟨t, iterate_of_none hx⟩

/-- An item that used up tokens, and then the repetition from behind it. -/
theorem Leads.many_next {item : Production (Option α)} {a : α} {as : List α}
    {ts us : List Token}
    (h : ∀ stop, GaveUp (item (.before ts stop)) ∨
      ∃ vs, item (.before ts stop) = .ok (some a) (.before vs stop) ∧ vs.length < ts.length ∧
        Leads (many item) vs (pure as) us) :
    Leads (many item) ts (pure (a :: as)) us := by
  intro stop
  rcases h stop with ⟨e, d, hx⟩ | ⟨vs, hx, hlt, h'⟩
  · exact Or.inl ⟨e, d, by rw [many, hx]⟩
  -- the item took something, so the repetition goes on behind it
  have hmany := many_of_some hx hlt
  rcases h' stop with ⟨e, d, ht⟩ | ⟨t, ht⟩
  · exact Or.inl ⟨e, d, by rw [hmany, bind_of_error ht]⟩
  · refine Or.inr ⟨t, ?_⟩
    rw [hmany, bind_of_ok ht]

theorem Leads.many_stop {item : Production (Option α)} {ts us : List Token}
    (h : Leads item ts (pure none) us) : Leads (many item) ts (pure []) us := by
  intro stop
  rcases h stop with ⟨e, d, hx⟩ | ⟨t, hx⟩
  · exact Or.inl ⟨e, d, by rw [many, hx]⟩
  · refine Or.inr ⟨t, ?_⟩
    rw [many, hx]
    rfl

end Production

end MonkeySyntax
