import MonkeySyntax.Tree.Compare

namespace MonkeySyntax

variable {first second : Option Bool} {q q' p p' : Prop}

/-- Whether an answer to the question `q` is right, and is given where `p` holds. -/
structure Decides (answer : Option Bool) (q p : Prop) : Prop where
  right : ∀ {b}, answer = some b → (b = true ↔ q)
  given : p → answer.isSome

theorem Decides.imp (h : Decides first q p) (hq : q ↔ q') (hp : p' → p) : Decides first q' p' :=
  ⟨fun hb => (h.right hb).trans hq, fun hp' => h.given (hp hp')⟩

theorem decides_some {b : Bool} (hb : b = true ↔ q) : Decides (some b) q p := by
  refine ⟨fun hsome => ?_, fun _ => rfl⟩
  cases hsome
  exact hb

theorem decides_beq {α : Type} [BEq α] [LawfulBEq α] (a b : α) :
    Decides (some (a == b)) (a = b) p :=
  decides_some beq_iff_eq

/-- Where the first question is answered with no, the second one need not be asked. -/
theorem Decides.andAlso (h : Decides first q p) (h' : q → Decides second q' p') :
    Decides (andAlso first second) (q ∧ q') (p ∧ p') := by
  cases first with
  | none => exact ⟨(fun hb => nomatch hb), fun hp => nomatch h.given hp.1⟩
  | some b =>
    have hright : b = true ↔ q := h.right rfl
    cases b with
    | false =>
      have hq : ¬q := fun hq => nomatch hright.2 hq
      exact decides_some ⟨(fun hfalse => nomatch hfalse), fun hboth => absurd hboth.1 hq⟩
    | true =>
      have hq : q := hright.1 rfl
      exact (h' hq).imp (and_iff_right hq).symm And.right

namespace Node

theorem depth_pos (n : Node) : 0 < n.depth := by
  cases n with
  | conditional t c b a => cases a <;> exact Nat.succ_pos _
  | _ => exact Nat.succ_pos _

variable {limit : Nat} {same : Node → Node → Option Bool}

/-- Lists are told apart by their lengths or by the first elements that differ. -/
theorem decides_sameAll (hsame : ∀ n m, Decides (same n m) (n = m) (n.depth ≤ limit))
    (ns ms : List Node) : Decides (sameAll same ns ms) (ns = ms) (depthOfAll ns ≤ limit) := by
  have hgo (hlength : ns.length = ms.length) :
      Decides (sameAll.go same ns ms) (ns = ms) (depthOfAll ns ≤ limit) := by
    induction ns generalizing ms with
    | nil =>
      cases ms with
      | nil => exact decides_some (iff_of_true rfl rfl)
      | cons m ms => cases hlength
    | cons n ns ih =>
      cases ms with
      | nil => cases hlength
      | cons m ms =>
        refine ((hsame n m).andAlso fun _ => ih ms (Nat.succ.inj hlength)).imp ?_ Nat.max_le.1
        rw [List.cons.injEq]
  have hlength : Decides (some (ns.length == ms.length)) (ns.length = ms.length) True :=
    decides_beq _ _
  exact (hlength.andAlso hgo).imp ⟨And.right, fun heq => ⟨congrArg List.length heq, heq⟩⟩
    fun hdepth => ⟨trivial, hdepth⟩

/-- Trees of one form, whose parts can be compared one by one. -/
inductive OfOneForm : Node → Node → Prop
  | identifier (t u x y) : OfOneForm (.identifier t x) (.identifier u y)
  | integer (t u x y) : OfOneForm (.integer t x) (.integer u y)
  | boolean (t u x y) : OfOneForm (.boolean t x) (.boolean u y)
  | unary (t u o o' e e') : OfOneForm (.unary t o e) (.unary u o' e')
  | binary (t u l l' o o' r r') : OfOneForm (.binary t l o r) (.binary u l' o' r')
  | conditional (t u c c' b b' a a') :
      OfOneForm (.conditional t c b a) (.conditional u c' b' a')
  | function (t u ps ps' b b') : OfOneForm (.function t ps b) (.function u ps' b')
  | call (t u f f' as as') : OfOneForm (.call t f as) (.call u f' as')
  | placeholder (t u) : OfOneForm (.placeholder t) (.placeholder u)
  | letStatement (t u x x' v v') : OfOneForm (.letStatement t x v) (.letStatement u x' v')
  | returnStatement (t u v v') : OfOneForm (.returnStatement t v) (.returnStatement u v')
  | expressionStatement (t u v v') :
      OfOneForm (.expressionStatement t v) (.expressionStatement u v')
  | block (t u ss ss') : OfOneForm (.block t ss) (.block u ss')

theorem ofOneForm_of_eq {n m : Node} (h : n.form = m.form) : OfOneForm n m := by
  cases n <;> cases m <;> first | constructor | simp [form] at h

/-- The form and the token of two trees are compared before their parts. -/
theorem decides_head {n m : Node} (hform : n.form = m.form) :
    Decides (some (n.form == m.form && n.token == m.token)) (n.token = m.token) True :=
  decides_some (by simp [hform])

/-- Trees of different forms are told apart however deep they are. -/
theorem same_of_form_ne {n m : Node} (hform : n.form ≠ m.form) :
    Node.same (limit + 1) n m = some false := by
  have hhead : (n.form == m.form && n.token == m.token) = false := by simp [hform]
  rw [Node.same.eq_def]
  dsimp only
  rw [hhead]
  rfl

/-- An alternative is compared only where both choices have one. -/
theorem decides_alternative (hsame : ∀ n m, Decides (same n m) (n = m) (n.depth ≤ limit))
    (a b : Option Node) :
    Decides (match a, b with
      | none, none => some true
      | some n, some m => same n m
      | _, _ => some false) (a = b) (∀ n, a = some n → n.depth ≤ limit) := by
  cases a with
  | none =>
    cases b with
    | none => exact decides_some (iff_of_true rfl rfl)
    | some m => exact decides_some (iff_of_false Bool.false_ne_true nofun)
  | some n =>
    cases b with
    | none => exact decides_some (iff_of_false Bool.false_ne_true nofun)
    | some m =>
      refine (hsame n m).imp ?_ fun hdepth => hdepth n rfl
      rw [Option.some.injEq]

/-- The comparison of two trees decides whether they are equal, and does so up to the limit. -/
theorem decides_same (limit : Nat) (n m : Node) :
    Decides (Node.same limit n m) (n = m) (n.depth ≤ limit) := by
  induction limit generalizing n m with
  | zero =>
    exact ⟨(fun hb => nomatch hb), fun hdepth => absurd n.depth_pos (Nat.not_lt.2 hdepth)⟩
  | succ limit ih =>
    by_cases hform : n.form = m.form
    · -- both have parts of the same kinds, which are one level less deep
      have hhead := decides_head hform
      have hplain {α : Type} [BEq α] [LawfulBEq α] (x y : α) :
          Decides (some (x == y)) (x = y) True := decides_beq x y
      cases ofOneForm_of_eq hform with
      | identifier t u x y | integer t u x y | boolean t u x y =>
        exact (hhead.andAlso fun _ => hplain x y).imp (by simp [token]) (by simp)
      | placeholder t u =>
        exact (hhead.andAlso fun _ => decides_some (p := True) (iff_of_true rfl trivial)).imp
          (by simp [token]) (by simp)
      | unary t u o o' e e' =>
        exact (hhead.andAlso fun _ => (hplain o o').andAlso fun _ => ih e e').imp
          (by simp [token]) (by simp [depth])
      | binary t u l l' o o' r r' =>
        exact (hhead.andAlso fun _ => (ih l l').andAlso fun _ => (hplain o o').andAlso fun _ =>
          ih r r').imp (by simp [token]) (by simp [depth, Nat.max_le])
      | conditional t u c c' b b' a a' =>
        refine (hhead.andAlso fun _ => (ih c c').andAlso fun _ => (ih b b').andAlso fun _ =>
          decides_alternative ih a a').imp (by simp [token]) fun hdepth => ?_
        cases a <;> simp_all [depth, Nat.max_le]
      | function t u ps ps' b b' =>
        exact (hhead.andAlso fun _ => (decides_sameAll ih ps ps').andAlso fun _ => ih b b').imp
          (by simp [token]) (by simp [depth, Nat.max_le])
      | call t u f f' as as' =>
        exact (hhead.andAlso fun _ => (ih f f').andAlso fun _ => decides_sameAll ih as as').imp
          (by simp [token]) (by simp [depth, Nat.max_le])
      | letStatement t u x x' v v' =>
        exact (hhead.andAlso fun _ => (ih x x').andAlso fun _ => ih v v').imp
          (by simp [token]) (by simp [depth, Nat.max_le])
      | returnStatement t u v v' | expressionStatement t u v v' =>
        exact (hhead.andAlso fun _ => ih v v').imp (by simp [token]) (by simp [depth])
      | block t u ss ss' =>
        exact (hhead.andAlso fun _ => decides_sameAll ih ss ss').imp
          (by simp [token]) (by simp [depth])
    · rw [same_of_form_ne hform]
      exact decides_some (iff_of_false Bool.false_ne_true fun heq => hform (congrArg form heq))

end Node

/-- Whatever the limit is, an answer of the comparison of two programs is right, and there is one if
the first program is not deeper than the limit. -/
theorem Program.decides_same (limit : Nat) (p q : Program) :
    (∀ b, p.same limit q = some b → (b = true ↔ p = q)) ∧
      (p.depth ≤ limit → (p.same limit q).isSome) := by
  have hstatements : Decides (p.same limit q) (p.statements = q.statements) (p.depth ≤ limit) :=
    Node.decides_sameAll (Node.decides_same limit) p.statements q.statements
  have heq : p = q ↔ p.statements = q.statements := by
    cases p
    cases q
    rw [mk.injEq]
  exact ⟨fun b hb => (hstatements.right hb).trans heq.symm, hstatements.given⟩

end MonkeySyntax
