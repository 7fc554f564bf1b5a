import MonkeySyntax.Proofs.Mirroring
import MonkeySyntax.Proofs.Soundness

namespace MonkeySyntax

namespace Mirror

open Production

variable {m : Mirror}

abbrev node (m : Mirror) : Node → Node :=
  Node.mapTokens m.token

abbrev nodes (m : Mirror) : List Node → List Node :=
  List.map m.node

theorem reflects_identifier : m.Reflects (m.Blind 1) m.node identifier identifier :=
  reflects_current.bind_near id
    fun t => reflects_pure (by simp only [Node.mapTokens, m.literal_token])

theorem reflects_boolean : m.Reflects (m.Blind 1) m.node boolean boolean :=
  reflects_current.bind_near id fun t => reflects_pure (by simp only [Node.mapTokens, m.kind_token])

/-- The digits of an integer are seen, and so is its value. -/
theorem integer_seen {c d : Cursor} (hat : m.At c d) :
    m.Lost (m.Blind 1) (integer c) ∨ m.Agree m.node (integer c) (integer d) := by
  by_cases hc : m.Blind 1 c
  · left
    cases hr : integer c with
    | ok n c' =>
      rw [(integer_of_ok hr).1]
      exact hc
    | error f c' =>
      rw [(integer_of_error hr).1]
      exact blind_of_sight hc
  · right
    have hliteral : d.current.literal = c.current.literal := by
      rw [m.current_eq hat hc, m.literal_token]
    unfold integer
    rw [current_bind, current_bind, hliteral, m.current_eq hat hc]
    -- the checks look at the literal only
    split
    · exact ⟨rfl, hat⟩
    split
    · exact ⟨rfl, hat⟩
    split
    · exact ⟨rfl, hat⟩
    · exact ⟨rfl, hat⟩

/-- A statement is seen as the same statement if that counts of what ends it. -/
theorem Reflects.statement {E : Cursor → Prop} (hE : ∀ {c}, m.Blind 1 c → E c)
    {sub : Nat → Production Node} (hended : ∀ {x : Production Node} {f f' : Node → Node},
      x = nextExpression sub ∨ x = sub Precedence.lowest.level →
      (∀ v, f' (m.node v) = m.node (f v)) →
      m.Reflects E m.node (do let v ← x; allow .semicolon; return f v)
        (do let v ← x; allow .semicolon; return f' v)) :
    m.Reflects E m.node (Production.statement sub) (Production.statement sub) := by
  refine reflects_current.bind_near hE fun t => ?_
  rw [m.kind_token]
  split
  · refine reflects_current.bind_near hE fun t => (reflects_expect _).bind_near hE fun _ => ?_
    refine reflects_identifier.bind_near hE fun x => (reflects_expect _).bind_near hE fun _ => ?_
    exact hended (Or.inl rfl) fun v => rfl
  · exact reflects_current.bind_near hE fun t => hended (Or.inl rfl) fun v => rfl
  · exact reflects_current.bind_near hE fun t => hended (Or.inr rfl) fun v => rfl

section

variable {sub : Nat → Production Node}
  (hsub : ∀ level, m.Reflects (m.Blind 2) m.node (sub level) (sub level))

include hsub

theorem forward_of_reflects (level : Nat) : Forward (sub level) :=
  (hsub level).forward

theorem moves_nextExpression : Moves (nextExpression sub) :=
  moves_advance.bind fun _ => forward_of_reflects hsub _

theorem reflects_nextExpression :
    m.Reflects (m.Blind 2) m.node (nextExpression sub) (nextExpression sub) :=
  reflects_advance.bind_near m.blind_two fun _ => hsub _

theorem moves_slot (s : Slot) : Moves (s.production sub) := by
  cases s with
  | parameter => exact (moves_expect _).bind fun _ => forward_current.bind fun _ => forward_pure _
  | argument => exact moves_nextExpression hsub

theorem reflects_slot (s : Slot) :
    m.Reflects (m.Blind 2) m.node (s.production sub) (s.production sub) := by
  cases s with
  | parameter =>
    exact (reflects_expect _).bind_near m.blind_two fun _ => reflects_identifier.mono m.blind_two
  | argument => exact reflects_nextExpression hsub

theorem steps_furtherItems (s : Slot) : Steps (furtherItems (s.production sub)) :=
  Steps.many <| Steps.peek fun _ => Steps.ite
    (moves_advance.bind fun _ => (forward_slot (forward_of_reflects hsub) s).bind fun _ =>
      forward_pure _).toSteps
    (steps_pure _)

theorem reflects_furtherItems (s : Slot) :
    m.Reflects (m.Blind 2) m.nodes (furtherItems (s.production sub))
      (furtherItems (s.production sub)) := by
  have hnext (t : Token) : Steps (if t.kind = .comma then do
      advance
      return some (← s.production sub)
    else return none : Production (Option Node)) :=
    (moves_advance.bind fun _ => (moves_slot hsub s).forward.bind fun _ =>
      forward_pure _).toSteps.ite (steps_pure _)
  refine Reflects.many ?_ fun c hc => lost_of_steps (Steps.peek hnext) hc
  refine reflects_peek.bind_far (fun t => Reflects.ite (m.kind_eq_iff t _) ?_ ?_) hnext
  · exact reflects_advance.bind_near m.blind_two fun _ =>
      (reflects_slot hsub s).bind_far (fun _ => reflects_pure rfl) fun _ => steps_pure _
  · exact reflects_pure rfl

/-- A list ends at its closing parenthesis and does not look behind it. -/
theorem reflects_list (s : Slot) :
    m.Reflects (m.Blind 1) m.nodes (s.list sub) (s.list sub) := by
  have hclose (ns : List Node) : Moves (do expect .rparen; return ns : Production (List Node)) :=
    (moves_expect _).bind fun _ => forward_pure _
  have hmore (n : Node) : Moves (do
      let more ← furtherItems (s.production sub)
      expect .rparen
      return n :: more : Production (List Node)) :=
    (steps_furtherItems hsub s).bind_moves fun _ => hclose _
  rw [list_eq]
  refine reflects_peek.bind_moves id (fun t => Reflects.ite (m.kind_eq_iff t _) ?_ ?_) fun t => ?_
  · exact reflects_advance.bind_near id fun _ => reflects_pure rfl
  · refine (reflects_slot hsub s).bind_moves id (fun n => ?_) hmore
    refine (reflects_furtherItems hsub s).bind_moves id (fun ns => ?_) fun ns => hclose (n :: ns)
    exact (reflects_expect _).bind_near id fun _ => reflects_pure rfl
  · exact (moves_advance.bind fun _ => forward_pure _).ite
      ((moves_slot hsub s).bind fun n => (hmore n).forward)

theorem reflects_statement : m.Reflects (m.Blind 2) m.node (statement sub) (statement sub) := by
  refine Reflects.statement m.blind_two fun {x f f'} hx hf => ?_
  have hvalue : m.Reflects (m.Blind 2) m.node x x := by
    rcases hx with rfl | rfl
    · exact reflects_nextExpression hsub
    · exact hsub _
  refine hvalue.bind_far (fun v => ?_) fun v => (steps_allow _).bind fun _ => steps_pure _
  exact (reflects_allow _).bind_far (fun _ => reflects_pure (hf v)) fun _ => steps_pure _

/-- A block ends at its closing brace and does not look behind it. -/
theorem reflects_block : m.Reflects (m.Blind 1) m.node (block sub) (block sub) := by
  have hstatements (brace : Token) : m.Reflects (m.Blind 1) m.nodes (blockStatements sub brace)
      (blockStatements sub (m.token brace)) := by
    have hitem : m.Reflects (m.Blind 1) (Option.map m.node)
        (do
          let t ← current
          if t.kind = .rbrace then return none
          else if t.kind = .eof then fail (.unterminatedBlock brace)
          else
            let s ← statement sub
            advance
            return some s)
        (do
          let t ← current
          if t.kind = .rbrace then return none
          else if t.kind = .eof then fail (.unterminatedBlock (m.token brace))
          else
            let s ← statement sub
            advance
            return some s) := by
      refine reflects_current.bind_near id fun t => ?_
      refine Reflects.ite (m.kind_eq_iff t _) (reflects_pure rfl) ?_
      refine Reflects.ite (m.kind_eq_iff t _) (reflects_fail rfl) ?_
      refine (reflects_statement hsub).bind_moves id (fun s => ?_) fun s =>
        moves_advance.bind fun _ => forward_pure _
      exact reflects_advance.bind_near id fun _ => reflects_pure rfl
    exact Reflects.many hitem fun c hc => lost_of_forward hitem.forward id hc
  refine reflects_current.bind_near id fun brace => reflects_advance.bind_near id fun _ => ?_
  refine (hstatements brace).bind_near id fun ss => reflects_pure ?_
  rw [node, Node.mapTokens, Node.mapAll_eq_map]

theorem reflects_unary : m.Reflects (m.Blind 2) m.node (unary sub) (unary sub) := by
  refine reflects_current.bind_near m.blind_two fun t => ?_
  refine reflects_advance.bind_near m.blind_two fun _ => ?_
  refine (hsub _).bind_far (fun e => reflects_pure ?_) fun e => steps_pure _
  rw [m.literal_token]
  rfl

theorem reflects_grouped : m.Reflects (m.Blind 1) m.node (grouped sub) (grouped sub) := by
  refine (reflects_nextExpression hsub).bind_moves id (fun e => ?_) fun e =>
    (moves_expect _).bind fun _ => forward_pure _
  exact (reflects_expect _).bind_near id fun _ => reflects_pure rfl

/-- A choice looks for an else behind its first block. -/
theorem reflects_conditional :
    m.Reflects (m.Blind 2) m.node (conditional sub) (conditional sub) := by
  have hexpect (k : Kind) {f f' : Unit → Production Node}
      (hf : m.Reflects (m.Blind 2) m.node (f ()) (f' ())) :
      m.Reflects (m.Blind 2) m.node (expect k >>= f) (expect k >>= f') :=
    (reflects_expect k).bind_near m.blind_two fun _ => hf
  have hblock {f f' : Node → Production Node}
      (hf : ∀ b, m.Reflects (m.Blind 2) m.node (f b) (f' (m.node b))) :
      m.Reflects (m.Blind 2) m.node (expect .lbrace >>= fun _ => block sub >>= f)
        (expect .lbrace >>= fun _ => block sub >>= f') :=
    hexpect _ ((reflects_block hsub).bind_near m.blind_two hf)
  refine reflects_current.bind_near m.blind_two fun t => hexpect _ ?_
  -- behind the condition there has to be a parenthesis
  refine Reflects.bind_far (reflects_nextExpression hsub) (fun e => ?_) fun e => ?_
  · refine hexpect _ (hblock fun b => ?_)
    refine reflects_peek.bind_far (fun u => Reflects.ite (m.kind_eq_iff u _) ?_ ?_) fun u => ?_
    · exact reflects_advance.bind_near m.blind_two fun _ => hblock fun a => reflects_pure rfl
    · exact reflects_pure rfl
    · refine Steps.ite (Moves.toSteps ?_) (steps_pure _)
      exact moves_advance.bind fun _ => (forward_expect _).bind fun _ =>
        (reflects_block hsub).forward.bind fun _ => forward_pure _
  · refine Moves.toSteps ((moves_expect _).bind fun _ => (forward_expect _).bind fun _ => ?_)
    refine (reflects_block hsub).forward.bind fun _ => forward_peek.bind fun _ => Forward.ite ?_ ?_
    · exact forward_advance.bind fun _ => (forward_expect _).bind fun _ =>
        (reflects_block hsub).forward.bind fun _ => forward_pure _
    · exact forward_pure _

theorem reflects_functionLiteral :
    m.Reflects (m.Blind 1) m.node (functionLiteral sub) (functionLiteral sub) := by
  refine reflects_current.bind_near id fun t => (reflects_expect _).bind_near id fun _ => ?_
  refine Reflects.bind_near (reflects_list hsub .parameter) id fun ps => ?_
  refine (reflects_expect _).bind_near id fun _ => (reflects_block hsub).bind_near id fun b => ?_
  refine reflects_pure ?_
  rw [node, Node.mapTokens, Node.mapAll_eq_map]

theorem reflects_primary {k : Kind} (hk : k ≠ .int) :
    m.Reflects (m.Blind 2) m.node (primary sub k) (primary sub k) := by
  cases k with
  | int => exact absurd rfl hk
  | ident => exact reflects_identifier.mono m.blind_two
  | wordTrue | wordFalse => exact reflects_boolean.mono m.blind_two
  | bang | minus => exact reflects_unary hsub
  | lparen => exact (reflects_grouped hsub).mono m.blind_two
  | wordIf => exact reflects_conditional hsub
  | wordFn => exact (reflects_functionLiteral hsub).mono m.blind_two
  | _ => exact reflects_current.bind_near m.blind_two fun _ => reflects_fail rfl

theorem reflects_operand (rules : Rules) :
    m.Reflects (m.Blind 2) m.node (operand sub rules) (operand sub rules) := by
  have hforward := forward_operand (forward_of_reflects hsub) rules
  refine ⟨hforward, fun c d hat => ?_⟩
  by_cases hc : m.Blind 1 c
  · exact Or.inl (lost_of_forward hforward m.blind_two hc)
  have hcurrent := m.current_eq hat hc
  rw [operand_eq, operand_eq, hcurrent, m.kind_token]
  split
  · by_cases hk : c.current.kind = .int
    · rw [hk]
      exact (integer_seen hat).imp_left fun hlost => hlost.mono m.blind_two
    · exact (reflects_primary hsub hk).seen c d hat
  · exact Or.inr ⟨rfl, hat⟩

theorem reflects_call (callee : Node) :
    m.Reflects (m.Blind 1) m.node (call sub callee) (call sub (m.node callee)) := by
  refine reflects_current.bind_near id fun t => ?_
  refine Reflects.bind_near (reflects_list hsub .argument) id fun as => reflects_pure ?_
  rw [node, Node.mapTokens, Node.mapAll_eq_map]

theorem reflects_binary (left : Node) :
    m.Reflects (m.Blind 2) m.node (binary sub left) (binary sub (m.node left)) := by
  refine reflects_current.bind_near m.blind_two fun t => ?_
  refine reflects_advance.bind_near m.blind_two fun _ => ?_
  rw [m.kind_token, m.literal_token]
  exact (hsub _).bind_far (fun r => reflects_pure rfl) fun r => steps_pure _

theorem reflects_extend (rules : Rules) (level : Nat) (left : Node) :
    m.Reflects (m.Blind 2) m.node (extend sub rules level left)
      (extend sub rules level (m.node left)) := by
  have hcall (n : Node) : m.Reflects (m.Blind 2) (Option.map m.node)
      (do return some (← call sub n)) (do return some (← call sub (m.node n))) :=
    (reflects_call hsub n).bind_near m.blind_two fun _ => reflects_pure rfl
  have hbinary (n : Node) : m.Reflects (m.Blind 2) (Option.map m.node)
      (do return some (← binary sub n)) (do return some (← binary sub (m.node n))) :=
    (reflects_binary hsub n).bind_far (fun _ => reflects_pure rfl) fun _ => steps_pure _
  have hnext (n : Node) (t : Token) : Steps (if t.kind ≠ .semicolon ∧
        level < t.kind.precedence.level ∧ t.kind ∈ rules.operatorKinds then do
      advance
      if t.kind = .lparen then return some (← call sub n) else return some (← binary sub n)
    else return none : Production (Option Node)) := by
    refine Steps.ite (Moves.toSteps ?_) (steps_pure _)
    exact moves_advance.bind fun _ => (hcall n).forward.ite (hbinary n).forward
  refine Reflects.iterate (fun n => ?_) (fun n c hc => lost_of_steps (Steps.peek (hnext n)) hc) left
  refine reflects_peek.bind_far (fun t => ?_) (hnext n)
  rw [m.kind_token]
  refine Reflects.ite Iff.rfl ?_ (reflects_pure rfl)
  exact reflects_advance.bind_near m.blind_two fun _ =>
    Reflects.ite Iff.rfl (hcall n) (hbinary n)

theorem steps_extend (rules : Rules) (level : Nat) (left : Node) :
    Steps (extend sub rules level left) := by
  refine Steps.iterate (fun n => Steps.peek fun t => ?_) left
  refine Steps.ite (Moves.toSteps ?_) (steps_pure _)
  refine moves_advance.bind fun _ => Forward.ite ?_ ?_
  · exact (reflects_call hsub n).forward.bind fun _ => forward_pure _
  · exact (reflects_binary hsub n).forward.bind fun _ => forward_pure _

end

/-- Expressions are seen as the same expressions, by induction on the limit. -/
theorem reflects_expression (rules : Rules) (limit level : Nat) :
    m.Reflects (m.Blind 2) m.node (expression rules limit level)
      (expression rules limit level) := by
  -- the expressions inside are nested less deeply
  induction limit generalizing level with
  | zero => exact reflects_current.bind_near m.blind_two fun _ => reflects_fail rfl
  | succ limit ih =>
    exact (reflects_operand ih rules).bind_far (fun left => reflects_extend ih rules level left)
      fun left => steps_extend ih rules level left

end Mirror

end MonkeySyntax
