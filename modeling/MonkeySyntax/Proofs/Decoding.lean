import MonkeySyntax.Proofs.Anatomy
import MonkeySyntax.Tree.Document

namespace MonkeySyntax

open Production

/-- The kind that a text has as a token of its own; the end of the text is the token of no text. -/
def Kind.ofLiteral (s : String) : Kind :=
  match s.toList with
  | [] => .eof
  | c :: cs => (lexeme c cs).kind

namespace Node

mutual

/-- The node that a document tells of, with the kinds of tokens taken from their literals. -/
def ofDocument? : Json → Option Node
  | .obj (("kind", .str form) :: ("literal", .str literal) :: ("line", .int line) ::
      ("col", .int column) :: members) =>
    let t : Token := ⟨.ofLiteral literal, literal, ⟨line, column⟩⟩
    match form, members with
    | "Identifier", [("value", .str name)] => some (.identifier t name)
    | "IntegerLiteral", [("value", .int value)] => some (.integer t value)
    | "BooleanLiteral", [("value", .bool value)] => some (.boolean t value)
    | "PrefixExpression", [("operator", .str op), ("children", .obj [("operand", e)])] => do
      return .unary t op (← ofDocument? e)
    | "InfixExpression",
        [("operator", .str op), ("children", .obj [("left", l), ("right", r)])] => do
      return .binary t (← ofDocument? l) op (← ofDocument? r)
    | "IfExpression",
        [("children", .obj [("condition", c), ("consequence", b), ("alternative", .null)])] => do
      return .conditional t (← ofDocument? c) (← ofDocument? b) none
    | "IfExpression",
        [("children", .obj [("condition", c), ("consequence", b), ("alternative", a)])] => do
      return .conditional t (← ofDocument? c) (← ofDocument? b) (some (← ofDocument? a))
    | "FunctionLiteral", [("children", .obj [("parameters", .arr ps), ("body", b)])] => do
      return .function t (← ofDocuments? ps) (← ofDocument? b)
    | "CallExpression", [("children", .obj [("function", f), ("arguments", .arr as)])] => do
      return .call t (← ofDocument? f) (← ofDocuments? as)
    | "PlaceholderExpression", [] => some (.placeholder t)
    | "LetStatement", [("children", .obj [("identifier", x), ("value", v)])] => do
      return .letStatement t (← ofDocument? x) (← ofDocument? v)
    | "ReturnStatement", [("children", .obj [("value", v)])] => do
      return .returnStatement t (← ofDocument? v)
    | "ExpressionStatement", [("children", .obj [("value", v)])] => do
      return .expressionStatement t (← ofDocument? v)
    | "BlockStatement", [("children", .obj [("statements", .arr ss)])] => do
      return .block t (← ofDocuments? ss)
    | _, _ => none
  | _ => none

def ofDocuments? : List Json → Option (List Node)
  | [] => some []
  | d :: ds => do return (← ofDocument? d) :: (← ofDocuments? ds)

end

end Node

def Program.ofDocument? : Json → Option Program
  | .obj [("kind", .str "Program"), ("statements", .arr ss)] => do
    return ⟨← Node.ofDocuments? ss⟩
  | _ => none

def Token.told (t : Token) : Token :=
  { t with kind := .ofLiteral t.literal }

def Token.IsTold (t : Token) : Prop :=
  Kind.ofLiteral t.literal = t.kind

theorem Token.IsTold.told_eq {t : Token} (h : t.IsTold) : t.told = t :=
  Token.ext h rfl rfl

/-- The literal of a token tells its kind, unless it fits no rule. -/
theorem Token.IsLexical.isTold {t : Token} (h : t.IsLexical) (hk : t.kind ≠ .illegal) :
    t.IsTold := by
  -- with no text behind it the literal is a lexeme of its own
  obtain ⟨c, cs, hliteral, -, hlexeme⟩ := lexeme_of_lexical h hk boundary_nil
  rw [List.append_nil] at hlexeme
  calc Kind.ofLiteral t.literal
      = (lexeme c cs).kind := by
        unfold Kind.ofLiteral
        rw [hliteral]
    _ = t.kind := by rw [hlexeme]

theorem isTold_of_mem_tokenize {source : String} {t : Token} (ht : t ∈ tokenize source)
    (hk : t.kind ≠ .illegal) : t.IsTold := by
  rcases List.mem_append.1 ht with ht | ht
  · exact (isLexical_of_mem_lex ht).isTold hk
  · rw [List.mem_singleton.1 ht]
    rfl

/-- No node of a text keeps a token that fits no rule. -/
theorem Node.IsSound.kind_ne_illegal {n : Node} (h : n.IsSound) : n.token.kind ≠ .illegal := by
  have hsigns : ∀ s ∈ signs, s.2 ≠ .illegal := by decide
  have hoperators : ∀ s ∈ operators, s.2 ≠ .illegal := by decide
  have hof {t : Token} {k : Kind} (ht : t.kind = k) (hk : k ≠ .illegal) : t.kind ≠ .illegal := by
    rw [ht]
    exact hk
  cases n with
  | boolean t v =>
    cases v with
    | true => exact hof (h.1.1 rfl) (by decide)
    | false => exact hof (h.2.1 rfl) (by decide)
  | unary t op e => exact hsigns _ h.2.1
  | binary t l op r => exact hoperators _ h.2.1
  | placeholder t => exact h.elim
  | expressionStatement t v =>
    intro hk
    exact h.1 (by rw [show t.kind = .illegal from hk]; decide)
  | _ => exact hof h.1 (by decide)

namespace Node

theorem exists_document (n : Node) : ∃ ms, n.document = .obj ms := by
  cases n with
  | conditional t c b a => cases a <;> exact ⟨_, rfl⟩
  | _ => exact ⟨_, rfl⟩

theorem ofDocuments?_documents {ns : List Node} (h : ∀ n ∈ ns, ofDocument? n.document = some n) :
    ofDocuments? (documents ns) = some ns := by
  induction ns with
  | nil => rfl
  | cons n ns ih =>
    obtain ⟨hn, hns⟩ := List.forall_mem_cons.1 h
    calc ofDocuments? (documents (n :: ns))
        = (ofDocument? n.document).bind fun m =>
            (ofDocuments? (documents ns)).bind fun ms => some (m :: ms) := rfl
      _ = some (n :: ns) := by
          rw [hn, ih hns]
          rfl

section

variable {t : Token} {op : String} {e c b a f l r x v : Node} {ps as ss : List Node}

theorem ofDocument?_unary (ht : t.told = t) (he : ofDocument? e.document = some e) :
    ofDocument? (Node.unary t op e).document = some (.unary t op e) := by
  calc ofDocument? (Node.unary t op e).document
      = (ofDocument? e.document).bind fun e => some (.unary t.told op e) := rfl
    _ = some (.unary t op e) := by
        rw [he, ht]
        rfl

theorem ofDocument?_binary (ht : t.told = t) (hl : ofDocument? l.document = some l)
    (hr : ofDocument? r.document = some r) :
    ofDocument? (Node.binary t l op r).document = some (.binary t l op r) := by
  calc ofDocument? (Node.binary t l op r).document
      = (ofDocument? l.document).bind fun l =>
          (ofDocument? r.document).bind fun r => some (.binary t.told l op r) := rfl
    _ = some (.binary t l op r) := by
        rw [hl, hr, ht]
        rfl

theorem ofDocument?_conditional (ht : t.told = t) (hc : ofDocument? c.document = some c)
    (hb : ofDocument? b.document = some b) :
    ofDocument? (Node.conditional t c b none).document = some (.conditional t c b none) := by
  calc ofDocument? (Node.conditional t c b none).document
      = (ofDocument? c.document).bind fun c =>
          (ofDocument? b.document).bind fun b => some (.conditional t.told c b none) := rfl
    _ = some (.conditional t c b none) := by
        rw [hc, hb, ht]
        rfl

theorem ofDocument?_choice (ht : t.told = t) (hc : ofDocument? c.document = some c)
    (hb : ofDocument? b.document = some b) (ha : ofDocument? a.document = some a) :
    ofDocument? (Node.conditional t c b (some a)).document =
      some (.conditional t c b (some a)) := by
  -- the document of a node is an object, so it is not taken for a missing one
  obtain ⟨ms, hms⟩ := a.exists_document
  calc ofDocument? (Node.conditional t c b (some a)).document
      = (ofDocument? c.document).bind fun c =>
          (ofDocument? b.document).bind fun b =>
            (ofDocument? a.document).bind fun a =>
              some (.conditional t.told c b (some a)) := by
        change ofDocument? (.obj (_ ++ [("children", .obj [("condition", c.document),
          ("consequence", b.document), ("alternative", a.document)])])) = _
        rw [hms]
        rfl
    _ = some (.conditional t c b (some a)) := by
        rw [hc, hb, ha, ht]
        rfl

theorem ofDocument?_function (ht : t.told = t) (hps : ofDocuments? (documents ps) = some ps)
    (hb : ofDocument? b.document = some b) :
    ofDocument? (Node.function t ps b).document = some (.function t ps b) := by
  calc ofDocument? (Node.function t ps b).document
      = (ofDocuments? (documents ps)).bind fun ps =>
          (ofDocument? b.document).bind fun b => some (.function t.told ps b) := rfl
    _ = some (.function t ps b) := by
        rw [hps, hb, ht]
        rfl

theorem ofDocument?_call (ht : t.told = t) (hf : ofDocument? f.document = some f)
    (has : ofDocuments? (documents as) = some as) :
    ofDocument? (Node.call t f as).document = some (.call t f as) := by
  calc ofDocument? (Node.call t f as).document
      = (ofDocument? f.document).bind fun f =>
          (ofDocuments? (documents as)).bind fun as => some (.call t.told f as) := rfl
    _ = some (.call t f as) := by
        rw [hf, has, ht]
        rfl

theorem ofDocument?_letStatement (ht : t.told = t) (hx : ofDocument? x.document = some x)
    (hv : ofDocument? v.document = some v) :
    ofDocument? (Node.letStatement t x v).document = some (.letStatement t x v) := by
  calc ofDocument? (Node.letStatement t x v).document
      = (ofDocument? x.document).bind fun x =>
          (ofDocument? v.document).bind fun v => some (.letStatement t.told x v) := rfl
    _ = some (.letStatement t x v) := by
        rw [hx, hv, ht]
        rfl

theorem ofDocument?_returnStatement (ht : t.told = t) (hv : ofDocument? v.document = some v) :
    ofDocument? (Node.returnStatement t v).document = some (.returnStatement t v) := by
  calc ofDocument? (Node.returnStatement t v).document
      = (ofDocument? v.document).bind fun v => some (.returnStatement t.told v) := rfl
    _ = some (.returnStatement t v) := by
        rw [hv, ht]
        rfl

theorem ofDocument?_expressionStatement (ht : t.told = t)
    (hv : ofDocument? v.document = some v) :
    ofDocument? (Node.expressionStatement t v).document = some (.expressionStatement t v) := by
  calc ofDocument? (Node.expressionStatement t v).document
      = (ofDocument? v.document).bind fun v => some (.expressionStatement t.told v) := rfl
    _ = some (.expressionStatement t v) := by
        rw [hv, ht]
        rfl

theorem ofDocument?_block (ht : t.told = t) (hss : ofDocuments? (documents ss) = some ss) :
    ofDocument? (Node.block t ss).document = some (.block t ss) := by
  calc ofDocument? (Node.block t ss).document
      = (ofDocuments? (documents ss)).bind fun ss => some (.block t.told ss) := rfl
    _ = some (.block t ss) := by
        rw [hss, ht]
        rfl

end

/-- A node is read back if the nodes right below it are. -/
theorem ofDocument?_of_children {n : Node} (ht : n.token.IsTold)
    (hc : ∀ c ∈ n.children, ofDocument? c.document = some c) : ofDocument? n.document = some n := by
  have htold : n.token.told = n.token := ht.told_eq
  cases n with
  | identifier t x => exact congrArg (fun t => some (Node.identifier t x)) htold
  | integer t v => exact congrArg (fun t => some (Node.integer t v)) htold
  | boolean t v => exact congrArg (fun t => some (Node.boolean t v)) htold
  | placeholder t => exact congrArg (fun t => some (Node.placeholder t)) htold
  | unary t op e => exact ofDocument?_unary htold (hc e List.mem_cons_self)
  | binary t l op r =>
    obtain ⟨hl, hr⟩ := List.forall_mem_cons.1 hc
    exact ofDocument?_binary htold hl (hr r List.mem_cons_self)
  | conditional t c b a =>
    obtain ⟨hcond, hc⟩ := List.forall_mem_cons.1 hc
    obtain ⟨hb, ha⟩ := List.forall_mem_cons.1 hc
    cases a with
    | none => exact ofDocument?_conditional htold hcond hb
    | some a => exact ofDocument?_choice htold hcond hb (ha a List.mem_cons_self)
  | function t ps b =>
    obtain ⟨hps, hb⟩ := List.forall_mem_append.1 hc
    exact ofDocument?_function htold (ofDocuments?_documents hps) (hb b List.mem_cons_self)
  | call t f as =>
    obtain ⟨hf, has⟩ := List.forall_mem_cons.1 hc
    exact ofDocument?_call htold hf (ofDocuments?_documents has)
  | letStatement t x v =>
    obtain ⟨hx, hv⟩ := List.forall_mem_cons.1 hc
    exact ofDocument?_letStatement htold hx (hv v List.mem_cons_self)
  | returnStatement t v => exact ofDocument?_returnStatement htold (hc v List.mem_cons_self)
  | expressionStatement t v =>
    exact ofDocument?_expressionStatement htold (hc v List.mem_cons_self)
  | block t ss => exact ofDocument?_block htold (ofDocuments?_documents hc)

/-- A tree is read back if the kinds of all its tokens can be told. -/
theorem ofDocument?_document {n : Node} (h : ∀ m ∈ n.parts, m.token.IsTold) :
    ofDocument? n.document = some n := by
  induction n using induction_children with
  | h n ih =>
    apply ofDocument?_of_children (h n (mem_parts.2 (Or.inl rfl)))
    intro c hc
    exact ih c hc fun m hm => h m (mem_parts.2 (Or.inr ⟨c, hc, hm⟩))

end Node

/-- A program is read back from its document if the literals of its tokens tell their kinds. -/
theorem Program.ofDocument?_document {p : Program} (h : ∀ n ∈ p.parts, n.token.IsTold) :
    Program.ofDocument? p.document = some p := by
  have hstatements : Node.ofDocuments? (Node.documents p.statements) = some p.statements := by
    apply Node.ofDocuments?_documents
    intro s hs
    exact Node.ofDocument?_document fun n hn => h n (Node.mem_partsAll.2 ⟨s, hs, hn⟩)
  calc Program.ofDocument? p.document
      = (Node.ofDocuments? (Node.documents p.statements)).bind fun ss => some ⟨ss⟩ := rfl
    _ = some p := by
        rw [hstatements]
        rfl

theorem isTold_of_mem {limit : Nat} {source : String} {n : Node}
    (hn : n ∈ (parseWithin limit source).program.parts) : n.token.IsTold :=
  isTold_of_mem_tokenize ((mem_tokenize_of_read limit source).1 n hn)
    (isSound_of_mem hn).kind_ne_illegal

theorem Program.ofDocument?_of_parse (limit : Nat) (source : String) :
    Program.ofDocument? (parseWithin limit source).program.document =
      some (parseWithin limit source).program :=
  Program.ofDocument?_document fun _ hn => isTold_of_mem hn

/-- The document of what is read from a text tells all of it, the kinds and the places of tokens
included: it can be read back, and programs with the same document are the same. -/
theorem document_of_parse_tells (limit limit' : Nat) (a b : String) :
    Program.ofDocument? (parseWithin limit a).program.document =
        some (parseWithin limit a).program ∧
      ((parseWithin limit a).program.document = (parseWithin limit' b).program.document ↔
        (parseWithin limit a).program = (parseWithin limit' b).program) := by
  refine ⟨Program.ofDocument?_of_parse limit a, fun h => ?_, congrArg Program.document⟩
  apply Option.some.inj
  calc some (parseWithin limit a).program
      = Program.ofDocument? (parseWithin limit a).program.document :=
        (Program.ofDocument?_of_parse limit a).symm
    _ = Program.ofDocument? (parseWithin limit' b).program.document :=
        congrArg Program.ofDocument? h
    _ = some (parseWithin limit' b).program := Program.ofDocument?_of_parse limit' b

/-- Of the trees that no text has two different ones can share a document. -/
example : (Node.integer ⟨.int, "7", ⟨1, 0⟩⟩ 7).document =
    (Node.integer ⟨.illegal, "7", ⟨1, 0⟩⟩ 7).document := rfl

end MonkeySyntax
