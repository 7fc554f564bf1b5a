import MonkeySyntax.Grammar.Production
import MonkeySyntax.Tree.Basic

/-!
# Expressions and statements

Statements are read from their first token on, expressions by the binding power of the operators.
An operand is read first; then, as long as the next token binds tighter than the level that was
asked for, it continues the operand to its left, as an operator with a right operand of its own
level or as the arguments of a call. So operators of one level group to the left.

Every production is given the expressions inside it as a parameter `sub`, which reads an expression
at a level. The knot is tied in `expression`, by recursion on how deeply expressions may stand
inside each other.
-/

namespace MonkeySyntax

/-- Which kinds of tokens may start an operand, and which may continue one. -/
structure Rules where
  operandKinds : List Kind
  operatorKinds : List Kind
deriving DecidableEq, Repr

def Rules.standard : Rules where
  operandKinds :=
    [.ident, .int, .bang, .minus, .wordTrue, .wordFalse, .lparen, .wordIf, .wordFn]
  operatorKinds := [.plus, .minus, .slash, .asterisk, .eq, .notEq, .lt, .gt, .lparen]

def Rules.dropOperand (r : Rules) (k : Kind) : Rules :=
  { r with operandKinds := r.operandKinds.filter (· ≠ k) }

def Rules.dropOperator (r : Rules) (k : Kind) : Rules :=
  { r with operatorKinds := r.operatorKinds.filter (· ≠ k) }

def decimalValue (cs : List Char) : Nat :=
  cs.foldl (fun n c => 10 * n + (c.toNat - '0'.toNat)) 0

namespace Production

def identifier : Production Node := do
  let t ← current
  return .identifier t t.literal

def integer : Production Node := do
  let t ← current
  let digits := t.literal.toList
  if digits.isEmpty || !digits.all Char.isDigit then fail (.malformedInteger t)
  else if maxDigits < digits.length then throw (.oversizedLiteral digits.length)
  else if maxInteger < decimalValue digits then fail (.integerOutOfRange t)
  else return .integer t (decimalValue digits)

def boolean : Production Node := do
  let t ← current
  return .boolean t (t.kind = .wordTrue)

def furtherItems (item : Production Node) : Production (List Node) :=
  many do
    let t ← peek
    if t.kind = .comma then
      advance
      return some (← item)
    else return none

def parameter : Production Node := do
  expect .ident
  identifier

def parameters : Production (List Node) := do
  let t ← peek
  if t.kind = .rparen then
    advance
    return []
  else
    let first ← parameter
    let more ← furtherItems parameter
    expect .rparen
    return first :: more

section

variable (sub : Nat → Production Node)

def nextExpression : Production Node := do
  advance
  sub Precedence.lowest.level

def arguments : Production (List Node) := do
  let t ← peek
  if t.kind = .rparen then
    advance
    return []
  else
    let first ← nextExpression sub
    let more ← furtherItems (nextExpression sub)
    expect .rparen
    return first :: more

def letStatement : Production Node := do
  let t ← current
  expect .ident
  let name ← identifier
  expect .assign
  let value ← nextExpression sub
  allow .semicolon
  return .letStatement t name value

def returnStatement : Production Node := do
  let t ← current
  let value ← nextExpression sub
  allow .semicolon
  return .returnStatement t value

def expressionStatement : Production Node := do
  let t ← current
  let value ← sub Precedence.lowest.level
  allow .semicolon
  return .expressionStatement t value

/-- A statement. Its last token is the current one afterwards. -/
def statement : Production Node := do
  let t ← current
  match t.kind with
  | .wordLet => letStatement sub
  | .wordReturn => returnStatement sub
  | _ => expressionStatement sub

def blockStatements (brace : Token) : Production (List Node) :=
  many do
    let t ← current
    if t.kind = .rbrace then return none
    else if t.kind = .eof then fail (.unterminatedBlock brace)
    else
      let s ← statement sub
      advance
      return some s

def block : Production Node := do
  let brace ← current
  advance
  return .block brace (← blockStatements sub brace)

def unary : Production Node := do
  let t ← current
  advance
  let operand ← sub Precedence.unary.level
  return .unary t t.literal operand

/-- An expression between parentheses, which leave no trace in the tree. -/
def grouped : Production Node := do
  let e ← nextExpression sub
  expect .rparen
  return e

def conditional : Production Node := do
  let t ← current
  expect .lparen
  let condition ← nextExpression sub
  expect .rparen
  expect .lbrace
  let consequence ← block sub
  let next ← peek
  if next.kind = .wordElse then
    advance
    expect .lbrace
    return .conditional t condition consequence (some (← block sub))
  else return .conditional t condition consequence none

def functionLiteral : Production Node := do
  let t ← current
  expect .lparen
  let ps ← parameters
  expect .lbrace
  return .function t ps (← block sub)

def binary (left : Node) : Production Node := do
  let t ← current
  advance
  let right ← sub t.kind.precedence.level
  return .binary t left t.literal right

def call (callee : Node) : Production Node := do
  let t ← current
  return .call t callee (← arguments sub)

variable (rules : Rules)

def operand : Production Node := do
  let t ← current
  if t.kind ∈ rules.operandKinds then
    match t.kind with
    | .ident => identifier
    | .int => integer
    | .wordTrue | .wordFalse => boolean
    | .bang | .minus => unary sub
    | .lparen => grouped sub
    | .wordIf => conditional sub
    | .wordFn => functionLiteral sub
    | _ => fail (.noOperand t)
  else fail (.noOperand t)

/-- Continues `left` by one operator or call if the next token binds tighter than `level`. -/
def continuation (level : Nat) (left : Node) : Production (Option Node) := do
  let t ← peek
  if t.kind ≠ .semicolon ∧ level < t.kind.precedence.level ∧ t.kind ∈ rules.operatorKinds then
    advance
    if t.kind = .lparen then return some (← call sub left)
    else return some (← binary sub left)
  else return none

def extend (level : Nat) (left : Node) : Production Node :=
  iterate (continuation sub rules level) left

end

/-- An expression whose operators bind tighter than `level`, with at most `limit` expressions
inside each other. -/
def expression (rules : Rules) : (limit level : Nat) → Production Node
  | 0, _ => do
    let t ← current
    fail (.nestedTooDeeply t)
  | limit + 1, level => do
    let left ← operand (expression rules limit) rules
    extend (expression rules limit) rules level left

end Production

end MonkeySyntax
