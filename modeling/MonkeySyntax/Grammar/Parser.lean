import MonkeySyntax.Grammar.Program

namespace MonkeySyntax

structure Parser where
  cursor : Cursor
  rules : Rules := .standard
  defects : List Defect := []
deriving DecidableEq, Repr

namespace Parser

inductive NodeCall where
  | statement
  | letStatement
  | returnStatement
  | expressionStatement
  | block
  | identifier
  | integer
  | boolean
  | unary
  | grouped
  | conditional
  | functionLiteral
  | expression (level : Nat)
  | binary (left : Node)
  | call (callee : Node)

inductive Call where
  | advance
  | skipStatement
  | currentIs (k : Kind)
  | peekIs (k : Kind)
  | expect (k : Kind)
  | currentPrecedence
  | peekPrecedence
  | node (c : NodeCall)
  | parameters
  | arguments
  | program
  | dropOperand (k : Kind)
  | dropOperator (k : Kind)

inductive Answer where
  | done
  | flag (b : Bool)
  | level (p : Precedence)
  | node (n : Node)
  | nodes (ns : List Node)
  | program (statements : List Node) (defects : List Defect)
  | fault (f : Fault)

def NodeCall.production (rules : Rules) (limit : Nat) (c : NodeCall) : Production Node :=
  let sub := Production.expression rules limit
  match c with
  | .statement => Production.statement sub
  | .letStatement => Production.letStatement sub
  | .returnStatement => Production.returnStatement sub
  | .expressionStatement => Production.expressionStatement sub
  | .block => Production.block sub
  | .identifier => Production.identifier
  | .integer => Production.integer
  | .boolean => Production.boolean
  | .unary => Production.unary sub
  | .grouped => Production.grouped sub
  | .conditional => Production.conditional sub
  | .functionLiteral => Production.functionLiteral sub
  | .expression level => sub level
  | .binary left => Production.binary sub left
  | .call callee => Production.call sub callee

def after (p : Parser) (answer : α → Answer) (x : Production α) : Answer × Parser :=
  match x p.cursor with
  | .ok a c => (answer a, { p with cursor := c })
  | .error f c => (.fault f, { p with cursor := c })

/-- The parser after reading a program. The defects found are recorded even where an oversized
literal puts an end to reading. -/
def afterProgram (p : Parser) (limit : Nat) : Answer × Parser :=
  let run := runFrom (Production.statementWithin p.rules limit) p.cursor
  let p' := { p with cursor := run.cursor, defects := p.defects ++ run.defects }
  match run.oversized with
  | some n => (.fault (.oversizedLiteral n), p')
  | none => (.program run.statements p'.defects, p')

def step (limit : Nat) (p : Parser) : Call → Answer × Parser
  | .advance => p.after (fun _ => .done) Production.advance
  | .skipStatement => (.done, { p with cursor := p.cursor.skipStatement })
  | .currentIs k => (.flag (p.cursor.current.kind = k), p)
  | .peekIs k => (.flag (p.cursor.peek.kind = k), p)
  | .expect k => p.after (fun _ => .done) (Production.expect k)
  | .currentPrecedence => (.level p.cursor.current.kind.precedence, p)
  | .peekPrecedence => (.level p.cursor.peek.kind.precedence, p)
  | .node c => p.after .node (c.production p.rules limit)
  | .parameters => p.after .nodes Production.parameters
  | .arguments => p.after .nodes (Production.arguments (Production.expression p.rules limit))
  | .program => p.afterProgram limit
  | .dropOperand k =>
    (.flag (p.rules.operandKinds.contains k), { p with rules := p.rules.dropOperand k })
  | .dropOperator k =>
    (.flag (p.rules.operatorKinds.contains k), { p with rules := p.rules.dropOperator k })

end Parser

end MonkeySyntax
