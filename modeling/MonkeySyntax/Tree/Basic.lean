import MonkeySyntax.Token.Basic

/-!
# Syntax trees

One type holds every node of a tree, expressions and statements alike, so that printing and
comparing are one recursion each. The type also holds trees that no text has, such as a placeholder
or a block among statements; which nodes the grammar makes is a predicate on it.
-/

namespace MonkeySyntax

/-- A node of a syntax tree. Every node keeps one token, for most of them the first one they were
read from; binary expressions keep the operator and calls the opening parenthesis. -/
inductive Node where
  | identifier (token : Token) (name : String)
  | integer (token : Token) (value : Int)
  | boolean (token : Token) (value : Bool)
  | unary (token : Token) (operator : String) (operand : Node)
  | binary (token : Token) (left : Node) (operator : String) (right : Node)
  | conditional (token : Token) (condition consequence : Node) (alternative : Option Node)
  | function (token : Token) (parameters : List Node) (body : Node)
  | call (token : Token) (callee : Node) (arguments : List Node)
  /-- Stands in for an expression that is still to be written. -/
  | placeholder (token : Token)
  | letStatement (token : Token) (identifier value : Node)
  | returnStatement (token : Token) (value : Node)
  | expressionStatement (token : Token) (value : Node)
  | block (token : Token) (statements : List Node)

namespace Node

def token : Node → Token
  | .identifier t _ | .integer t _ | .boolean t _ | .unary t _ _ | .binary t _ _ _
  | .conditional t _ _ _ | .function t _ _ | .call t _ _ | .placeholder t
  | .letStatement t _ _ | .returnStatement t _ | .expressionStatement t _ | .block t _ => t

def form : Node → String
  | .identifier .. => "Identifier"
  | .integer .. => "IntegerLiteral"
  | .boolean .. => "BooleanLiteral"
  | .unary .. => "PrefixExpression"
  | .binary .. => "InfixExpression"
  | .conditional .. => "IfExpression"
  | .function .. => "FunctionLiteral"
  | .call .. => "CallExpression"
  | .placeholder .. => "PlaceholderExpression"
  | .letStatement .. => "LetStatement"
  | .returnStatement .. => "ReturnStatement"
  | .expressionStatement .. => "ExpressionStatement"
  | .block .. => "BlockStatement"

mutual

def depth : Node → Nat
  | .identifier .. | .integer .. | .boolean .. | .placeholder .. => 1
  | .unary _ _ e => e.depth + 1
  | .binary _ l _ r => max l.depth r.depth + 1
  | .conditional _ c t none => max c.depth t.depth + 1
  | .conditional _ c t (some e) => max (max c.depth t.depth) e.depth + 1
  | .function _ ps b => max (depthOfAll ps) b.depth + 1
  | .call _ f as => max f.depth (depthOfAll as) + 1
  | .letStatement _ x v => max x.depth v.depth + 1
  | .returnStatement _ v => v.depth + 1
  | .expressionStatement _ v => v.depth + 1
  | .block _ ss => depthOfAll ss + 1

def depthOfAll : List Node → Nat
  | [] => 0
  | n :: ns => max n.depth (depthOfAll ns)

end

end Node

structure Program where
  statements : List Node

namespace Program

def tokenLiteral (p : Program) : String :=
  match p.statements with
  | [] => ""
  | s :: _ => s.token.literal

def depth (p : Program) : Nat := Node.depthOfAll p.statements

end Program

/-- A result that is only had from trees of at most `limit` levels; beyond them no work is spent. -/
@[macro_inline] def withinDepth? (limit depth : Nat) (result : α) : Option α :=
  if depth ≤ limit then some result else none

end MonkeySyntax
