import MonkeySyntax.Tree.Basic

namespace MonkeySyntax

namespace Node

mutual

def text : Node → String
  | .identifier _ name => name
  | .integer t _ => t.literal
  | .boolean t _ => t.literal
  | .unary _ op e => "(" ++ op ++ e.text ++ ")"
  | .binary _ l op r => "(" ++ l.text ++ " " ++ op ++ " " ++ r.text ++ ")"
  | .conditional _ c t none => "if " ++ c.text ++ " " ++ t.text
  | .conditional _ c t (some e) => "if " ++ c.text ++ " " ++ t.text ++ " else " ++ e.text
  | .function t ps b => t.literal ++ "(" ++ ", ".intercalate (texts ps) ++ ") " ++ b.text
  | .call _ f as => f.text ++ "(" ++ ", ".intercalate (texts as) ++ ")"
  | .placeholder _ => "<placeholder>"
  | .letStatement t x v => t.literal ++ " " ++ x.text ++ " = " ++ v.text ++ ";"
  | .returnStatement t v => t.literal ++ " " ++ v.text ++ ";"
  | .expressionStatement _ v => v.text
  | .block _ ss => "\x7b " ++ " ".intercalate (texts ss) ++ " \x7d"

def texts : List Node → List String
  | [] => []
  | n :: ns => n.text :: texts ns

end

theorem texts_eq_map (ns : List Node) : texts ns = ns.map text := by
  induction ns with
  | nil => rfl
  | cons n ns ih => simp [texts, ih]

def text? (n : Node) (limit : Nat) : Option String := withinDepth? limit n.depth n.text

end Node

namespace Program

def text (p : Program) : String := "\n".intercalate (Node.texts p.statements)

def text? (p : Program) (limit : Nat) : Option String := withinDepth? limit p.depth p.text

end Program

end MonkeySyntax
