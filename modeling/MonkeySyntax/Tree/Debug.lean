import MonkeySyntax.Tree.Basic

namespace MonkeySyntax

def spelledOut (form : String) (parts : List (String × String)) : String :=
  form ++ "(" ++ ", ".intercalate (parts.map fun p => p.1 ++ "=" ++ p.2) ++ ")"

def bracketed (items : List String) : String :=
  "[" ++ ", ".intercalate items ++ "]"

namespace Node

mutual

def debug (n : Node) : String :=
  match n with
  | .identifier t name => spelledOut n.form [("token", t.debug), ("value", quoted name)]
  | .integer t value => spelledOut n.form [("token", t.debug), ("value", toString value)]
  | .boolean t value =>
    spelledOut n.form [("token", t.debug), ("value", if value then "True" else "False")]
  | .unary t op e =>
    spelledOut n.form [("token", t.debug), ("operator", quoted op), ("operand", e.debug)]
  | .binary t l op r =>
    spelledOut n.form [("token", t.debug), ("left", l.debug), ("operator", quoted op),
      ("right", r.debug)]
  | .conditional t c b none =>
    spelledOut n.form [("token", t.debug), ("condition", c.debug), ("consequence", b.debug),
      ("alternative", "None")]
  | .conditional t c b (some e) =>
    spelledOut n.form [("token", t.debug), ("condition", c.debug), ("consequence", b.debug),
      ("alternative", e.debug)]
  | .function t ps b =>
    spelledOut n.form [("token", t.debug), ("parameters", bracketed (debugAll ps)),
      ("body", b.debug)]
  | .call t f as =>
    spelledOut n.form [("token", t.debug), ("function", f.debug),
      ("arguments", bracketed (debugAll as))]
  | .placeholder t => spelledOut n.form [("token", t.debug)]
  | .letStatement t x v =>
    spelledOut n.form [("token", t.debug), ("identifier", x.debug), ("value", v.debug)]
  | .returnStatement t v => spelledOut n.form [("token", t.debug), ("value", v.debug)]
  | .expressionStatement t v => spelledOut n.form [("token", t.debug), ("value", v.debug)]
  | .block t ss =>
    spelledOut n.form [("token", t.debug), ("statements", bracketed (debugAll ss))]

def debugAll : List Node → List String
  | [] => []
  | n :: ns => n.debug :: debugAll ns

end

def debug? (n : Node) (limit : Nat) : Option String := withinDepth? limit n.depth n.debug

end Node

namespace Program

def debug (p : Program) : String :=
  spelledOut "Program" [("statements", bracketed (Node.debugAll p.statements))]

def debug? (p : Program) (limit : Nat) : Option String := withinDepth? limit p.depth p.debug

end Program

end MonkeySyntax
