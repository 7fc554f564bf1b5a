import MonkeySyntax.Text.Json
import MonkeySyntax.Tree.Basic

namespace MonkeySyntax

namespace Node

def heading (n : Node) : List (String × Json) :=
  [("kind", .str n.form), ("literal", .str n.token.literal),
   ("line", .int n.token.position.line), ("col", .int n.token.position.column)]

mutual

def document (n : Node) : Json :=
  match n with
  | .identifier _ name => .obj (n.heading ++ [("value", .str name)])
  | .integer _ value => .obj (n.heading ++ [("value", .int value)])
  | .boolean _ value => .obj (n.heading ++ [("value", .bool value)])
  | .unary _ op e =>
    .obj (n.heading ++ [("operator", .str op), ("children", .obj [("operand", e.document)])])
  | .binary _ l op r =>
    .obj (n.heading ++ [("operator", .str op),
      ("children", .obj [("left", l.document), ("right", r.document)])])
  | .conditional _ c t none =>
    .obj (n.heading ++ [("children",
      .obj [("condition", c.document), ("consequence", t.document), ("alternative", .null)])])
  | .conditional _ c t (some e) =>
    .obj (n.heading ++ [("children",
      .obj [("condition", c.document), ("consequence", t.document),
        ("alternative", e.document)])])
  | .function _ ps b =>
    .obj (n.heading ++ [("children",
      .obj [("parameters", .arr (documents ps)), ("body", b.document)])])
  | .call _ f as =>
    .obj (n.heading ++ [("children",
      .obj [("function", f.document), ("arguments", .arr (documents as))])])
  | .placeholder _ => .obj n.heading
  | .letStatement _ x v =>
    .obj (n.heading ++ [("children", .obj [("identifier", x.document), ("value", v.document)])])
  | .returnStatement _ v => .obj (n.heading ++ [("children", .obj [("value", v.document)])])
  | .expressionStatement _ v => .obj (n.heading ++ [("children", .obj [("value", v.document)])])
  | .block _ ss =>
    .obj (n.heading ++ [("children", .obj [("statements", .arr (documents ss))])])

def documents : List Node → List Json
  | [] => []
  | n :: ns => n.document :: documents ns

end

def document? (n : Node) (limit : Nat) : Option Json := withinDepth? limit n.depth n.document

end Node

namespace Program

def document (p : Program) : Json :=
  .obj [("kind", .str "Program"), ("statements", .arr (Node.documents p.statements))]

def document? (p : Program) (limit : Nat) : Option Json := withinDepth? limit p.depth p.document

end Program

end MonkeySyntax
