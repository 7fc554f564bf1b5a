import MonkeySyntax.Tree.Basic

namespace MonkeySyntax

/-- The answer of two comparisons in a row: the second one counts if the first found no
difference. No answer of the first leaves the whole without an answer. -/
@[macro_inline] def andAlso (first second : Option Bool) : Option Bool :=
  match first with
  | some true => second
  | answer => answer

namespace Node

def sameAll (same : Node → Node → Option Bool) (ns ms : List Node) : Option Bool :=
  andAlso (some (ns.length == ms.length)) (go ns ms)
where
  go : List Node → List Node → Option Bool
    | n :: ns, m :: ms => andAlso (same n m) (go ns ms)
    | _, _ => some true

/-- Whether two trees are the same, with no answer where the comparison would have to go more than
`limit` levels down. -/
def same : (limit : Nat) → Node → Node → Option Bool
  | 0, _, _ => none
  | limit + 1, n, m =>
    andAlso (some (n.form == m.form && n.token == m.token)) <|
      match n, m with
      | .identifier _ x, .identifier _ y => some (x == y)
      | .integer _ x, .integer _ y => some (x == y)
      | .boolean _ x, .boolean _ y => some (x == y)
      | .unary _ o e, .unary _ o' e' => andAlso (some (o == o')) (same limit e e')
      -- the operator stands between its operands, and so does its comparison
      | .binary _ l o r, .binary _ l' o' r' =>
        andAlso (same limit l l') (andAlso (some (o == o')) (same limit r r'))
      | .conditional _ c b a, .conditional _ c' b' a' =>
        andAlso (same limit c c') (andAlso (same limit b b')
          (match a, a' with
          | none, none => some true
          | some e, some e' => same limit e e'
          | _, _ => some false))
      | .function _ ps b, .function _ ps' b' =>
        andAlso (sameAll (same limit) ps ps') (same limit b b')
      | .call _ f as, .call _ f' as' =>
        andAlso (same limit f f') (sameAll (same limit) as as')
      | .letStatement _ x v, .letStatement _ x' v' =>
        andAlso (same limit x x') (same limit v v')
      | .returnStatement _ v, .returnStatement _ v' => same limit v v'
      | .expressionStatement _ v, .expressionStatement _ v' => same limit v v'
      | .block _ ss, .block _ ss' => sameAll (same limit) ss ss'
      | _, _ => some true

end Node

def Program.same (limit : Nat) (p q : Program) : Option Bool :=
  Node.sameAll (Node.same limit) p.statements q.statements

end MonkeySyntax
