import HybridQuery.Syntax.Tree

/-!
# Outlines

The tree of nodes of an expression as it is shown: name, mode and position of each node, and its
children in order. Placeholders and absent parts are not nodes.

* `Expression.outline`: the outline of an expression.
* `Outline.preorder`, `Outline.descendants`: its nodes, each before its children.
-/

namespace HybridQuery

/-- A node with everything below it. -/
inductive Outline where
  | node (name : String) (mode : Mode) (position : SourcePosition) (children : List Outline)

mutual
/-- The outline of an expression. -/
def Expression.outline : Expression → Outline
  | .mk kind position slot => .node kind.name slot.getD position kind.outlines

/-- The outlines of an expression's children. -/
def ExpressionKind.outlines : ExpressionKind → List Outline
  | .literal _ | .varRef _ | .contextItem | .functionRef _ _ => []
  | .sequence members => memberOutlines members
  | .arithmetic _ left right => [left.outline, right.outline]
  | .comparison _ left right => [left.outline, right.outline]
  | .logical _ left right => [left.outline, right.outline]
  | .not operand => [operand.outline]
  | .conditional condition yes no => [condition.outline, yes.outline, no.outline]
  | .range first last => [first.outline, last.outline]
  | .object pairs => pairOutlines pairs
  | .array none => []
  | .array (some members) => [members.outline]
  | .objectLookup object key => [object.outline, key.outline]
  | .arrayLookup array index => [array.outline, index.outline]
  | .arrayUnbox array => [array.outline]
  | .filter sequence predicate => [sequence.outline, predicate.outline]
  | .functionCall _ arguments => argumentOutlines arguments
  | .dynamicCall function arguments => function.outline :: argumentOutlines arguments
  | .inlineFunction _ _ body => [body.outline]
  | .flwor clauses result => clauseOutlines clauses ++ [result.outline]

/-- The outlines of a list of expressions. -/
def memberOutlines : List Expression → List Outline
  | [] => []
  | e :: rest => e.outline :: memberOutlines rest

/-- The outlines of pairs, key before value. -/
def pairOutlines : List (Expression × Expression) → List Outline
  | [] => []
  | (key, value) :: rest => key.outline :: value.outline :: pairOutlines rest

/-- The outlines of arguments that are given. -/
def argumentOutlines : List (Option Expression) → List Outline
  | [] => []
  | none :: rest => argumentOutlines rest
  | some e :: rest => e.outline :: argumentOutlines rest

/-- The outline of a clause. -/
def Clause.outline : Clause → Outline
  | .mk kind position slot => .node kind.name slot.getD position kind.outlines

/-- The outlines of a list of clauses. -/
def clauseOutlines : List Clause → List Outline
  | [] => []
  | c :: rest => c.outline :: clauseOutlines rest

/-- The outlines of a clause's children. -/
def ClauseKind.outlines : ClauseKind → List Outline
  | .forEach _ _ _ source => [source.outline]
  | .letBe _ value => [value.outline]
  | .keepWhere condition => [condition.outline]
  | .orderBy keys => orderOutlines keys
  | .groupBy keys => groupOutlines keys
  | .count _ => []

/-- The outlines of keys to order by. -/
def orderOutlines : List (OrderKey Expression) → List Outline
  | [] => []
  | ⟨e, _, _⟩ :: rest => e.outline :: orderOutlines rest

/-- The outlines of keys to group by that have an expression. -/
def groupOutlines : List (GroupKey Expression) → List Outline
  | [] => []
  | ⟨_, none⟩ :: rest => groupOutlines rest
  | ⟨_, some e⟩ :: rest => e.outline :: groupOutlines rest
end

namespace Outline

/-- The name of the node. -/
def name : Outline → String
  | node name _ _ _ => name

/-- The mode of the node. -/
def mode : Outline → Mode
  | node _ mode _ _ => mode

/-- The position of the node. -/
def position : Outline → SourcePosition
  | node _ _ position _ => position

/-- The children of the node. -/
def children : Outline → List Outline
  | node _ _ _ children => children

mutual
/-- The node and everything below it with their depths, each node before its children. -/
def withDepth : Nat → Outline → List (Nat × Outline)
  | depth, node name mode position children =>
    (depth, node name mode position children) :: allWithDepth (depth + 1) children

/-- `withDepth` of every node of a list. -/
def allWithDepth : Nat → List Outline → List (Nat × Outline)
  | _, [] => []
  | depth, o :: rest => withDepth depth o ++ allWithDepth depth rest
end

/-- The node and everything below it, each node before its children. -/
def preorder (o : Outline) : List Outline := (withDepth 0 o).map (·.2)

/-- Everything below the node, each node before its children. -/
def descendants (o : Outline) : List Outline := o.preorder.drop 1

end Outline
end HybridQuery
