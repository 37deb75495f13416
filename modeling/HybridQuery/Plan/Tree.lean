import HybridQuery.Builtin
import HybridQuery.Syntax.Tree

/-!
# Plans

A plan is a compiled expression: every node has its mode, calls of built-in functions are told from
calls of declared ones, and a pipeline is nested from its last clause inwards.

* `Plan`: a compiled expression. `Computation` is the part that yields all its items at once.
* `Pipeline`: the clauses before the result of a FLWOR expression, as a chain from the last clause to
  the start.
-/

namespace HybridQuery

/-- Types of the parameters and of the result of a function. -/
structure Signature where
  parameterTypes : List SequenceType
  returnType : SequenceType
  deriving Repr, DecidableEq, Inhabited

/-- The signature that takes and gives any sequences. -/
def Signature.unconstrained (arity : Nat) : Signature :=
  ⟨List.replicate arity .unconstrained, .unconstrained⟩

mutual
/-- A compiled expression. -/
inductive Plan where
  | mk (mode : Mode) (position : SourcePosition) (operation : Operation)

/-- What a compiled expression does. -/
inductive Operation where
  | compute (computation : Computation)
  | sequence (members : List Plan)
  | varRef (name : String)
  | range (first last : Plan)
  | conditional (condition yes no : Plan)
  | navigate (step : NavigationStep) (input : Plan)
  | staticCall (name : String) (arguments : List (Option Plan))
  | dynamicCall (function : Plan) (arguments : List (Option Plan))
  | flwor (pipeline : Pipeline) (result : Plan)

/-- What yields all its items at once. -/
inductive Computation where
  | literal (value : Json)
  | contextItem
  | arithmetic (op : ArithmeticOp) (left right : Plan)
  | comparison (op : ComparisonOp) (left right : Plan)
  | logical (op : LogicalOp) (left right : Plan)
  | not (operand : Plan)
  | object (pairs : List (Plan × Plan))
  | array (members : Option Plan)
  | builtin (function : Builtin) (arguments : List Plan)
  | inlineFunction (parameters : List String) (signature : Signature) (body : Plan)
  | functionRef (name : String) (arity : Nat)

/-- What is done with each item of an input. -/
inductive NavigationStep where
  | objectLookup (key : Plan)
  | arrayLookup (index : Plan)
  | arrayUnbox
  | filter (predicate : Plan)

/-- A chain of clauses. -/
inductive Pipeline where
  /-- A single empty tuple. -/
  | start
  | clause (mode : Mode) (position : SourcePosition) (operation : ClauseOperation)
      (feed : Pipeline)

/-- What a clause does with the tuples before it. -/
inductive ClauseOperation where
  | forEach (variableName : String) (place : Option String) (allowingEmpty : Bool) (source : Plan)
  | letBe (variableName : String) (value : Plan)
  | keepWhere (condition : Plan)
  | orderBy (keys : List (OrderKey Plan))
  | groupBy (keys : List (GroupKey Plan))
  | count (variableName : String)
end

instance : Inhabited Plan := ⟨.mk .unset .unknown (.compute .contextItem)⟩

namespace Plan

/-- The mode of a plan. -/
def mode : Plan → Mode
  | mk mode _ _ => mode

/-- The position of a plan. -/
def position : Plan → SourcePosition
  | mk _ position _ => position

/-- What a plan does. -/
def operation : Plan → Operation
  | mk _ _ operation => operation

end Plan

/-- The name of a computation. -/
def Computation.name : Computation → String
  | literal .. => "literal"
  | contextItem => "context-item"
  | arithmetic .. => "arithmetic"
  | comparison .. => "comparison"
  | logical .. => "logical"
  | not .. => "not"
  | object .. => "object"
  | array .. => "array"
  | builtin function _ => function.name
  | inlineFunction .. => "inline-function"
  | functionRef .. => "function-ref"

/-- The name of a navigation step. -/
def NavigationStep.name : NavigationStep → String
  | objectLookup _ => "object-lookup"
  | arrayLookup _ => "array-lookup"
  | arrayUnbox => "array-unbox"
  | filter _ => "filter"

/-- The name of an operation. -/
def Operation.name : Operation → String
  | compute computation => computation.name
  | sequence _ => "sequence"
  | varRef _ => "variable"
  | range .. => "range"
  | conditional .. => "if"
  | navigate step _ => step.name
  | staticCall .. => "function-call"
  | dynamicCall .. => "dynamic-call"
  | flwor .. => "flwor"

/-- The name of a clause. -/
def ClauseOperation.name : ClauseOperation → String
  | forEach .. => "for"
  | letBe .. => "let"
  | keepWhere _ => "where"
  | orderBy _ => "order-by"
  | groupBy _ => "group-by"
  | count _ => "count"

/-- The name of a plan. -/
def Plan.name (p : Plan) : String := p.operation.name

/-- A reference to a variable on the host. -/
def Plan.hostVariable (name : String) (position : SourcePosition) : Plan :=
  .mk .host position (.varRef name)

end HybridQuery
