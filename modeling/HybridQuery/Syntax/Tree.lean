import HybridQuery.Json.Value
import HybridQuery.Mode
import HybridQuery.Types.SequenceType

/-!
# Query modules

A module is a list of function declarations and a body. Expressions and clauses carry their position
and a slot for their mode, which analysis fills.

* `Expression`, `Clause`: the tree.
* `Expression.name`, `Clause.name`: the name of a node.
* `QueryModule.declaration?`: the declaration of a name and arity.
-/

namespace HybridQuery

/-! ## Operators and keys -/

/-- Operators on two numbers. -/
inductive ArithmeticOp where
  | add
  | subtract
  | multiply
  | divide
  | integerDivide
  | modulo
  deriving Repr, DecidableEq, Inhabited

/-- Comparisons of two atomics. -/
inductive ComparisonOp where
  | eq
  | ne
  | lt
  | le
  | gt
  | ge
  deriving Repr, DecidableEq, Inhabited

/-- Connectives of two truth values. -/
inductive LogicalOp where
  | and
  | or
  deriving Repr, DecidableEq, Inhabited

/-- Where the empty sequence stands in an order. -/
inductive EmptyOrder where
  | least
  | greatest
  deriving Repr, DecidableEq, Inhabited

/-- A key to order by; `ε` is the kind of expression. -/
structure OrderKey (ε : Type) where
  expression : ε
  descending : Bool
  empty : EmptyOrder

/-- A key to group by: a variable, and the expression it is bound to if it is a new one. -/
structure GroupKey (ε : Type) where
  variableName : String
  expression : Option ε

/-- A parameter of a function. -/
structure Parameter where
  name : String
  type : SequenceType
  deriving Repr, DecidableEq, Inhabited

/-! ## Expressions and clauses -/

mutual
/-- An expression with its position and mode. -/
inductive Expression where
  | mk (kind : ExpressionKind) (position : SourcePosition) (mode : ModeSlot)

/-- What an expression is. -/
inductive ExpressionKind where
  | literal (value : Json)
  | sequence (members : List Expression)
  | varRef (name : String)
  | contextItem
  | arithmetic (op : ArithmeticOp) (left right : Expression)
  | comparison (op : ComparisonOp) (left right : Expression)
  | logical (op : LogicalOp) (left right : Expression)
  | not (operand : Expression)
  | conditional (condition yes no : Expression)
  | range (first last : Expression)
  | object (pairs : List (Expression × Expression))
  | array (members : Option Expression)
  | objectLookup (object key : Expression)
  | arrayLookup (array index : Expression)
  | arrayUnbox (array : Expression)
  | filter (sequence predicate : Expression)
  /-- A call of a named function; an argument left out is a placeholder. -/
  | functionCall (name : String) (arguments : List (Option Expression))
  /-- A call of a computed function. -/
  | dynamicCall (function : Expression) (arguments : List (Option Expression))
  | inlineFunction (parameters : List Parameter) (returnType : SequenceType) (body : Expression)
  | functionRef (name : String) (arity : Nat)
  | flwor (clauses : List Clause) (result : Expression)

/-- A clause with its position and mode. -/
inductive Clause where
  | mk (kind : ClauseKind) (position : SourcePosition) (mode : ModeSlot)

/-- What a clause is. -/
inductive ClauseKind where
  /-- Binds a variable to each item of a source in turn, and its place to another. -/
  | forEach (variableName : String) (place : Option String) (allowingEmpty : Bool)
      (source : Expression)
  | letBe (variableName : String) (value : Expression)
  | keepWhere (condition : Expression)
  | orderBy (keys : List (OrderKey Expression))
  | groupBy (keys : List (GroupKey Expression))
  | count (variableName : String)
end

instance : Inhabited Expression := ⟨.mk .contextItem .unknown .empty⟩

/-- The name of a kind of expression. -/
def ExpressionKind.name : ExpressionKind → String
  | literal .. => "literal"
  | sequence .. => "sequence"
  | varRef .. => "variable"
  | contextItem => "context-item"
  | arithmetic .. => "arithmetic"
  | comparison .. => "comparison"
  | logical .. => "logical"
  | not .. => "not"
  | conditional .. => "if"
  | range .. => "range"
  | object .. => "object"
  | array .. => "array"
  | objectLookup .. => "object-lookup"
  | arrayLookup .. => "array-lookup"
  | arrayUnbox .. => "array-unbox"
  | filter .. => "filter"
  | functionCall .. => "function-call"
  | dynamicCall .. => "dynamic-call"
  | inlineFunction .. => "inline-function"
  | functionRef .. => "function-ref"
  | flwor .. => "flwor"

/-- The name of a kind of clause. -/
def ClauseKind.name : ClauseKind → String
  | forEach .. => "for"
  | letBe .. => "let"
  | keepWhere .. => "where"
  | orderBy .. => "order-by"
  | groupBy .. => "group-by"
  | count .. => "count"

namespace Expression

/-- What the expression is. -/
def kind : Expression → ExpressionKind
  | mk kind _ _ => kind

/-- Where the expression stands. -/
def position : Expression → SourcePosition
  | mk _ position _ => position

/-- The slot of the expression's mode. -/
def slot : Expression → ModeSlot
  | mk _ _ slot => slot

/-- The name of the expression's kind. -/
def name (e : Expression) : String := e.kind.name

/-- The mode of an analysed expression. -/
def mode (e : Expression) : EngineResult Mode := (e.slot.get e.name).locate e.position

end Expression

namespace Clause

/-- What the clause is. -/
def kind : Clause → ClauseKind
  | mk kind _ _ => kind

/-- Where the clause stands. -/
def position : Clause → SourcePosition
  | mk _ position _ => position

/-- The slot of the clause's mode. -/
def slot : Clause → ModeSlot
  | mk _ _ slot => slot

/-- The name of the clause's kind. -/
def name (c : Clause) : String := c.kind.name

/-- The mode of an analysed clause. -/
def mode (c : Clause) : EngineResult Mode := (c.slot.get c.name).locate c.position

end Clause

/-! ## Modules -/

/-- Name and number of parameters: what a function is found by. -/
abbrev FunctionKey := String × Nat

/-- A declared function. -/
structure FunctionDeclaration where
  name : String
  parameters : List Parameter
  returnType : SequenceType
  body : Expression
  position : SourcePosition
  deriving Inhabited

namespace FunctionDeclaration

/-- Number of parameters. -/
def arity (d : FunctionDeclaration) : Nat := d.parameters.length

/-- What the function is found by. -/
def key (d : FunctionDeclaration) : FunctionKey := (d.name, d.arity)

end FunctionDeclaration

/-- Declarations and a body. -/
structure QueryModule where
  functions : List FunctionDeclaration
  body : Expression
  deriving Inhabited

/-- The first declaration of a name and arity. -/
def QueryModule.declaration? (m : QueryModule) (key : FunctionKey) : Option FunctionDeclaration :=
  m.functions.find? (·.key == key)

end HybridQuery
