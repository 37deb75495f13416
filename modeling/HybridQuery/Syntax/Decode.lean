import HybridQuery.Json.Fields
import HybridQuery.Json.Reader
import HybridQuery.Syntax.Tree
import HybridQuery.Types.Declaration

/-!
# Modules in JSON

The JSON form of a module. An expression is an object whose `kind` tells its shape, a clause one
whose `clause` does; both may carry a `position`. All other records follow `Json.record?`.

* `QueryModule.ofJson?`: the module of a JSON value.
* `QueryModule.ofText`: the module of a text; whatever is wrong with it, the fault is the same.
-/

namespace HybridQuery

/-- Reads a position. -/
def SourcePosition.ofJson? (json : Json) : Option SourcePosition := do
  match ← json.record? ["line", "column", "location"] with
  | [line, column, location] =>
    return { line := ← Json.orDefault line 0 (Json.natural? Json.bound32)
             column := ← Json.orDefault column 0 (Json.natural? Json.bound32)
             location := ← Json.orDefault location none (Json.nullable Json.string?) }
  | _ => none

/-- Reads a parameter; without a type it takes any sequence. -/
def Parameter.ofJson? (json : Json) : Option Parameter := do
  match ← json.record? ["name", "type"] with
  | [name, type] =>
    return ⟨← Json.required name Json.string?,
      ← Json.orDefault type .unconstrained SequenceType.ofJson?⟩
  | _ => none

namespace Syntax

/-- Names of the arithmetic operators. -/
def arithmeticOps : List (String × ArithmeticOp) :=
  [("add", .add), ("subtract", .subtract), ("multiply", .multiply), ("divide", .divide),
   ("integer-divide", .integerDivide), ("modulo", .modulo)]

/-- Names of the comparisons. -/
def comparisonOps : List (String × ComparisonOp) :=
  [("eq", .eq), ("ne", .ne), ("lt", .lt), ("le", .le), ("gt", .gt), ("ge", .ge)]

/-- Names of the connectives. -/
def logicalOps : List (String × LogicalOp) := [("and", .and), ("or", .or)]

/-- Names of the places of the empty sequence in an order. -/
def emptyOrders : List (String × EmptyOrder) := [("least", .least), ("greatest", .greatest)]

/-- Names of the kinds of expression, in order. -/
def expressionKinds : List String :=
  ["literal", "sequence", "variable", "context-item", "arithmetic", "comparison", "logical", "not",
   "if", "range", "object", "array", "object-lookup", "array-lookup", "array-unbox", "filter",
   "function-call", "dynamic-call", "inline-function", "function-ref", "flwor"]

/-- Names of the kinds of clause, in order. -/
def clauseKinds : List String := ["for", "let", "where", "order-by", "group-by", "count"]

/-- Position and kind of a tagged object, and a reader of its other fields. -/
def tagged? (tag : String) (kinds : List String) (json : Json) :
    Option (SourcePosition × String) := do
  match ← json.objectFields? ["position", tag] with
  | [position, kind] =>
    return (← Json.orDefault position .unknown SourcePosition.ofJson?,
      ← Json.required kind (Json.tag? kinds))
  | _ => none

mutual
/-- Reads an expression; the fuel bounds the nesting. -/
def expression? : Nat → Json → Option Expression
  | 0, _ => none
  | fuel + 1, json => do
    let (position, kind) ← tagged? "kind" expressionKinds json
    return .mk (← expressionKind? fuel kind json) position .empty

/-- Reads the fields of an expression of a given kind. -/
def expressionKind? : Nat → String → Json → Option ExpressionKind
  | 0, _, _ => none
  | fuel + 1, kind, json => do
    let sub := fun field => Json.required field (expression? fuel)
    let arguments := fun field =>
      Json.orDefault field [] (Json.listOf? (Json.nullable (expression? fuel)))
    let one := fun name => (do
      match ← json.objectFields? [name] with
      | [a] => sub a
      | _ => none : Option Expression)
    let two := fun first second => (do
      match ← json.objectFields? [first, second] with
      | [a, b] => return (← sub a, ← sub b)
      | _ => none : Option (Expression × Expression))
    let operator := fun {α : Type} (choices : List (String × α)) => (do
      match ← json.objectFields? ["op"] with
      | [op] => Json.required op (Json.choice? choices)
      | _ => none : Option α)
    match kind with
    | "literal" =>
      match ← json.objectFields? ["value"] with
      | [value] => return .literal (← value).merged
      | _ => none
    | "sequence" =>
      match ← json.objectFields? ["members"] with
      | [members] => return .sequence (← Json.orDefault members [] (Json.listOf? (expression? fuel)))
      | _ => none
    | "variable" =>
      match ← json.objectFields? ["name"] with
      | [name] => return .varRef (← Json.required name Json.string?)
      | _ => none
    | "context-item" => return .contextItem
    | "arithmetic" =>
      let op ← operator arithmeticOps
      let (left, right) ← two "left" "right"
      return .arithmetic op left right
    | "comparison" =>
      let op ← operator comparisonOps
      let (left, right) ← two "left" "right"
      return .comparison op left right
    | "logical" =>
      let op ← operator logicalOps
      let (left, right) ← two "left" "right"
      return .logical op left right
    | "not" => return .not (← one "operand")
    | "if" => return .conditional (← one "condition") (← one "then") (← one "else")
    | "range" =>
      let (first, last) ← two "from" "to"
      return .range first last
    | "object" =>
      match ← json.objectFields? ["pairs"] with
      | [pairs] => return .object (← Json.orDefault pairs [] (Json.listOf? (pair? fuel)))
      | _ => none
    | "array" =>
      match ← json.objectFields? ["members"] with
      | [members] =>
        return .array (← Json.orDefault members none (Json.nullable (expression? fuel)))
      | _ => none
    | "object-lookup" =>
      let (object, key) ← two "object" "key"
      return .objectLookup object key
    | "array-lookup" =>
      let (array, index) ← two "array" "index"
      return .arrayLookup array index
    | "array-unbox" => return .arrayUnbox (← one "array")
    | "filter" =>
      let (sequence, predicate) ← two "sequence" "predicate"
      return .filter sequence predicate
    | "function-call" =>
      match ← json.objectFields? ["name", "arguments"] with
      | [name, given] =>
        return .functionCall (← Json.required name Json.string?) (← arguments given)
      | _ => none
    | "dynamic-call" =>
      match ← json.objectFields? ["function", "arguments"] with
      | [function, given] => return .dynamicCall (← sub function) (← arguments given)
      | _ => none
    | "inline-function" =>
      match ← json.objectFields? ["parameters", "return_type", "body"] with
      | [parameters, returnType, body] =>
        return .inlineFunction
          (← Json.orDefault parameters [] (Json.listOf? Parameter.ofJson?))
          (← Json.orDefault returnType .unconstrained SequenceType.ofJson?)
          (← sub body)
      | _ => none
    | "function-ref" =>
      match ← json.objectFields? ["name", "arity"] with
      | [name, arity] =>
        return .functionRef (← Json.required name Json.string?)
          (← Json.required arity (Json.natural? Json.bound64))
      | _ => none
    | "flwor" =>
      match ← json.objectFields? ["clauses", "return"] with
      | [clauses, result] =>
        return .flwor (← Json.required clauses (Json.listOf? (clause? fuel))) (← sub result)
      | _ => none
    | _ => none

/-- Reads a pair of an object constructor. -/
def pair? : Nat → Json → Option (Expression × Expression)
  | 0, _ => none
  | fuel + 1, json => do
    match ← json.record? ["key", "value"] with
    | [key, value] =>
      return (← Json.required key (expression? fuel), ← Json.required value (expression? fuel))
    | _ => none

/-- Reads a clause. -/
def clause? : Nat → Json → Option Clause
  | 0, _ => none
  | fuel + 1, json => do
    let (position, kind) ← tagged? "clause" clauseKinds json
    return .mk (← clauseKind? fuel kind json) position .empty

/-- Reads the fields of a clause of a given kind. -/
def clauseKind? : Nat → String → Json → Option ClauseKind
  | 0, _, _ => none
  | fuel + 1, kind, json => do
    let sub := fun field => Json.required field (expression? fuel)
    match kind with
    | "for" =>
      match ← json.objectFields? ["variable", "at", "allowing_empty", "in"] with
      | [name, place, allowingEmpty, source] =>
        return .forEach (← Json.required name Json.string?)
          (← Json.orDefault place none (Json.nullable Json.string?))
          (← Json.orDefault allowingEmpty false Json.bool?)
          (← sub source)
      | _ => none
    | "let" =>
      match ← json.objectFields? ["variable", "value"] with
      | [name, value] => return .letBe (← Json.required name Json.string?) (← sub value)
      | _ => none
    | "where" =>
      match ← json.objectFields? ["condition"] with
      | [condition] => return .keepWhere (← sub condition)
      | _ => none
    | "order-by" =>
      match ← json.objectFields? ["keys"] with
      | [keys] => return .orderBy (← Json.required keys (Json.listOf? (orderKey? fuel)))
      | _ => none
    | "group-by" =>
      match ← json.objectFields? ["keys"] with
      | [keys] => return .groupBy (← Json.required keys (Json.listOf? (groupKey? fuel)))
      | _ => none
    | "count" =>
      match ← json.objectFields? ["variable"] with
      | [name] => return .count (← Json.required name Json.string?)
      | _ => none
    | _ => none

/-- Reads a key to order by. -/
def orderKey? : Nat → Json → Option (OrderKey Expression)
  | 0, _ => none
  | fuel + 1, json => do
    match ← json.record? ["expression", "descending", "empty"] with
    | [expression, descending, empty] =>
      return ⟨← Json.required expression (expression? fuel),
        ← Json.orDefault descending false Json.bool?,
        ← Json.orDefault empty .least (Json.choice? emptyOrders)⟩
    | _ => none

/-- Reads a key to group by. -/
def groupKey? : Nat → Json → Option (GroupKey Expression)
  | 0, _ => none
  | fuel + 1, json => do
    match ← json.record? ["variable", "expression"] with
    | [name, expression] =>
      return ⟨← Json.required name Json.string?,
        ← Json.orDefault expression none (Json.nullable (expression? fuel))⟩
    | _ => none
end

/-- Nesting that the readers need for a value: every level of it takes two calls at most. -/
def fuelFor (json : Json) : Nat := 3 * json.weight

end Syntax

/-- Reads an expression. -/
def Expression.ofJson? (json : Json) : Option Expression :=
  Syntax.expression? (Syntax.fuelFor json) json

/-- Reads a function declaration. -/
def FunctionDeclaration.ofJson? (json : Json) : Option FunctionDeclaration := do
  match ← json.record? ["name", "parameters", "return_type", "body", "position"] with
  | [name, parameters, returnType, body, position] =>
    return { name := ← Json.required name Json.string?
             parameters := ← Json.orDefault parameters [] (Json.listOf? Parameter.ofJson?)
             returnType := ← Json.orDefault returnType .unconstrained SequenceType.ofJson?
             body := ← Json.required body Expression.ofJson?
             position := ← Json.orDefault position .unknown SourcePosition.ofJson? }
  | _ => none

namespace QueryModule

/-- Reads a module. -/
def ofJson? (json : Json) : Option QueryModule := do
  match ← json.record? ["functions", "body"] with
  | [functions, body] =>
    return { functions := ← Json.orDefault functions [] (Json.listOf? FunctionDeclaration.ofJson?)
             body := ← Json.required body Expression.ofJson? }
  | _ => none

/-- The fault of a module that cannot be read. -/
def malformed : Fault := .invalidArgument "Malformed query module"

/-- The module of a JSON value. -/
def ofJson (json : Json) : EngineResult QueryModule :=
  match ofJson? json with
  | some m => .ok m
  | none => .fail malformed

/-- The module of a text. -/
def ofText (text : String) : EngineResult QueryModule :=
  match (Json.read? text).bind ofJson? with
  | some m => .ok m
  | none => .fail malformed

end QueryModule
end HybridQuery
