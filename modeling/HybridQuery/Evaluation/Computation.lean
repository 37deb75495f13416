import HybridQuery.Evaluation.Evaluator
import HybridQuery.Function.Invocation
import HybridQuery.Item.Arithmetic
import HybridQuery.Item.Printed

/-!
# Computations

What yields all its items at once: literals, operators, constructors and functions as values.
-/

namespace HybridQuery

/-! ## Faults -/

namespace Fault

/-- An operand is no atomic. -/
def operandNotAtomic (item : Item) : Fault :=
  .typeMismatch s!"Operand must be an atomic, found {item.typeName}"

/-- A key of an object constructor is no atomic other than null. -/
def objectKeyNotAtomic (item : Item) : Fault :=
  .typeMismatch s!"Object key must be an atomic, found {item.typeName}"

/-- A key of an object constructor is missing. -/
def objectKeyMissing : Fault := .invalidArgument "Object key is an empty sequence"

/-- A key stands twice in an object constructor. -/
def duplicateKey (key : String) : Fault :=
  .invalidArgument s!"Duplicate key {key} in object constructor"

end Fault

/-- The text that an atomic other than null stands for as a key. -/
def Item.keyText? (i : Item) : Option String :=
  match i with
  | .string s => some s
  | i => if i.isAtomic && !i.isNull then some i.text else none

/-- What stands for a sequence where a single item belongs: null for none, an array for several. -/
def Sequence.asItem : Sequence → Item
  | [] => .null
  | [i] => i
  | items => .array items

namespace PlanEvaluator

/-! ## Operators -/

/-- An operand: at most one atomic. -/
def operand (ev : PlanEvaluator) (p : Plan) (context : Context) : Engine (Option Item) := do
  match ← ev.optionalItem p context "Operand" with
  | some i => if i.isAtomic then return some i else Run.locate (Run.fail (.operandNotAtomic i)) p.position
  | none => return none

/-- Applies an operator to two operands, unless one is empty. Both are evaluated. -/
def binary (ev : PlanEvaluator) (left right : Plan) (context : Context)
    (apply : Item → Item → EngineResult Item) : Engine Sequence := do
  let l ← ev.operand left context
  let r ← ev.operand right context
  match l, r with
  | some l, some r => return [← Run.ofResult (apply l r)]
  | _, _ => return []

/-- A connective; the right operand is evaluated only if the left one does not decide. -/
def connective (ev : PlanEvaluator) (op : LogicalOp) (left right : Plan) (context : Context) :
    Engine Bool := do
  match op, ← ev.truth left context with
  | .and, false => return false
  | .or, true => return true
  | _, _ => ev.truth right context

/-! ## Constructors -/

/-- The key of a pair of an object constructor. -/
def pairKey (ev : PlanEvaluator) (p : Plan) (context : Context) : Engine String := do
  match ← ev.optionalItem p context "Object key" with
  | none => Run.locate (Run.fail .objectKeyMissing) p.position
  | some i =>
    match i.keyText? with
    | some key => return key
    | none => Run.locate (Run.fail (.objectKeyNotAtomic i)) p.position

/-- The pairs of an object constructor after those that are done. -/
def objectPairs (ev : PlanEvaluator) (context : Context) (done : List (String × Item)) :
    List (Plan × Plan) → Engine (List (String × Item))
  | [] => return done
  | (key, value) :: rest => do
    let k ← ev.pairKey key context
    if done.any (·.1 == k) then Run.locate (Run.fail (.duplicateKey k)) value.position
    else
      let items ← ev.evaluate value context
      ev.objectPairs context (done ++ [(k, items.asItem)]) rest

/-! ## Functions -/

/-- A named function: a built-in one, or else a declared one. -/
def namedFunction (name : String) (arity : Nat) : Engine FunctionItem := do
  match Builtin.find? name arity with
  | some b => return b.toFunction arity
  | none => Run.ofResult ((← Run.environment).functions.get (name, arity))

/-- An inline function, closed over everything visible. -/
def inlineFunction (parameters : List String) (signature : Signature) (body : Plan)
    (context : Context) : FunctionItem :=
  { handle := none
    name := none
    parameters := parameters
    signature := signature
    body := body
    closure := context.snapshot }

/-- The context item, which is bound on the host. -/
def contextItem (context : Context) : EngineResult Sequence :=
  match context.lookup contextItemName with
  | some (.items items) => .ok items
  | _ => .fail (.undefinedVariable contextItemName)

end PlanEvaluator
end HybridQuery
