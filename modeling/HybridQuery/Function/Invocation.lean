import HybridQuery.Context.Chain
import HybridQuery.Item.Promote

/-!
# Invoking functions

A call checks the number of its arguments first, then promotes each argument that is given. If one is
left out the call gives a new function of the parameters that are left; otherwise the body is to be
evaluated in a context of the closure and the arguments.

* `Catalogue.promoteValue`: takes a bound value to a sequence type, in its representation.
* `FunctionOf.partiallyApply`: the function that is left.
* `Invocation.of`: what a call comes to.
-/

namespace HybridQuery

/-! ## Promoting bound values -/

namespace Catalogue

/-- Takes a bound value to a type. A columnar value is checked and kept as it is. -/
def promoteValue (c : Catalogue) (value : Value Item) (type : SequenceType) :
    TypeResult (Value Item) :=
  match value with
  | .items items => do return .items (← c.promoteSequence items type)
  | .rows rows => do
    type.checkCount rows.count
    return .rows (← rows.mapM fun i => c.promote i type.itemType)
  | .columns frame => do
    type.checkCount frame.count
    let _ ← frame.toRows.mapM fun i => c.promote i type.itemType
    return .columns frame

/-- Takes the arguments that are given to the types of their parameters. -/
def promoteArguments (c : Catalogue) :
    List (Option (Value Item)) → List SequenceType → TypeResult (List (Option (Value Item)))
  | argument :: rest, type :: types => do
    let argument ←
      match argument with
      | some value =>
        if type.isUnconstrained then pure (some value)
        else some <$> c.promoteValue value type
      | none => pure none
    return argument :: (← promoteArguments c rest types)
  | _, _ => .ok []

end Catalogue

/-! ## Arguments and contexts -/

namespace FunctionOf

/-- Checks the number of arguments and promotes those that are given. -/
def prepareArguments (f : FunctionItem) (c : Catalogue) (arguments : List (Option (Value Item))) :
    EngineResult (List (Option (Value Item))) :=
  if arguments.length ≠ f.arity then
    .fail (.arity (f.name.getD "") f.arity arguments.length)
  else (c.promoteArguments arguments f.signature.parameterTypes).toEngine

/-- Parameters with their types, and the arguments for them. -/
def slots (f : FunctionItem) (arguments : List (Option (Value Item))) :
    List ((String × SequenceType) × Option (Value Item)) :=
  (f.parameters.zip f.signature.parameterTypes).zip arguments

/-- Binds the arguments that are given into the closure and keeps the other parameters, in order. -/
def partiallyApply (f : FunctionItem) (arguments : List (Option (Value Item))) : FunctionItem :=
  let slots := f.slots arguments
  let left := slots.filter (·.2.isNone)
  { handle := none
    name := none
    parameters := left.map (·.1.1)
    signature := ⟨left.map (·.1.2), f.signature.returnType⟩
    body := f.body
    closure := slots.foldl
      (fun closure slot =>
        match slot.2 with
        | some value => closure.bind slot.1.1 value
        | none => closure)
      f.closure }

/-- The context in which the body is evaluated: the closure and, above it, the arguments. -/
def invocationContext (f : FunctionItem) (arguments : List (Value Item)) : Context :=
  .detached ((f.parameters.zip arguments).foldl (fun b p => b.bind p.1 p.2) f.closure)

end FunctionOf

/-- What a call comes to. -/
inductive Invocation where
  /-- Arguments were left out. -/
  | partially (f : FunctionItem)
  | fully (context : Context)

namespace Invocation

/-- Checks a call and tells what it comes to. -/
def of (f : FunctionItem) (c : Catalogue) (arguments : List (Option (Value Item))) :
    EngineResult Invocation := do
  let arguments ← f.prepareArguments c arguments
  if arguments.any Option.isNone then return .partially (f.partiallyApply arguments)
  else return .fully (f.invocationContext (arguments.filterMap id))

end Invocation

end HybridQuery
