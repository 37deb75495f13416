import HybridQuery.Context.Chain
import HybridQuery.Plan.Compile

/-!
# Registries of functions

* `Registry.register`, `Registry.get`: functions by name and number of parameters.
* `Registry.ofPlans`: the declared functions of a module.
* `Builtin.toFunction`: a built-in function as a value.
-/

namespace HybridQuery

/-- The fault of a function without a name in a registry. -/
def Fault.unnamedFunction : Fault := .invalidArgument "Only named functions can be registered"

/-- Functions found by name and number of parameters; no two have both in common. -/
abbrev Registry := List FunctionItem

namespace Registry

/-- What a function is found by. -/
def keyOf? (f : FunctionItem) : Option FunctionKey := f.name.map fun name => (name, f.arity)

/-- The function of a name and a number of parameters, if there is one. -/
def find? (r : Registry) (key : FunctionKey) : Option FunctionItem :=
  List.find? (fun f => keyOf? f == some key) r

/-- The function of a name and a number of parameters. -/
def get (r : Registry) (key : FunctionKey) : EngineResult FunctionItem :=
  match find? r key with
  | some f => .ok f
  | none => .fail (.undefinedFunction key.1 key.2)

/-- Adds a function. -/
def register (r : Registry) (f : FunctionItem) : EngineResult Registry :=
  match keyOf? f with
  | none => .fail .unnamedFunction
  | some key =>
    if (find? r key).isSome then .fail (.declaredTwice key) else .ok (r ++ [f])

/-- A declared function as a value. It closes over nothing. -/
def ofPlan (f : FunctionPlan) : FunctionItem :=
  { handle := none
    name := some f.name
    parameters := f.parameters
    signature := f.signature
    body := f.body
    closure := .empty }

/-- The declared functions of a module. -/
def ofPlans (plans : List FunctionPlan) : Registry := plans.map ofPlan

end Registry

namespace Builtin

/-- The names of the parameters of a built-in function as a value. -/
def parameterNames (arity : Nat) : List String :=
  (List.range arity).map fun i => s!"arg{i + 1}"

/-- A built-in function as a value: its body calls it with the parameters, on the host. -/
def toFunction (b : Builtin) (arity : Nat) : FunctionItem :=
  let parameters := parameterNames arity
  { handle := none
    name := some b.name
    parameters := parameters
    signature := .unconstrained arity
    body := .mk .host .unknown
      (.compute (.builtin b (parameters.map fun name => .hostVariable name .unknown)))
    closure := .empty }

end Builtin
end HybridQuery
