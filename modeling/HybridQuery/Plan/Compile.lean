import HybridQuery.Plan.Tree
import HybridQuery.Syntax.Analysis
import HybridQuery.Types.Catalogue

/-!
# Compiling modules

Compilation turns an analysed module into plans. It fails if a node has no mode or a signature names
an unknown type.

* `Expression.compile`: the plan of an expression.
* `QueryModule.compile`: the plans of a module.
-/

namespace HybridQuery

/-- Checks a sequence type of the node at a position. -/
def Catalogue.checkAt (c : Catalogue) (type : SequenceType) (position : SourcePosition) :
    EngineResult Unit :=
  (c.check type).toEngine.locate position

/-- Checks the types of parameters, in order. -/
def checkParameters (c : Catalogue) (position : SourcePosition) : List Parameter → EngineResult Unit
  | [] => .ok ()
  | p :: rest => do
    c.checkAt p.type position
    checkParameters c position rest

/-- The signature of parameters and a return type, all of known types. -/
def compileSignature (c : Catalogue) (parameters : List Parameter) (returnType : SequenceType)
    (position : SourcePosition) : EngineResult Signature := do
  checkParameters c position parameters
  c.checkAt returnType position
  return ⟨parameters.map (·.type), returnType⟩

/-- The operation of a call of a named function: of a built-in one if every argument is given. -/
def callOperation (name : String) (given : List (Option Plan)) : Operation :=
  match Builtin.find? name given.length with
  | some function =>
    if given.all Option.isSome then .compute (.builtin function (given.filterMap id))
    else .staticCall name given
  | none => .staticCall name given

mutual
/-- The plan of an expression. -/
def Expression.compile (c : Catalogue) : Expression → EngineResult Plan
  | .mk kind position slot => do
    let mode ← (slot.get kind.name).locate position
    return .mk mode position (← kind.compile c position)

/-- The operation of an expression. -/
def ExpressionKind.compile (c : Catalogue) (position : SourcePosition) :
    ExpressionKind → EngineResult Operation
  | .literal value => .ok (.compute (.literal value))
  | .contextItem => .ok (.compute .contextItem)
  | .varRef name => .ok (.varRef name)
  | .sequence members => do return .sequence (← compileMembers c members)
  | .arithmetic op left right => do
    return .compute (.arithmetic op (← left.compile c) (← right.compile c))
  | .comparison op left right => do
    return .compute (.comparison op (← left.compile c) (← right.compile c))
  | .logical op left right => do
    return .compute (.logical op (← left.compile c) (← right.compile c))
  | .not operand => do return .compute (.not (← operand.compile c))
  | .conditional condition yes no => do
    return .conditional (← condition.compile c) (← yes.compile c) (← no.compile c)
  | .range first last => do return .range (← first.compile c) (← last.compile c)
  | .object pairs => do return .compute (.object (← compilePairs c pairs))
  | .array none => .ok (.compute (.array none))
  | .array (some members) => do return .compute (.array (some (← members.compile c)))
  | .objectLookup object key => do
    let key ← key.compile c
    return .navigate (.objectLookup key) (← object.compile c)
  | .arrayLookup array index => do
    let index ← index.compile c
    return .navigate (.arrayLookup index) (← array.compile c)
  | .arrayUnbox array => do return .navigate .arrayUnbox (← array.compile c)
  | .filter sequence predicate => do
    let predicate ← predicate.compile c
    return .navigate (.filter predicate) (← sequence.compile c)
  | .functionCall name given => do return callOperation name (← compileArguments c given)
  | .dynamicCall function given => do
    return .dynamicCall (← function.compile c) (← compileArguments c given)
  | .inlineFunction parameters returnType body => do
    let signature ← compileSignature c parameters returnType position
    return .compute (.inlineFunction (parameters.map (·.name)) signature (← body.compile c))
  | .functionRef name arity => .ok (.compute (.functionRef name arity))
  | .flwor clauses result => do
    let pipeline ← compileClauses c .start clauses
    return .flwor pipeline (← result.compile c)

/-- The plans of a list of expressions. -/
def compileMembers (c : Catalogue) : List Expression → EngineResult (List Plan)
  | [] => .ok []
  | e :: rest => do
    let plan ← e.compile c
    return plan :: (← compileMembers c rest)

/-- The plans of pairs. -/
def compilePairs (c : Catalogue) :
    List (Expression × Expression) → EngineResult (List (Plan × Plan))
  | [] => .ok []
  | (key, value) :: rest => do
    let key ← key.compile c
    let value ← value.compile c
    return (key, value) :: (← compilePairs c rest)

/-- The plans of arguments. -/
def compileArguments (c : Catalogue) :
    List (Option Expression) → EngineResult (List (Option Plan))
  | [] => .ok []
  | none :: rest => do return none :: (← compileArguments c rest)
  | some e :: rest => do
    let plan ← e.compile c
    return some plan :: (← compileArguments c rest)

/-- The chain of clauses after a chain that is there already. -/
def compileClauses (c : Catalogue) (feed : Pipeline) : List Clause → EngineResult Pipeline
  | [] => .ok feed
  | .mk kind position slot :: rest => do
    let mode ← (slot.get kind.name).locate position
    let operation ← kind.compile c
    compileClauses c (.clause mode position operation feed) rest

/-- The operation of a clause. -/
def ClauseKind.compile (c : Catalogue) : ClauseKind → EngineResult ClauseOperation
  | .forEach name place allowingEmpty source => do
    return .forEach name place allowingEmpty (← source.compile c)
  | .letBe name value => do return .letBe name (← value.compile c)
  | .keepWhere condition => do return .keepWhere (← condition.compile c)
  | .orderBy keys => do return .orderBy (← compileOrderKeys c keys)
  | .groupBy keys => do return .groupBy (← compileGroupKeys c keys)
  | .count name => .ok (.count name)

/-- The plans of keys to order by. -/
def compileOrderKeys (c : Catalogue) :
    List (OrderKey Expression) → EngineResult (List (OrderKey Plan))
  | [] => .ok []
  | ⟨e, descending, empty⟩ :: rest => do
    let plan ← e.compile c
    return ⟨plan, descending, empty⟩ :: (← compileOrderKeys c rest)

/-- The plans of keys to group by. -/
def compileGroupKeys (c : Catalogue) :
    List (GroupKey Expression) → EngineResult (List (GroupKey Plan))
  | [] => .ok []
  | ⟨name, none⟩ :: rest => do return ⟨name, none⟩ :: (← compileGroupKeys c rest)
  | ⟨name, some e⟩ :: rest => do
    let plan ← e.compile c
    return ⟨name, some plan⟩ :: (← compileGroupKeys c rest)
end

/-! ## Modules -/

/-- A compiled declared function. -/
structure FunctionPlan where
  name : String
  parameters : List String
  signature : Signature
  body : Plan
  deriving Inhabited

/-- What the function is found by. -/
def FunctionPlan.key (f : FunctionPlan) : FunctionKey := (f.name, f.parameters.length)

/-- A compiled module. -/
structure ModulePlan where
  functions : List FunctionPlan
  body : Plan
  deriving Inhabited

/-- The plan of a declared function. -/
def FunctionDeclaration.compile (c : Catalogue) (d : FunctionDeclaration) :
    EngineResult FunctionPlan := do
  let signature ← compileSignature c d.parameters d.returnType d.position
  let body ← d.body.compile c
  return ⟨d.name, d.parameters.map (·.name), signature, body⟩

/-- The plans of declared functions after those that are compiled already. -/
def compileDeclarations (c : Catalogue) (compiled : List FunctionPlan) :
    Declarations → EngineResult (List FunctionPlan)
  | [] => .ok compiled
  | d :: rest => do
    let f ← d.compile c
    if compiled.any (·.key == f.key) then
      EngineResult.locate (.fail (.declaredTwice f.key)) d.position
    else compileDeclarations c (compiled ++ [f]) rest

/-- The plans of an analysed module. -/
def QueryModule.compile (m : QueryModule) (c : Catalogue) : EngineResult ModulePlan := do
  let functions ← compileDeclarations c [] m.functions
  return ⟨functions, ← m.body.compile c⟩

end HybridQuery
