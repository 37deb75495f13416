import HybridQuery.Proofs.Modes.Calls
import HybridQuery.Syntax.Analysis

/-!
# The rules of modes

The mode of a node follows from the modes of its children, from those of the variables in scope and from
those of the declared functions. The rules are given here as a table, and as one recursion that puts the
modes on a tree; neither depends on an order in which functions are met.

* `ExpressionKind.rule`: the table, read off children that have modes.
* `ClauseKind.scopeAfter`: what a clause binds, in a stream of a given mode.
* `Expression.ruled`, `QueryModule.ruled`: the tree with its modes. There is none if a name is unknown.
* `QueryModule.FollowsRules`: an analysed module in which every call has the mode of the body that it
  calls, and every other node the mode that the table gives it.
-/

namespace HybridQuery

/-! ## Names in scope -/

/-- The modes of the variables in scope. -/
abbrev VariableModes := String → Option Mode

/-- The nearest binding of a name counts. -/
def VariableModes.bind (vars : VariableModes) (names : List String) (mode : Mode) : VariableModes :=
  fun name => if name ∈ names then some mode else vars name

/-- Parameters are evaluated on the host. -/
def VariableModes.bindParameters (vars : VariableModes) (parameters : List Parameter) : VariableModes :=
  vars.bind (parameters.map (·.name)) .host

/-- The modes of the declared functions' bodies. -/
abbrev CallModes := FunctionKey → Option Mode

/-- A function is built in or declared. -/
def CallModes.Knows (calls : CallModes) (key : FunctionKey) : Prop :=
  Builtin.find? key.1 key.2 ≠ none ∨ calls key ≠ none

instance (calls : CallModes) (key : FunctionKey) : Decidable (calls.Knows key) :=
  inferInstanceAs (Decidable (_ ∨ _))

/-! ## The table -/

/-- Item-by-item work on a distributed input is distributed by rows. -/
def Mode.byItems : Mode → Mode
  | .rows | .columns => .rows
  | .unset | .host => .host

/-- The mode of the stream that a clause starts. -/
def ClauseKind.streamMode : ClauseKind → Mode
  | forEach _ _ _ source => source.slot.getD.byItems
  | _ => .host

/-- The mode of a pipeline: that of the stream that its first clause starts. -/
def pipelineMode : List Clause → Mode
  | [] => .host
  | .mk kind _ _ :: _ => kind.streamMode

/-- The mode of an expression whose parts have modes. -/
def ExpressionKind.rule (calls : CallModes) (vars : VariableModes) : ExpressionKind → Mode
  | varRef name => (vars name).getD .host
  | sequence members =>
    if members ≠ [] ∧ ∀ e ∈ members, e.slot.getD.isParallel then .rows else .host
  | objectLookup input _ => if input.slot.getD = .columns then .columns else input.slot.getD.byItems
  | arrayLookup input _ | arrayUnbox input | filter input _ => input.slot.getD.byItems
  | functionCall name given =>
    if given.any Option.isNone then .host
    else match Builtin.find? name given.length with
      | some builtin => builtin.mode
      | none => (calls (name, given.length)).getD .host
  | flwor clauses _ => pipelineMode clauses
  | _ => .host

/-- The variables that a clause introduces. -/
def ClauseKind.introduces : ClauseKind → List String
  | forEach name place _ _ => name :: place.toList
  | letBe name _ => [name]
  | groupBy keys => keys.map (·.variableName)
  | count name => [name]
  | keepWhere _ | orderBy _ => []

/-- What the clauses of a pipeline have bound so far. -/
structure PipelineScope where
  vars : VariableModes
  introduced : List String

/-- What is bound after a clause of which the parts have modes. A `let` in a stream on the host keeps
the mode of its value. Grouping puts on the host whatever the pipeline has introduced. -/
def ClauseKind.scopeAfter (stream : Mode) (s : PipelineScope) (kind : ClauseKind) : PipelineScope where
  vars :=
    match kind with
    | letBe name value => s.vars.bind [name] (if stream = .host then value.slot.getD else .host)
    | groupBy _ => s.vars.bind (s.introduced ++ kind.introduces) .host
    | _ => s.vars.bind kind.introduces .host
  introduced := s.introduced ++ kind.introduces

/-! ## Trees with their modes -/

mutual
/-- The expression with the modes that the rules give it and everything below it. -/
def Expression.ruled (calls : CallModes) (vars : VariableModes) : Expression → Option Expression
  | .mk kind position _ => do
    let kind ← kind.ruled calls vars
    return .mk kind position ⟨some (kind.rule calls vars)⟩

/-- The parts of an expression with their modes. -/
def ExpressionKind.ruled (calls : CallModes) (vars : VariableModes) :
    ExpressionKind → Option ExpressionKind
  | .literal value => return .literal value
  | .contextItem => return .contextItem
  | .varRef name => if vars name = none then none else return .varRef name
  | .sequence members => return .sequence (← membersRuled calls vars members)
  | .arithmetic op left right =>
    return .arithmetic op (← left.ruled calls vars) (← right.ruled calls vars)
  | .comparison op left right =>
    return .comparison op (← left.ruled calls vars) (← right.ruled calls vars)
  | .logical op left right => return .logical op (← left.ruled calls vars) (← right.ruled calls vars)
  | .range first last => return .range (← first.ruled calls vars) (← last.ruled calls vars)
  | .not operand => return .not (← operand.ruled calls vars)
  | .conditional condition yes no =>
    return .conditional (← condition.ruled calls vars) (← yes.ruled calls vars) (← no.ruled calls vars)
  | .object pairs => return .object (← pairsRuled calls vars pairs)
  | .array none => return .array none
  | .array (some members) => return .array (some (← members.ruled calls vars))
  | .objectLookup object key =>
    return .objectLookup (← object.ruled calls vars) (← key.ruled calls vars)
  | .arrayLookup array index =>
    return .arrayLookup (← array.ruled calls vars) (← index.ruled calls vars)
  | .arrayUnbox array => return .arrayUnbox (← array.ruled calls vars)
  | .filter sequence predicate =>
    return .filter (← sequence.ruled calls vars)
      (← predicate.ruled calls (vars.bind [contextItemName] .host))
  | .functionCall name given => do
    let given ← argumentsRuled calls vars given
    if calls.Knows (name, given.length) then return .functionCall name given else none
  | .dynamicCall function given =>
    return .dynamicCall (← function.ruled calls vars) (← argumentsRuled calls vars given)
  | .inlineFunction parameters returnType body =>
    return .inlineFunction parameters returnType
      (← body.ruled calls (vars.bindParameters parameters))
  | .functionRef name arity =>
    if calls.Knows (name, arity) then return .functionRef name arity else none
  | .flwor clauses result => do
    let (clauses, scope) ← clausesRuled calls none ⟨vars, []⟩ clauses
    return .flwor clauses (← result.ruled calls scope.vars)

/-- Expressions with their modes. -/
def membersRuled (calls : CallModes) (vars : VariableModes) : List Expression → Option (List Expression)
  | [] => return []
  | e :: rest => return (← e.ruled calls vars) :: (← membersRuled calls vars rest)

/-- Pairs with their modes. -/
def pairsRuled (calls : CallModes) (vars : VariableModes) :
    List (Expression × Expression) → Option (List (Expression × Expression))
  | [] => return []
  | (key, value) :: rest =>
    return (← key.ruled calls vars, ← value.ruled calls vars) :: (← pairsRuled calls vars rest)

/-- Arguments with their modes. -/
def argumentsRuled (calls : CallModes) (vars : VariableModes) :
    List (Option Expression) → Option (List (Option Expression))
  | [] => return []
  | none :: rest => return none :: (← argumentsRuled calls vars rest)
  | some e :: rest => return some (← e.ruled calls vars) :: (← argumentsRuled calls vars rest)

/-- Clauses with their modes, and what is bound after them. The first clause decides how the stream is
evaluated, and all clauses are evaluated like it. -/
def clausesRuled (calls : CallModes) (stream : Option Mode) (scope : PipelineScope) :
    List Clause → Option (List Clause × PipelineScope)
  | [] => return ([], scope)
  | .mk kind position _ :: rest => do
    let kind ← kind.ruled calls scope.vars
    let mode := stream.getD kind.streamMode
    let (rest, after) ← clausesRuled calls (some mode) (kind.scopeAfter mode scope) rest
    return (.mk kind position ⟨some mode⟩ :: rest, after)

/-- The parts of a clause with their modes. -/
def ClauseKind.ruled (calls : CallModes) (vars : VariableModes) : ClauseKind → Option ClauseKind
  | .forEach name place allowingEmpty source =>
    return .forEach name place allowingEmpty (← source.ruled calls vars)
  | .letBe name value => return .letBe name (← value.ruled calls vars)
  | .keepWhere condition => return .keepWhere (← condition.ruled calls vars)
  | .orderBy keys => return .orderBy (← orderKeysRuled calls vars keys)
  | .groupBy keys => return .groupBy (← groupKeysRuled calls vars keys)
  | .count name => return .count name

/-- Keys to order by, with their modes. -/
def orderKeysRuled (calls : CallModes) (vars : VariableModes) :
    List (OrderKey Expression) → Option (List (OrderKey Expression))
  | [] => return []
  | ⟨e, descending, empty⟩ :: rest =>
    return ⟨← e.ruled calls vars, descending, empty⟩ :: (← orderKeysRuled calls vars rest)

/-- Keys to group by, with their modes; a key without an expression names a variable in scope. -/
def groupKeysRuled (calls : CallModes) (vars : VariableModes) :
    List (GroupKey Expression) → Option (List (GroupKey Expression))
  | [] => return []
  | ⟨name, none⟩ :: rest =>
    if vars name = none then none else return ⟨name, none⟩ :: (← groupKeysRuled calls vars rest)
  | ⟨name, some e⟩ :: rest =>
    return ⟨name, some (← e.ruled calls vars)⟩ :: (← groupKeysRuled calls vars rest)
end

/-! ## Modules -/

/-- A declared function with the modes of its body: only its parameters are in scope. -/
def FunctionDeclaration.ruled (calls : CallModes) (d : FunctionDeclaration) :
    Option FunctionDeclaration :=
  return { d with body := ← d.body.ruled calls (VariableModes.bindParameters (fun _ => none) d.parameters) }

namespace QueryModule

/-- The module with the modes that the rules give it; no variable is in scope in its body. -/
def ruled (m : QueryModule) (calls : CallModes) : Option QueryModule :=
  return { functions := ← m.functions.mapM (·.ruled calls)
           body := ← m.body.ruled calls fun _ => none }

/-- The modes of the declared functions' bodies in an analysed module. -/
def callModes (a : QueryModule) : CallModes := fun key => (a.declaration? key).map (·.body.slot.getD)

/-- The module `a` is `m` with modes that follow the rules, where a call has the mode that the body of
the called function has in `a` itself. -/
def FollowsRules (a m : QueryModule) : Prop := m.ruled a.callModes = some a

end QueryModule
end HybridQuery
