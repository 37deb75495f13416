import HybridQuery.Builtin
import HybridQuery.Syntax.Tree

/-!
# Mode analysis

One pass from the leaves up that gives every expression and clause its mode, and resolves names:
unknown variables and functions are found here. A node that has a mode keeps it and is not visited
again. A pass that fails keeps the modes computed so far.

* `QueryModule.analyse`: the module with the modes of one pass, and its outcome.
* `Expression.analyse`: the pass over an expression in given scopes.
* `declaredMode`: the mode of a call of a declared function, whose body is analysed on first use. A
  call inside the function's own analysis is evaluated on the host.
-/

namespace HybridQuery

/-! ## Scopes -/

/-- The modes of the variables of one scope, the latest binding first. -/
abbrev Scope := List (String × Mode)

/-- The variable that holds the item a predicate is applied to. -/
def contextItemName : String := "$$"

/-- The mode of a variable, from the innermost scope that binds it. -/
def lookupMode (scopes : List Scope) (name : String) : Option Mode :=
  scopes.findSome? (·.lookup name)

/-- Binds a variable in the innermost scope. -/
def bindMode (scopes : List Scope) (name : String) (mode : Mode) : List Scope :=
  match scopes with
  | [] => []
  | scope :: outer => ((name, mode) :: scope) :: outer

/-- The scope of parameters. -/
def parameterScope (parameters : List Parameter) : Scope :=
  parameters.map fun p => (p.name, .host)

/-! ## Passes -/

/-- The declared functions, with the modes computed so far. -/
abbrev Declarations := List FunctionDeclaration

/-- A pass over a part of a module: it may analyse declared functions on the way. -/
abbrev Pass (α : Type) := StateM Declarations α

/-- What a pass over a tree `τ` gives: the tree with its modes, and the outcome. -/
abbrev Analysed (τ β : Type) := τ × EngineResult β

namespace Pass

/-- A finished tree with its outcome. -/
def done {τ β : Type} (tree : τ) (result : EngineResult β) : Pass (Analysed τ β) :=
  pure (tree, result)

/-- Rebuilds the tree around an analysed part. -/
def wrap {τ υ β γ : Type} (x : Pass (Analysed τ β)) (tree : τ → υ) (value : β → γ) :
    Pass (Analysed υ γ) := do
  let (t, r) ← x
  return (tree t, r.map value)

/-- Analyses a first part, and a second one if the first succeeds; `second` is what is left of the
second part otherwise. -/
def andThen {τ υ β γ : Type} (x : Pass (Analysed τ β)) (second : υ)
    (y : β → Pass (Analysed υ γ)) : Pass (Analysed (τ × υ) γ) := do
  match ← x with
  | (t, .ok b) =>
    let (u, r) ← y b
    return ((t, u), r)
  | (t, .error e) => return ((t, second), .error e)

end Pass

/-- How the mode of a call of a declared function is found. -/
abbrev CalleeMode := FunctionKey → Pass (EngineResult Mode)

/-! ## Modes of nodes -/

/-- The mode of a sequence whose members are all distributed or not. -/
def sequenceMode (isEmpty allParallel : Bool) : Mode :=
  if !isEmpty && allParallel then .rows else .host

/-- The mode of an object lookup. -/
def lookupResultMode (input : Mode) : Mode := if input.isColumnar then .columns else input.rowWise

/-- The mode of a call of a named function, its arguments having been analysed. -/
def callMode (callee : CalleeMode) (name : String) (arity : Nat) (hasPlaceholder declared : Bool) :
    Pass (EngineResult Mode) :=
  match Builtin.find? name arity with
  | some builtin => pure (.ok (if hasPlaceholder then .host else builtin.mode))
  | none =>
    if !declared then pure (.fail (.undefinedFunction name arity))
    else if hasPlaceholder then pure (.ok .host)
    else callee (name, arity)

/-- Whether a function is declared. -/
def isDeclared (key : FunctionKey) : Pass Bool := do
  return (← get).any (·.key == key)

/-- The mode that a `let` binds its variable with: a distributed value survives only in a stream on
the host. -/
def letMode (stream value : Mode) : Mode := if stream.isHost then value else .host

/-- What the clauses of a pipeline have built up so far: the scopes, the mode of the stream, and the
variables introduced. -/
structure ClauseScope where
  scopes : List Scope
  stream : Mode
  introduced : List String

namespace ClauseScope

/-- Introduces a variable. -/
def introduce (s : ClauseScope) (name : String) (mode : Mode) : ClauseScope :=
  { s with scopes := bindMode s.scopes name mode, introduced := s.introduced ++ [name] }

/-- Introduces a variable, if there is one. -/
def introduceOption (s : ClauseScope) (name : Option String) (mode : Mode) : ClauseScope :=
  match name with
  | some name => s.introduce name mode
  | none => s

/-- Grouping makes every variable introduced so far a sequence on the host. -/
def afterGrouping (s : ClauseScope) (names : List String) : ClauseScope :=
  let s := names.foldl (fun s name => s.introduce name .host) s
  { s with scopes := s.introduced.foldl (fun scopes name => bindMode scopes name .host) s.scopes }

end ClauseScope

mutual
/-- The pass over an expression. -/
def Expression.analyse (callee : CalleeMode) (scopes : List Scope) :
    Expression → Pass (Analysed Expression Mode)
  | .mk kind position slot =>
    if slot.isComputed then
      Pass.done (.mk kind position slot) ((Expression.mk kind position slot).mode)
    else do
      match ← kind.analyse callee scopes with
      | (kind, .ok mode) => return (.mk kind position (slot.set mode), .ok mode)
      | (kind, .error e) => return (.mk kind position slot, .error (e.locate position))

/-- The pass over the parts of an expression, with the mode they give it. -/
def ExpressionKind.analyse (callee : CalleeMode) (scopes : List Scope) :
    ExpressionKind → Pass (Analysed ExpressionKind Mode)
  | .literal value => Pass.done (.literal value) (.ok .host)
  | .contextItem => Pass.done .contextItem (.ok .host)
  | .varRef name =>
    Pass.done (.varRef name)
      (match lookupMode scopes name with
        | some mode => .ok mode
        | none => .fail (.undefinedVariable name))
  | .sequence members =>
    Pass.wrap (analyseMembers callee scopes members) .sequence
      (sequenceMode members.isEmpty)
  | .arithmetic op left right =>
    Pass.wrap
      (Pass.andThen (left.analyse callee scopes) right fun _ => right.analyse callee scopes)
      (fun (left, right) => .arithmetic op left right) fun _ => .host
  | .comparison op left right =>
    Pass.wrap
      (Pass.andThen (left.analyse callee scopes) right fun _ => right.analyse callee scopes)
      (fun (left, right) => .comparison op left right) fun _ => .host
  | .logical op left right =>
    Pass.wrap
      (Pass.andThen (left.analyse callee scopes) right fun _ => right.analyse callee scopes)
      (fun (left, right) => .logical op left right) fun _ => .host
  | .range first last =>
    Pass.wrap
      (Pass.andThen (first.analyse callee scopes) last fun _ => last.analyse callee scopes)
      (fun (first, last) => .range first last) fun _ => .host
  | .not operand => Pass.wrap (operand.analyse callee scopes) .not fun _ => .host
  | .conditional condition yes no =>
    Pass.wrap
      (Pass.andThen (condition.analyse callee scopes) (yes, no) fun _ =>
        Pass.andThen (yes.analyse callee scopes) no fun _ => no.analyse callee scopes)
      (fun (condition, yes, no) => .conditional condition yes no) fun _ => .host
  | .object pairs => Pass.wrap (analysePairs callee scopes pairs) .object fun _ => .host
  | .array none => Pass.done (.array none) (.ok .host)
  | .array (some members) =>
    Pass.wrap (members.analyse callee scopes) (fun members => .array (some members)) fun _ => .host
  | .objectLookup object key =>
    Pass.wrap
      (Pass.andThen (object.analyse callee scopes) key fun input =>
        Pass.wrap (key.analyse callee scopes) id fun _ => input)
      (fun (object, key) => .objectLookup object key) lookupResultMode
  | .arrayLookup array index =>
    Pass.wrap
      (Pass.andThen (array.analyse callee scopes) index fun input =>
        Pass.wrap (index.analyse callee scopes) id fun _ => input)
      (fun (array, index) => .arrayLookup array index) Mode.rowWise
  | .arrayUnbox array => Pass.wrap (array.analyse callee scopes) .arrayUnbox Mode.rowWise
  | .filter sequence predicate =>
    Pass.wrap
      (Pass.andThen (sequence.analyse callee scopes) predicate fun input =>
        Pass.wrap (predicate.analyse callee ([(contextItemName, .host)] :: scopes)) id
          fun _ => input)
      (fun (sequence, predicate) => .filter sequence predicate) Mode.rowWise
  | .functionCall name given => do
    match ← analyseArguments callee scopes given with
    | (given, .error e) => return (.functionCall name given, .error e)
    | (given, .ok _) =>
      let mode ← callMode callee name given.length (given.any Option.isNone)
        (← isDeclared (name, given.length))
      return (.functionCall name given, mode)
  | .dynamicCall function given =>
    Pass.wrap
      (Pass.andThen (function.analyse callee scopes) given fun _ =>
        analyseArguments callee scopes given)
      (fun (function, given) => .dynamicCall function given) fun _ => .host
  | .inlineFunction parameters returnType body =>
    Pass.wrap (body.analyse callee (parameterScope parameters :: scopes))
      (.inlineFunction parameters returnType) fun _ => .host
  | .functionRef name arity => do
    let known := (Builtin.find? name arity).isSome || (← isDeclared (name, arity))
    return (.functionRef name arity,
      if known then .ok .host else .fail (.undefinedFunction name arity))
  | .flwor clauses result =>
    Pass.wrap
      (Pass.andThen (analyseClauses callee true ⟨[] :: scopes, .host, []⟩ clauses) result
        fun scope => Pass.wrap (result.analyse callee scope.scopes) id fun _ => scope.stream)
      (fun (clauses, result) => .flwor clauses result) id

/-- The pass over a list of expressions; tells whether all are distributed. -/
def analyseMembers (callee : CalleeMode) (scopes : List Scope) :
    List Expression → Pass (Analysed (List Expression) Bool)
  | [] => Pass.done [] (.ok true)
  | e :: rest =>
    Pass.wrap
      (Pass.andThen (e.analyse callee scopes) rest fun mode =>
        Pass.wrap (analyseMembers callee scopes rest) id fun all => mode.isParallel && all)
      (fun (e, rest) => e :: rest) id

/-- The pass over pairs, key before value. -/
def analysePairs (callee : CalleeMode) (scopes : List Scope) :
    List (Expression × Expression) → Pass (Analysed (List (Expression × Expression)) Unit)
  | [] => Pass.done [] (.ok ())
  | (key, value) :: rest =>
    Pass.wrap
      (Pass.andThen (key.analyse callee scopes) (value, rest) fun _ =>
        Pass.andThen (value.analyse callee scopes) rest fun _ => analysePairs callee scopes rest)
      (fun (key, value, rest) => (key, value) :: rest) id

/-- The pass over the arguments that are given. -/
def analyseArguments (callee : CalleeMode) (scopes : List Scope) :
    List (Option Expression) → Pass (Analysed (List (Option Expression)) Unit)
  | [] => Pass.done [] (.ok ())
  | none :: rest => Pass.wrap (analyseArguments callee scopes rest) (none :: ·) id
  | some e :: rest =>
    Pass.wrap
      (Pass.andThen (e.analyse callee scopes) rest fun _ => analyseArguments callee scopes rest)
      (fun (e, rest) => some e :: rest) id

/-- The pass over the clauses of a pipeline. A first `for` over a distributed source makes the stream
distributed. -/
def analyseClauses (callee : CalleeMode) (isFirst : Bool) (scope : ClauseScope) :
    List Clause → Pass (Analysed (List Clause) ClauseScope)
  | [] => Pass.done [] (.ok scope)
  | .mk kind position slot :: rest => do
    match ← kind.analyse callee isFirst scope position with
    | (kind, .error e) => return (.mk kind position slot :: rest, .error e)
    | (kind, .ok scope) =>
      let (rest, r) ← analyseClauses callee false scope rest
      return (.mk kind position (slot.set scope.stream) :: rest, r)

/-- The pass over the parts of a clause, with the scope after it. -/
def ClauseKind.analyse (callee : CalleeMode) (isFirst : Bool) (scope : ClauseScope)
    (position : SourcePosition) : ClauseKind → Pass (Analysed ClauseKind ClauseScope)
  | .forEach name place allowingEmpty source =>
    Pass.wrap (source.analyse callee scope.scopes) (.forEach name place allowingEmpty) fun mode =>
      let scope := if isFirst then { scope with stream := mode.rowWise } else scope
      (scope.introduce name .host).introduceOption place .host
  | .letBe name value =>
    Pass.wrap (value.analyse callee scope.scopes) (.letBe name) fun mode =>
      scope.introduce name (letMode scope.stream mode)
  | .keepWhere condition =>
    Pass.wrap (condition.analyse callee scope.scopes) .keepWhere fun _ => scope
  | .orderBy keys =>
    Pass.wrap (analyseOrderKeys callee scope.scopes keys) .orderBy fun _ => scope
  | .groupBy keys =>
    Pass.wrap (analyseGroupKeys callee scope.scopes position keys) .groupBy fun _ =>
      scope.afterGrouping (keys.map (·.variableName))
  | .count name => Pass.done (.count name) (.ok (scope.introduce name .host))

/-- The pass over keys to order by. -/
def analyseOrderKeys (callee : CalleeMode) (scopes : List Scope) :
    List (OrderKey Expression) → Pass (Analysed (List (OrderKey Expression)) Unit)
  | [] => Pass.done [] (.ok ())
  | ⟨e, descending, empty⟩ :: rest =>
    Pass.wrap
      (Pass.andThen (e.analyse callee scopes) rest fun _ => analyseOrderKeys callee scopes rest)
      (fun (e, rest) => ⟨e, descending, empty⟩ :: rest) id

/-- The pass over keys to group by; a key without an expression names a variable in scope. -/
def analyseGroupKeys (callee : CalleeMode) (scopes : List Scope) (position : SourcePosition) :
    List (GroupKey Expression) → Pass (Analysed (List (GroupKey Expression)) Unit)
  | [] => Pass.done [] (.ok ())
  | ⟨name, none⟩ :: rest =>
    match lookupMode scopes name with
    | none =>
      Pass.done (⟨name, none⟩ :: rest)
        (EngineResult.locate (.fail (.undefinedVariable name)) position)
    | some _ =>
      Pass.wrap (analyseGroupKeys callee scopes position rest) (⟨name, none⟩ :: ·) id
  | ⟨name, some e⟩ :: rest =>
    Pass.wrap
      (Pass.andThen (e.analyse callee scopes) rest fun _ =>
        analyseGroupKeys callee scopes position rest)
      (fun (e, rest) => ⟨name, some e⟩ :: rest) id
end

/-! ## Declared functions -/

/-- Sets the body of a declared function. -/
def setBody (declarations : Declarations) (key : FunctionKey) (body : Expression) : Declarations :=
  declarations.map fun d => if d.key == key then { d with body := body } else d

/-- The mode of the body of a declared function, which is analysed unless it has a mode. A function
in `inProgress` is being analysed already. Every level of recursion adds a function to `inProgress`,
so that as many levels as there are declarations always suffice. -/
def declaredMode : Nat → List FunctionKey → CalleeMode
  | 0, _, _ => pure (.ok .host)
  | level + 1, inProgress, key => do
    if inProgress.contains key then return .ok .host
    match (← get).find? (·.key == key) with
    | none => return .fail (.undefinedFunction key.1 key.2)
    | some d =>
      let (body, r) ← d.body.analyse (declaredMode level (key :: inProgress))
        [parameterScope d.parameters]
      modify fun declarations => setBody declarations key body
      return r

/-- The fault of a declaration that hides a built-in function. -/
def Fault.shadowsBuiltin (key : FunctionKey) : Fault :=
  .invalidArgument s!"Function {key.1}#{key.2} shadows a built-in function"

/-- The fault of a function that is declared twice. -/
def Fault.declaredTwice (key : FunctionKey) : Fault :=
  .invalidArgument s!"Function {key.1}#{key.2} is declared more than once"

/-- Checks that declared functions neither hide built-in ones nor each other. -/
def checkDeclarations (seen : List FunctionKey) : Declarations → EngineResult Unit
  | [] => .ok ()
  | d :: rest =>
    if (Builtin.find? d.name d.arity).isSome then
      EngineResult.locate (.fail (.shadowsBuiltin d.key)) d.position
    else if seen.contains d.key then
      EngineResult.locate (.fail (.declaredTwice d.key)) d.position
    else checkDeclarations (d.key :: seen) rest

/-- The passes over the bodies of declared functions. -/
def analyseDeclared (callee : CalleeMode) : List FunctionKey → Pass (EngineResult Unit)
  | [] => pure (.ok ())
  | key :: rest => do
    match ← callee key with
    | .ok _ => analyseDeclared callee rest
    | .error e => return .error e

namespace QueryModule

/-- The pass over a module: declared functions in order, then the body. -/
def analyse (m : QueryModule) : QueryModule × EngineResult Unit :=
  match checkDeclarations [] m.functions with
  | .error e => (m, .error e)
  | .ok () =>
    let callee := declaredMode (m.functions.length + 1) []
    let (r, functions) := (analyseDeclared callee (m.functions.map (·.key))).run m.functions
    match r with
    | .error e => ({ m with functions := functions }, .error e)
    | .ok () =>
      let ((body, r), functions) := (m.body.analyse callee []).run functions
      ({ functions := functions, body := body }, r.map fun _ => ())

end QueryModule
end HybridQuery
