import HybridQuery.Syntax.Analysis

/-!
# The moments of an analysis

A pass writes one mode after the other. What it has made of a tree and of the declared functions is
recorded here after each mode that it writes, and once more where it ends; what a part comes to, which
decides on how the pass goes on, is always asked of the pass itself.

* `Expression.moments`: the moments of the pass over an expression. Its rules follow the ways in which
  passes are put together.
* `declaredMoments`: the moments of finding the mode of a declared function.
* `QueryModule.moments`: the moments of the pass over a module, from its start to its end.
-/

namespace HybridQuery

/-- What a pass over a tree from given declarations has made of both, moment by moment. -/
abbrev Moments (τ : Type) := Declarations → List (τ × Declarations)

/-- What the declarations look like moment by moment while the mode of a function is found. -/
abbrev CalleeMoments := FunctionKey → Declarations → List Declarations

namespace Moments

variable {τ υ β : Type}

/-- A pass that writes nothing has no moments. -/
def none : Moments τ := fun _ => []

/-- Rebuilds the tree around the moments of a part. -/
def wrap (m : Moments τ) (tree : τ → υ) : Moments υ := fun D => (m D).map fun s => (tree s.1, s.2)

/-- The moments of a first part, and of a second one if the pass over the first succeeds. -/
def andThen (x : Pass (Analysed τ β)) (m : Moments τ) (second : υ) (n : β → Moments υ) :
    Moments (τ × υ) := fun D =>
  (m D).map (fun s => ((s.1, second), s.2)) ++
    match x.run D with
    | ((t, .ok b), E) => (n b E).map fun s => ((t, s.1), s.2)
    | ((_, .error _), _) => []

/-- The moments of a pass and what it ends with. -/
def ending (m : Moments τ) (x : Pass (Analysed τ β)) : Moments τ := fun D =>
  m D ++ [((x.run D).1.1, (x.run D).2)]

end Moments

/-- The moments of finding the mode of a call: those of the function that is called, if it is a declared
one. -/
def callMoments (shown : CalleeMoments) (name : String) (given : List (Option Expression)) :
    Moments Unit := fun D =>
  if (Builtin.find? name given.length).isSome || !D.any (·.key == (name, given.length))
      || given.any Option.isNone then []
  else (shown (name, given.length) D).map fun E => ((), E)

mutual
/-- The moments of the pass over an expression; the last one is after its own mode is written. -/
def Expression.moments (callee : CalleeMode) (shown : CalleeMoments) (scopes : List Scope) :
    Expression → Moments Expression
  | .mk kind position slot =>
    if slot.isComputed then .none
    else ((kind.moments callee shown scopes).wrap fun kind => .mk kind position slot).ending
      ((Expression.mk kind position slot).analyse callee scopes)

/-- The moments of the pass over the parts of an expression. -/
def ExpressionKind.moments (callee : CalleeMode) (shown : CalleeMoments) (scopes : List Scope) :
    ExpressionKind → Moments ExpressionKind
  | .literal _ | .contextItem | .varRef _ | .functionRef _ _ | .array none => .none
  | .sequence members => (memberMoments callee shown scopes members).wrap .sequence
  | .arithmetic op left right =>
    (Moments.andThen (left.analyse callee scopes) (left.moments callee shown scopes) right
      fun _ => right.moments callee shown scopes).wrap fun (left, right) => .arithmetic op left right
  | .comparison op left right =>
    (Moments.andThen (left.analyse callee scopes) (left.moments callee shown scopes) right
      fun _ => right.moments callee shown scopes).wrap fun (left, right) => .comparison op left right
  | .logical op left right =>
    (Moments.andThen (left.analyse callee scopes) (left.moments callee shown scopes) right
      fun _ => right.moments callee shown scopes).wrap fun (left, right) => .logical op left right
  | .range first last =>
    (Moments.andThen (first.analyse callee scopes) (first.moments callee shown scopes) last
      fun _ => last.moments callee shown scopes).wrap fun (first, last) => .range first last
  | .not operand => (operand.moments callee shown scopes).wrap .not
  | .conditional condition yes no =>
    (Moments.andThen (condition.analyse callee scopes) (condition.moments callee shown scopes)
      (yes, no) fun _ =>
        Moments.andThen (yes.analyse callee scopes) (yes.moments callee shown scopes) no
          fun _ => no.moments callee shown scopes).wrap
      fun (condition, yes, no) => .conditional condition yes no
  | .object pairs => (pairMoments callee shown scopes pairs).wrap .object
  | .array (some members) =>
    (members.moments callee shown scopes).wrap fun members => .array (some members)
  | .objectLookup object key =>
    (Moments.andThen (object.analyse callee scopes) (object.moments callee shown scopes) key
      fun _ => key.moments callee shown scopes).wrap fun (object, key) => .objectLookup object key
  | .arrayLookup array index =>
    (Moments.andThen (array.analyse callee scopes) (array.moments callee shown scopes) index
      fun _ => index.moments callee shown scopes).wrap fun (array, index) => .arrayLookup array index
  | .arrayUnbox array => (array.moments callee shown scopes).wrap .arrayUnbox
  | .filter sequence predicate =>
    (Moments.andThen (sequence.analyse callee scopes) (sequence.moments callee shown scopes) predicate
      fun _ => predicate.moments callee shown ([(contextItemName, .host)] :: scopes)).wrap
      fun (sequence, predicate) => .filter sequence predicate
  | .functionCall name given =>
    (Moments.andThen (analyseArguments callee scopes given) (argumentMoments callee shown scopes given)
      () fun _ => callMoments shown name given).wrap fun (given, ()) => .functionCall name given
  | .dynamicCall function given =>
    (Moments.andThen (function.analyse callee scopes) (function.moments callee shown scopes) given
      fun _ => argumentMoments callee shown scopes given).wrap
      fun (function, given) => .dynamicCall function given
  | .inlineFunction parameters returnType body =>
    (body.moments callee shown (parameterScope parameters :: scopes)).wrap
      (.inlineFunction parameters returnType)
  | .flwor clauses result =>
    (Moments.andThen (analyseClauses callee true ⟨[] :: scopes, .host, []⟩ clauses)
      (clauseMoments callee shown true ⟨[] :: scopes, .host, []⟩ clauses) result
      fun scope => result.moments callee shown scope.scopes).wrap
      fun (clauses, result) => .flwor clauses result

/-- The moments of the pass over a list of expressions. -/
def memberMoments (callee : CalleeMode) (shown : CalleeMoments) (scopes : List Scope) :
    List Expression → Moments (List Expression)
  | [] => .none
  | e :: rest =>
    (Moments.andThen (e.analyse callee scopes) (e.moments callee shown scopes) rest
      fun _ => memberMoments callee shown scopes rest).wrap fun (e, rest) => e :: rest

/-- The moments of the pass over pairs. -/
def pairMoments (callee : CalleeMode) (shown : CalleeMoments) (scopes : List Scope) :
    List (Expression × Expression) → Moments (List (Expression × Expression))
  | [] => .none
  | (key, value) :: rest =>
    (Moments.andThen (key.analyse callee scopes) (key.moments callee shown scopes) (value, rest)
      fun _ => Moments.andThen (value.analyse callee scopes) (value.moments callee shown scopes) rest
        fun _ => pairMoments callee shown scopes rest).wrap
      fun (key, value, rest) => (key, value) :: rest

/-- The moments of the pass over arguments. -/
def argumentMoments (callee : CalleeMode) (shown : CalleeMoments) (scopes : List Scope) :
    List (Option Expression) → Moments (List (Option Expression))
  | [] => .none
  | none :: rest => (argumentMoments callee shown scopes rest).wrap (none :: ·)
  | some e :: rest =>
    (Moments.andThen (e.analyse callee scopes) (e.moments callee shown scopes) rest
      fun _ => argumentMoments callee shown scopes rest).wrap fun (e, rest) => some e :: rest

/-- The moments of the pass over the clauses of a pipeline: those of a clause, then its own mode is
written, then those of the rest. -/
def clauseMoments (callee : CalleeMode) (shown : CalleeMoments) (isFirst : Bool)
    (scope : ClauseScope) : List Clause → Moments (List Clause)
  | [] => .none
  | .mk kind position slot :: rest => fun D =>
    (kind.moments callee shown scope D).map (fun s => (.mk s.1 position slot :: rest, s.2)) ++
      match (kind.analyse callee isFirst scope position).run D with
      | ((kind, .ok scope), E) =>
        (.mk kind position (slot.set scope.stream) :: rest, E) ::
          (clauseMoments callee shown false scope rest E).map fun s =>
            (.mk kind position (slot.set scope.stream) :: s.1, s.2)
      | ((_, .error _), _) => []

/-- The moments of the pass over the parts of a clause. -/
def ClauseKind.moments (callee : CalleeMode) (shown : CalleeMoments) (scope : ClauseScope) :
    ClauseKind → Moments ClauseKind
  | .forEach name place allowingEmpty source =>
    (source.moments callee shown scope.scopes).wrap (.forEach name place allowingEmpty)
  | .letBe name value => (value.moments callee shown scope.scopes).wrap (.letBe name)
  | .keepWhere condition => (condition.moments callee shown scope.scopes).wrap .keepWhere
  | .orderBy keys => (orderMoments callee shown scope.scopes keys).wrap .orderBy
  | .groupBy keys => (groupMoments callee shown scope.scopes keys).wrap .groupBy
  | .count _ => .none

/-- The moments of the pass over keys to order by. -/
def orderMoments (callee : CalleeMode) (shown : CalleeMoments) (scopes : List Scope) :
    List (OrderKey Expression) → Moments (List (OrderKey Expression))
  | [] => .none
  | ⟨e, descending, empty⟩ :: rest =>
    (Moments.andThen (e.analyse callee scopes) (e.moments callee shown scopes) rest
      fun _ => orderMoments callee shown scopes rest).wrap fun (e, rest) => ⟨e, descending, empty⟩ :: rest

/-- The moments of the pass over keys to group by; it stops at a variable that is not in scope. -/
def groupMoments (callee : CalleeMode) (shown : CalleeMoments) (scopes : List Scope) :
    List (GroupKey Expression) → Moments (List (GroupKey Expression))
  | [] => .none
  | ⟨name, none⟩ :: rest =>
    match lookupMode scopes name with
    | none => .none
    | some _ => (groupMoments callee shown scopes rest).wrap (⟨name, none⟩ :: ·)
  | ⟨name, some e⟩ :: rest =>
    (Moments.andThen (e.analyse callee scopes) (e.moments callee shown scopes) rest
      fun _ => groupMoments callee shown scopes rest).wrap fun (e, rest) => ⟨name, some e⟩ :: rest
end

/-! ## Declared functions -/

/-- The moments of finding the mode of a declared function: those of the pass over its body, which is
the body of the function all the while. -/
def declaredMoments : Nat → List FunctionKey → CalleeMoments
  | 0, _, _, _ => []
  | level + 1, inProgress, key, D =>
    if inProgress.contains key then []
    else match D.find? (·.key == key) with
      | none => []
      | some d =>
        (d.body.moments (declaredMode level (key :: inProgress))
          (declaredMoments level (key :: inProgress)) [parameterScope d.parameters] D).map
          fun s => setBody s.2 key s.1

/-- The moments of the passes over the bodies of declared functions. -/
def analyseDeclaredMoments (callee : CalleeMode) (shown : CalleeMoments) :
    List FunctionKey → Declarations → List Declarations
  | [], _ => []
  | key :: rest, D =>
    shown key D ++
      match (callee key).run D with
      | (.ok _, E) => analyseDeclaredMoments callee shown rest E
      | (.error _, _) => []

namespace QueryModule

/-- The modes that the pass over a module writes, one moment after each. -/
def writes (m : QueryModule) : List QueryModule :=
  match checkDeclarations [] m.functions with
  | .error _ => []
  | .ok () =>
    let callee := declaredMode (m.functions.length + 1) []
    let shown := declaredMoments (m.functions.length + 1) []
    (analyseDeclaredMoments callee shown (m.functions.map (·.key)) m.functions).map
        (fun functions => { m with functions := functions }) ++
      match (analyseDeclared callee (m.functions.map (·.key))).run m.functions with
      | (.ok (), functions) =>
        (m.body.moments callee shown [] functions).map fun s => { functions := s.2, body := s.1 }
      | (.error _, _) => []

/-- The moments of the pass over a module: its start, one after each mode that is written, its end. -/
def moments (m : QueryModule) : List QueryModule := m :: m.writes ++ [m.analyse.1]

end QueryModule
end HybridQuery
