import HybridQuery.Proofs.Completeness.Nodes
import HybridQuery.Proofs.Passes

/-!
# The computations of an analysis

A pass computes the modes of nodes, one after the other. Where those nodes are is recorded here in the order
in which their computations begin, whether they succeed or not. What a part comes to, which decides on how the
pass goes on, is always asked of the pass itself.

* `Place`, `nodeAt?`: where a node is, in a part or in the body of a declared function, and the node there.
* `Expression.computations`: the places that the pass over an expression computes. Its rules follow the ways
  in which passes are put together.
* `declaredComputations`: the places that are computed to find the mode of a declared function.
* `QueryModule.computations`: the places that the pass over a module computes.
-/

namespace HybridQuery

/-! ## Places -/

/-- Where a node is: in the part at hand, or in the body of a declared function. It is found by its index
among the topmost nodes, and among the children on each level below. -/
inductive Place where
  | own (index : Nat) (below : List Nat)
  | called (key : FunctionKey) (index : Nat) (below : List Nat)
  deriving DecidableEq

namespace Place

/-- The place in a part that stands after `n` other nodes. -/
def shift (n : Nat) : Place → Place
  | own index below => own (index + n) below
  | called key index below => called key index below

/-- The place in a part that is below a node. -/
def lower : Place → Place
  | own index below => own 0 (index :: below)
  | called key index below => called key index below

/-- The place in a part that is the body of a declared function. -/
def inBody (key : FunctionKey) : Place → Place
  | own index below => called key index below
  | called key index below => called key index below

end Place

/-- The node that is found by indices, from the topmost nodes down. -/
def nodeBelow? (topmost : List NodeRef) (index : Nat) : List Nat → Option NodeRef
  | [] => topmost[index]?
  | next :: below => topmost[index]?.bind fun n => nodeBelow? n.children next below

/-- The node at a place. -/
def nodeAt? {τ : Type} [HasNodes τ] (t : τ) (D : Declarations) : Place → Option NodeRef
  | .own index below => nodeBelow? (nodes t) index below
  | .called key index below => (D.find? (·.key == key)).bind fun d => nodeBelow? (nodes d.body) index below

/-! ## Passes -/

/-- The places whose modes a pass computes, from given declarations. -/
abbrev Computations := Declarations → List Place

/-- The places that are computed while the mode of a function is found. -/
abbrev CalleeComputations := FunctionKey → Declarations → List Place

namespace Computations

variable {τ υ β : Type}

/-- A pass that computes nothing. -/
def none : Computations := fun _ => []

/-- The computations of the pass over a first part, and of a second one if that pass succeeds. -/
def andThen [HasNodes τ] (t : τ) (x : Pass (Analysed τ β)) (c : Computations) (next : β → Computations) :
    Computations := fun D =>
  c D ++ match x.run D with
    | ((_, .ok b), E) => (next b E).map (Place.shift (nodes t).length)
    | ((_, .error _), _) => []

/-- The computation of a node, and those of the pass over its parts. -/
def node (c : Computations) : Computations := fun D => .own 0 [] :: (c D).map Place.lower

end Computations

/-- The computations to find the mode of a call: those of the function that is called, if it is a declared
one. -/
def callComputations (shown : CalleeComputations) (name : String) (given : List (Option Expression)) :
    Computations := fun D =>
  if (Builtin.find? name given.length).isSome || !D.any (·.key == (name, given.length))
      || given.any Option.isNone then []
  else shown (name, given.length) D

/-- The pass over a clause, whose mode is that of the stream after it. -/
def Clause.analyse (callee : CalleeMode) (isFirst : Bool) (scope : ClauseScope) :
    Clause → Pass (Analysed Clause ClauseScope)
  | .mk kind position slot => do
    match ← kind.analyse callee isFirst scope position with
    | (kind, .ok scope) => return (.mk kind position (slot.set scope.stream), .ok scope)
    | (kind, .error e) => return (.mk kind position slot, .error e)

theorem Clause.analyse_run (callee : CalleeMode) (isFirst : Bool) (scope : ClauseScope) (kind : ClauseKind)
    (position : SourcePosition) (slot : ModeSlot) (D : Declarations) :
    ((Clause.mk kind position slot).analyse callee isFirst scope).run D =
      match (kind.analyse callee isFirst scope position).run D with
      | ((kind, .ok scope), E) => ((.mk kind position (slot.set scope.stream), .ok scope), E)
      | ((kind, .error e), E) => ((.mk kind position slot, .error e), E) := by
  rw [Clause.analyse, StateT.run_bind]
  rcases (kind.analyse callee isFirst scope position).run D with ⟨⟨kind, _ | scope⟩, E⟩ <;> rfl

/-- The pass over clauses goes from one to the next. -/
theorem analyseClauses_cons (callee : CalleeMode) (isFirst : Bool) (scope : ClauseScope) (c : Clause)
    (rest : List Clause) :
    analyseClauses callee isFirst scope (c :: rest) =
      Pass.wrap (Pass.andThen (c.analyse callee isFirst scope) rest fun scope =>
        analyseClauses callee false scope rest) (fun (c, rest) => c :: rest) id := by
  obtain ⟨kind, position, slot⟩ := c
  refine StateT.ext fun D => ?_
  rw [analyseClauses_cons_run, Pass.run_wrap, Pass.run_andThen, Clause.analyse_run]
  rcases (kind.analyse callee isFirst scope position).run D with ⟨⟨kind, e | scope⟩, E⟩
  · rfl
  · dsimp only
    rcases (analyseClauses callee false scope rest).run E with ⟨⟨rest, _ | _⟩, F⟩ <;> rfl

mutual
/-- The computations of the pass over an expression. -/
def Expression.computations (callee : CalleeMode) (shown : CalleeComputations) (scopes : List Scope) :
    Expression → Computations
  | .mk kind _ slot =>
    if slot.isComputed then .none else .node (kind.computations callee shown scopes)

/-- The computations of the pass over the parts of an expression. -/
def ExpressionKind.computations (callee : CalleeMode) (shown : CalleeComputations) (scopes : List Scope) :
    ExpressionKind → Computations
  | .literal _ | .contextItem | .varRef _ | .functionRef _ _ | .array none => .none
  | .sequence members => memberComputations callee shown scopes members
  | .arithmetic _ left right =>
    .andThen left (left.analyse callee scopes) (left.computations callee shown scopes)
      fun _ => right.computations callee shown scopes
  | .comparison _ left right =>
    .andThen left (left.analyse callee scopes) (left.computations callee shown scopes)
      fun _ => right.computations callee shown scopes
  | .logical _ left right =>
    .andThen left (left.analyse callee scopes) (left.computations callee shown scopes)
      fun _ => right.computations callee shown scopes
  | .range first last =>
    .andThen first (first.analyse callee scopes) (first.computations callee shown scopes)
      fun _ => last.computations callee shown scopes
  | .not operand => operand.computations callee shown scopes
  | .conditional condition yes no =>
    .andThen condition (condition.analyse callee scopes) (condition.computations callee shown scopes)
      fun _ => .andThen yes (yes.analyse callee scopes) (yes.computations callee shown scopes)
        fun _ => no.computations callee shown scopes
  | .object pairs => pairComputations callee shown scopes pairs
  | .array (some members) => members.computations callee shown scopes
  | .objectLookup object key =>
    .andThen object (object.analyse callee scopes) (object.computations callee shown scopes)
      fun _ => key.computations callee shown scopes
  | .arrayLookup array index =>
    .andThen array (array.analyse callee scopes) (array.computations callee shown scopes)
      fun _ => index.computations callee shown scopes
  | .arrayUnbox array => array.computations callee shown scopes
  | .filter sequence predicate =>
    .andThen sequence (sequence.analyse callee scopes) (sequence.computations callee shown scopes)
      fun _ => predicate.computations callee shown ([(contextItemName, .host)] :: scopes)
  | .functionCall name given => fun D =>
    argumentComputations callee shown scopes given D ++
      match (analyseArguments callee scopes given).run D with
      | ((_, .error _), _) => []
      | ((given, .ok _), E) => callComputations shown name given E
  | .dynamicCall function given =>
    .andThen function (function.analyse callee scopes) (function.computations callee shown scopes)
      fun _ => argumentComputations callee shown scopes given
  | .inlineFunction parameters _ body =>
    body.computations callee shown (parameterScope parameters :: scopes)
  | .flwor clauses result =>
    .andThen clauses (analyseClauses callee true ⟨[] :: scopes, .host, []⟩ clauses)
      (clauseComputations callee shown true ⟨[] :: scopes, .host, []⟩ clauses)
      fun scope => result.computations callee shown scope.scopes

/-- The computations of the pass over a list of expressions. -/
def memberComputations (callee : CalleeMode) (shown : CalleeComputations) (scopes : List Scope) :
    List Expression → Computations
  | [] => .none
  | e :: rest =>
    .andThen e (e.analyse callee scopes) (e.computations callee shown scopes)
      fun _ => memberComputations callee shown scopes rest

/-- The computations of the pass over pairs. -/
def pairComputations (callee : CalleeMode) (shown : CalleeComputations) (scopes : List Scope) :
    List (Expression × Expression) → Computations
  | [] => .none
  | (key, value) :: rest =>
    .andThen key (key.analyse callee scopes) (key.computations callee shown scopes)
      fun _ => .andThen value (value.analyse callee scopes) (value.computations callee shown scopes)
        fun _ => pairComputations callee shown scopes rest

/-- The computations of the pass over arguments. -/
def argumentComputations (callee : CalleeMode) (shown : CalleeComputations) (scopes : List Scope) :
    List (Option Expression) → Computations
  | [] => .none
  | none :: rest => argumentComputations callee shown scopes rest
  | some e :: rest =>
    .andThen e (e.analyse callee scopes) (e.computations callee shown scopes)
      fun _ => argumentComputations callee shown scopes rest

/-- The computations of the pass over the clauses of a pipeline. -/
def clauseComputations (callee : CalleeMode) (shown : CalleeComputations) (isFirst : Bool)
    (scope : ClauseScope) : List Clause → Computations
  | [] => .none
  | .mk kind position slot :: rest =>
    .andThen (Clause.mk kind position slot) ((Clause.mk kind position slot).analyse callee isFirst scope)
      (.node (kind.computations callee shown scope))
      fun scope => clauseComputations callee shown false scope rest

/-- The computations of the pass over the parts of a clause. -/
def ClauseKind.computations (callee : CalleeMode) (shown : CalleeComputations) (scope : ClauseScope) :
    ClauseKind → Computations
  | .forEach _ _ _ source => source.computations callee shown scope.scopes
  | .letBe _ value => value.computations callee shown scope.scopes
  | .keepWhere condition => condition.computations callee shown scope.scopes
  | .orderBy keys => orderComputations callee shown scope.scopes keys
  | .groupBy keys => groupComputations callee shown scope.scopes keys
  | .count _ => .none

/-- The computations of the pass over keys to order by. -/
def orderComputations (callee : CalleeMode) (shown : CalleeComputations) (scopes : List Scope) :
    List (OrderKey Expression) → Computations
  | [] => .none
  | ⟨e, _, _⟩ :: rest =>
    .andThen e (e.analyse callee scopes) (e.computations callee shown scopes)
      fun _ => orderComputations callee shown scopes rest

/-- The computations of the pass over keys to group by; it stops at a variable that is not in scope. -/
def groupComputations (callee : CalleeMode) (shown : CalleeComputations) (scopes : List Scope) :
    List (GroupKey Expression) → Computations
  | [] => .none
  | ⟨name, none⟩ :: rest =>
    match lookupMode scopes name with
    | none => .none
    | some _ => groupComputations callee shown scopes rest
  | ⟨_, some e⟩ :: rest =>
    .andThen e (e.analyse callee scopes) (e.computations callee shown scopes)
      fun _ => groupComputations callee shown scopes rest
end

/-! ## Declared functions -/

/-- The computations to find the mode of a declared function: those of the pass over its body. -/
def declaredComputations : Nat → List FunctionKey → CalleeComputations
  | 0, _, _, _ => []
  | level + 1, inProgress, key, D =>
    if inProgress.contains key then []
    else match D.find? (·.key == key) with
      | none => []
      | some d =>
        (d.body.computations (declaredMode level (key :: inProgress))
          (declaredComputations level (key :: inProgress)) [parameterScope d.parameters] D).map
          (Place.inBody key)

/-- The computations of the passes over the bodies of declared functions. -/
def analyseDeclaredComputations (callee : CalleeMode) (shown : CalleeComputations) :
    List FunctionKey → Computations
  | [] => .none
  | key :: rest => fun D =>
    shown key D ++
      match (callee key).run D with
      | (.ok _, E) => analyseDeclaredComputations callee shown rest E
      | (.error _, _) => []

namespace QueryModule

/-- The computations of the pass over a module; places of its own are in its body. -/
def computations (m : QueryModule) : List Place :=
  match checkDeclarations [] m.functions with
  | .error _ => []
  | .ok () =>
    let callee := declaredMode (m.functions.length + 1) []
    let shown := declaredComputations (m.functions.length + 1) []
    analyseDeclaredComputations callee shown (m.functions.map (·.key)) m.functions ++
      match (analyseDeclared callee (m.functions.map (·.key))).run m.functions with
      | (.ok (), functions) => m.body.computations callee shown [] functions
      | (.error _, _) => []

/-- The node at a place of a module. -/
def node? (m : QueryModule) (p : Place) : Option NodeRef := nodeAt? m.body m.functions p

end QueryModule
end HybridQuery
