import HybridQuery.Evaluation.BuiltinCall
import HybridQuery.Evaluation.Grouping
import HybridQuery.Evaluation.Invoking
import HybridQuery.Evaluation.Navigation
import HybridQuery.Evaluation.Ordering

/-!
# Driving nodes

The rules of every kind of node, over an evaluator for everything below it.

* `PlanEvaluator.compute`: the items of a computation.
* `Evaluator.startNode`, `Evaluator.pullNode`, `Evaluator.collectNode`, `Evaluator.frameNode`: the
  rules of expressions.
* `Evaluator.startClause`, `Evaluator.pullClause`, `Evaluator.collectClause`: those of clauses.
-/

namespace HybridQuery

namespace Fault

/-- The bound of a range is no integer. -/
def boundNotInteger (item : Item) : Fault :=
  .typeMismatch s!"Range bound must be an integer, found {item.typeName}"

/-- A variable that should be columnar is not. -/
def notColumnarValue (name : String) (mode : Mode) : Fault :=
  .flow s!"Variable ${name} is bound to a {mode.text} value, not a columnar one"

end Fault

namespace PlanEvaluator

variable (ev : PlanEvaluator)

/-! ## Expressions on the host -/

/-- The items of a computation. -/
def compute (context : Context) : Computation → Engine Sequence
  | .literal value => pure [.ofJson value]
  | .contextItem => Run.ofResult (contextItem context)
  | .arithmetic op left right => ev.binary left right context (Item.arithmetic op)
  | .comparison op left right => ev.binary left right context fun l r => do
    return .boolean (op.holds (← l.compare r))
  | .logical op left right => do return [.boolean (← ev.connective op left right context)]
  | .not operand => do
    let items ← ev.evaluate operand context
    return [.boolean (!(← Run.ofResult items.truth))]
  | .object pairs => do return [.object (← ev.objectPairs context [] pairs)]
  | .array none => pure [.array []]
  | .array (some members) => do return [.array (← ev.evaluate members context)]
  | .builtin b arguments => ev.builtinItems b arguments context
  | .inlineFunction parameters signature body =>
    pure [.function (inlineFunction parameters signature body context)]
  | .functionRef name arity => do return [.function (← namedFunction name arity)]

/-- The bound of a range. -/
def rangeBound (p : Plan) (context : Context) : Engine (Option Int64) := do
  match ← ev.optionalItem p context "Range bound" with
  | none => return none
  | some (.integer n) => return some n
  | some i => Run.fail (.boundNotInteger i)

end PlanEvaluator

namespace Evaluator

variable (ev : Evaluator)

/-- Prepares an expression to be pulled. -/
def startNode (context : Context) : Step Node Unit := do
  match ← Step.read with
  | .computed computation _ =>
    let items ← Step.lift (ev.plans.compute context computation)
    Step.write (.computed computation items)
  | .varRef name position _ =>
    let value ← Run.ofResult (context.binding name)
    let items ← Step.lift (Engine.items value position)
    Step.write (.varRef name position items)
  | .sequence before after _ =>
    match before ++ after with
    | [] => Step.write (.sequence [] [] (some context))
    | first :: rest =>
      let _ ← Step.part (fun first => .sequence [] (first :: rest) (some context)) first
        (ev.items.openIn context)
  | .range first last _ greatest =>
    let low ← Step.lift (ev.plans.rangeBound first context)
    let high ← Step.lift (ev.plans.rangeBound last context)
    match low, high with
    | some low, some high => Step.write (.range first last (some low) high)
    | _, _ => Step.write (.range first last none greatest)
  | .conditional condition _ yes no =>
    let chosen ← Step.lift (ev.plans.truth condition context)
    if chosen then
      let _ ← Step.part (fun yes => .conditional condition (some true) yes no) yes
        (ev.items.openIn context)
    else
      let _ ← Step.part (fun no => .conditional condition (some false) yes no) no
        (ev.items.openIn context)
  | .navigate step walk input =>
    let (walk, input) ← Step.part (fun input => .navigate step walk input) input
      (ev.startWalk step context)
    Step.write (.navigate step (some walk) input)
  | .staticCall name arguments _ =>
    let call ← Step.lift (ev.plans.namedCall name arguments context)
    let call ← Step.lift (ev.startCall call)
    Step.write (.staticCall name arguments call)
  | .dynamicCall function arguments position _ =>
    let call ← Step.lift (ev.plans.computedCall function arguments position context)
    let call ← Step.lift (ev.startCall call)
    Step.write (.dynamicCall function arguments position call)
  | .flwor result old feed current =>
    let (_, feed) ← Step.part (fun feed => .flwor result old feed current) feed
      (ev.openFeed context)
    Step.write (.flwor result (some context) feed none)

/-- The next item of the current member, and the member, which is closed once it is through. -/
def memberNext (context : Context) (before : List ItemCursor) (current : ItemCursor)
    (rest : List ItemCursor) : Step Node (Option Item × ItemCursor) := do
  let whole := fun current => Node.sequence before (current :: rest) (some context)
  let (next, current) ← Step.part whole current ev.items.next?
  match next with
  | some i => return (some i, current)
  | none =>
    let (_, current) ← Step.part whole current Cursor.release
    return (none, current)

/-- Opens the member after those that are through. -/
def openMember (context : Context) (before : List ItemCursor) (member : ItemCursor)
    (rest : List ItemCursor) : Step Node ItemCursor := do
  let (_, member) ← Step.part
    (fun member => Node.sequence before (member :: rest) (some context)) member
    (ev.items.openIn context)
  return member

/-- The next item of a sequence of members: of the current one, or of the first one after it that has
any. Members are opened one after the other. -/
def sequenceNext (context : Context) :
    List ItemCursor → List ItemCursor → ItemCursor → Step Node (Option Item)
  | [], before, current => do
    match ← ev.memberNext context before current [] with
    | (some i, _) => return some i
    | (none, current) =>
      Step.write (.sequence (before ++ [current]) [] (some context))
      return none
  | member :: rest, before, current => do
    match ← ev.memberNext context before current (member :: rest) with
    | (some i, _) => return some i
    | (none, current) =>
      let before := before ++ [current]
      let member ← ev.openMember context before member rest
      sequenceNext context rest before member

/-- The next item of an expression. -/
def pullNode : Step Node (Option Item) := do
  match ← Step.read with
  | .computed _ [] => return none
  | .computed computation (i :: rest) =>
    Step.write (.computed computation rest)
    return some i
  | .varRef _ _ [] => return none
  | .varRef name position (i :: rest) =>
    Step.write (.varRef name position rest)
    return some i
  | .sequence before (current :: rest) (some context) => ev.sequenceNext context rest before current
  | .sequence .. => return none
  | .range first last (some n) greatest =>
    if n ≤ greatest then
      let next := if n = Int64.maxValue then none else some (n + 1)
      Step.write (.range first last next greatest)
      return some (.integer n)
    else
      Step.write (.range first last none greatest)
      return none
  | .range .. => return none
  | .conditional condition (some true) yes no =>
    let (next, _) ← Step.part (fun yes => .conditional condition (some true) yes no) yes
      ev.items.next?
    return next
  | .conditional condition (some false) yes no =>
    let (next, _) ← Step.part (fun no => .conditional condition (some false) yes no) no
      ev.items.next?
    return next
  | .conditional .. => return none
  | .navigate step (some walk) input =>
    let (next, _) ← Step.part (fun (walk, input) => .navigate step (some walk) input) (walk, input)
      (ev.walkOn step ev.limit)
    return next
  | .navigate .. => return none
  | .staticCall name arguments call =>
    let (next, _) ← Step.part (.staticCall name arguments) call ev.callNext
    return next
  | .dynamicCall function arguments position call =>
    let (next, _) ← Step.part (.dynamicCall function arguments position) call ev.callNext
    return next
  | .flwor result (some context) feed current =>
    let (next, _) ← Step.part
      (fun (feed, current) => .flwor result (some context) feed current)
      (feed, current) (ev.projectNext result context ev.limit)
    return next
  | .flwor .. => return none

/-! ## Distributed and columnar forms of expressions -/

/-- The distributed forms of members, one after the other. -/
def memberRows (context : Context) (done : Collection Item) :
    List ItemCursor → List ItemCursor → Step Node (Collection Item)
  | _, [] => return done
  | before, member :: rest => do
    let (rows, member) ← Step.part (fun member => .sequence [] (before ++ member :: rest) none)
      member (ev.items.collection context)
    memberRows context (done.union rows) (before ++ [member]) rest

/-- The distributed form of an expression. -/
def collectNode (mode : Mode) (context : Context) : Step Node (Collection Item) := do
  match ← Step.read with
  | .computed (.builtin b arguments) _ => Step.lift (ev.plans.sourceRows b arguments context)
  | .varRef name _ _ =>
    let value ← Run.ofResult (context.binding name)
    Step.lift (Engine.rows value)
  | .sequence before after _ => ev.memberRows context .empty [] (before ++ after)
  | .navigate step walk input =>
    let (rows, _) ← Step.part (.navigate step walk) input (ev.navigateRows step mode context)
    return rows
  | .staticCall name arguments _ => Step.lift (ev.plans.callRows name arguments mode context)
  | .flwor result old feed current =>
    let (rows, _) ← Step.part (fun feed => .flwor result old feed current) feed
      (ev.returnRows result context)
    return rows
  | node => Run.fail (.noDistributedForm node.name)

/-- The columnar form of an expression. -/
def frameNode (node : Node) (context : Context) : Engine (Frame Item) :=
  match node with
  | .computed (.builtin b arguments) _ => ev.plans.sourceFrame b arguments context
  | .varRef name _ _ => do
    match ← Run.ofResult (context.binding name) with
    | .columns frame => return frame
    | value => Run.fail (.notColumnarValue name value.mode)
  | .navigate step _ input => ev.plans.stepFrame step (ev.frameOf input context) context
  | .staticCall name arguments _ => ev.plans.callFrame name arguments context
  | node => Run.fail (.noColumnarForm node.name)

/-! ## Clauses -/

/-- Prepares a clause to be pulled. -/
def startClause (context : Context) : Step ClauseNode Unit := do
  match ← Step.read with
  | .forEach name place allowingEmpty binding source feed =>
    let (_, feed) ← Step.part (.forEach name place allowingEmpty binding source) feed
      (ev.openFeed context)
    Step.write (.forEach name place allowingEmpty (some ⟨context, none, 0⟩) source feed)
  | .letBe name value old feed =>
    let (_, feed) ← Step.part (.letBe name value old) feed (ev.openFeed context)
    Step.write (.letBe name value (some context) feed)
  | .keepWhere condition old feed =>
    let (_, feed) ← Step.part (.keepWhere condition old) feed (ev.openFeed context)
    Step.write (.keepWhere condition (some context) feed)
  | .orderBy keys old feed =>
    let (sorted, feed) ← Step.part (.orderBy keys old) feed (ev.orderedTuples keys context)
    Step.write (.orderBy keys sorted feed)
  | .groupBy keys position old feed =>
    let (groups, feed) ← Step.part (.groupBy keys position old) feed
      (ev.groupedTuples keys position context)
    Step.write (.groupBy keys position groups feed)
  | .count name _ feed =>
    let _ ← Step.part (.count name 0) feed (ev.openFeed context)

/-- The next tuple of a clause. -/
def pullClause : Step ClauseNode (Option Tuple) := do
  match ← Step.read with
  | .forEach name place allowingEmpty (some binding) source feed =>
    let (next, _) ← Step.part
      (fun (binding, source, feed) =>
        .forEach name place allowingEmpty (some binding) source feed)
      (binding, source, feed) (ev.bindNext ⟨name, place⟩ allowingEmpty ev.limit)
    return next
  | .forEach .. => return none
  | .letBe name value (some context) feed =>
    let (next, _) ← Step.part (.letBe name value (some context)) feed
      (ev.letNext name value context)
    return next
  | .letBe .. => return none
  | .keepWhere condition (some context) feed =>
    let (next, _) ← Step.part (.keepWhere condition (some context)) feed
      (ev.keepNext condition context ev.limit)
    return next
  | .keepWhere .. => return none
  | .orderBy _ [] _ => return none
  | .orderBy keys (tuple :: rest) feed =>
    Step.write (.orderBy keys rest feed)
    return some tuple
  | .groupBy _ _ [] _ => return none
  | .groupBy keys position (tuple :: rest) feed =>
    Step.write (.groupBy keys position rest feed)
    return some tuple
  | .count name counter feed =>
    let (next, _) ← Step.part (fun (counter, feed) => .count name counter feed)
      (counter, feed) (ev.countNext name)
    return next

/-- The distributed form of a clause. -/
def collectClause (context : Context) : Step ClauseNode (Collection Tuple) := do
  match ← Step.read with
  | .forEach name place allowingEmpty binding source feed =>
    let (rows, _) ← Step.part (.forEach name place allowingEmpty binding source) feed
      (ev.forRows ⟨name, place⟩ allowingEmpty source.closed context)
    return rows
  | .letBe name value old feed =>
    let (rows, _) ← Step.part (.letBe name value old) feed (ev.letRows name value context)
    return rows
  | .keepWhere condition old feed =>
    let (rows, _) ← Step.part (.keepWhere condition old) feed (ev.whereRows condition context)
    return rows
  | .orderBy keys sorted feed =>
    let (rows, _) ← Step.part (.orderBy keys sorted) feed (ev.orderRows keys context)
    return rows
  | .groupBy keys position groups feed =>
    let (rows, _) ← Step.part (.groupBy keys position groups) feed
      (ev.groupRows keys position context)
    return rows
  | .count name counter feed =>
    let (rows, _) ← Step.part (.count name counter) feed (ev.countRows name context)
    return rows

end Evaluator

/-! ## Evaluators of bounded depth -/

namespace Rules

/-- Rules that give up at once. -/
def giveUp {ν α : Type} : Rules ν α :=
  { start := fun _ => Run.exhausted
    pull := Run.exhausted
    collect := fun _ _ => Run.exhausted }

end Rules

namespace Evaluator

/-- An evaluator that gives up at once. -/
def giveUp : Evaluator :=
  { items := .giveUp
    tuples := .giveUp
    frame := fun _ _ => Run.exhausted
    limit := 0 }

/-- The evaluator that drives nodes by their rules, over evaluators of everything below them. -/
def above (below : Unit → Evaluator) (limit : Nat) : Evaluator :=
  { items :=
      { start := fun context env s => (below ()).startNode context env s
        pull := fun env s => (below ()).pullNode env s
        collect := fun mode context env s => (below ()).collectNode mode context env s }
    tuples :=
      { start := fun context env s => (below ()).startClause context env s
        pull := fun env s => (below ()).pullClause env s
        collect := fun _ context env s => (below ()).collectClause context env s }
    frame := fun node context env s => (below ()).frameNode node context env s
    limit := limit }

/-- The evaluator that goes at most `depth` nodes deep and takes at most as many rounds in a loop. -/
def ofDepth : Nat → Evaluator
  | 0 => giveUp
  | depth + 1 => above (fun _ => ofDepth depth) depth

/-- More nodes deep than any evaluation that ends in practice. -/
def allowance : Nat := Power.two 40

/-- The evaluator of queries. -/
def full : Evaluator := ofDepth allowance

end Evaluator
end HybridQuery
