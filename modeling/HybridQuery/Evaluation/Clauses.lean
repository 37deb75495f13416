import HybridQuery.Evaluation.Evaluator

/-!
# Clauses that work tuple by tuple

`for`, `let`, `where` and `count`, and the `return` of a pipeline. On the host they pull one tuple
after the other from the clauses before; distributed they transform the collection of tuples.

* `Evaluator.nextTuple`: the next tuple of the clauses before.
* `Evaluator.bindNext`, `Evaluator.keepNext`, `Evaluator.projectNext`: the loops on the host.
* `PlanEvaluator.expandedRows` and its like: what a clause makes of distributed tuples.
* `Evaluator.forRows` and its like: the distributed forms.
-/

namespace HybridQuery

/-! ## Clauses on distributed tuples -/

/-- The variables of a `for` clause. -/
structure ForVariables where
  item : String
  place : Option String

/-- Binds the variables of a `for` clause in a tuple. -/
def ForVariables.bind (v : ForVariables) (tuple : Tuple) (value : Value Item) (index : Nat) : Tuple :=
  let tuple := tuple.bind v.item value
  match v.place with
  | some place => tuple.bind place (.single (.integer (Int64.ofNat index)))
  | none => tuple

/-- The tuples for a tuple and the items of its source. -/
def ForVariables.expand (v : ForVariables) (allowingEmpty : Bool) (tuple : Tuple) (items : Sequence) :
    List Tuple :=
  if items.isEmpty && allowingEmpty then [v.bind tuple .empty 0]
  else (items.zipIdx 1).map fun (i, index) => v.bind tuple (.single i) index

/-- The tuples of a first `for` clause over a distributed source. -/
def ForVariables.sourceTuples (v : ForVariables) (allowingEmpty : Bool) (rows : Collection Item) :
    Collection Tuple :=
  if rows.isEmpty && allowingEmpty then .parallelize [v.bind .empty .empty 0] 1
  else rows.zipWithIndex.map fun (i, index) => v.bind .empty (.single i) (index + 1)

/-- The tuple of a `count` clause at a place counted from one. -/
def countTuple (name : String) (tuple : Tuple) (place : Nat) : Tuple :=
  tuple.bind name (.single (.integer (Int64.ofNat place)))

/-- What a `count` clause makes of distributed tuples. -/
def countedRows (name : String) (tuples : Collection Tuple) : Collection Tuple :=
  tuples.zipWithIndex.map fun (tuple, index) => countTuple name tuple (index + 1)

namespace PlanEvaluator

variable (ev : PlanEvaluator)

/-- What a `for` clause that is not over a distributed source makes of distributed tuples; `items`
evaluates the source. -/
def expandedRows (v : ForVariables) (allowingEmpty : Bool) (items : Context → Engine Sequence)
    (context : Context) (tuples : Collection Tuple) : Engine (Collection Tuple) :=
  tuples.flatMapM fun tuple => do
    return v.expand allowingEmpty tuple (← items (tuple.scope context))

/-- What a `let` clause makes of distributed tuples: it binds on the host. -/
def boundRows (name : String) (value : Plan) (context : Context) (tuples : Collection Tuple) :
    Engine (Collection Tuple) :=
  tuples.mapM fun tuple => do
    return tuple.bind name (.items (← ev.evaluate value (tuple.scope context)))

/-- What a `where` clause makes of distributed tuples. -/
def keptRows (condition : Plan) (context : Context) (tuples : Collection Tuple) :
    Engine (Collection Tuple) :=
  tuples.filterM fun tuple => ev.truth condition (tuple.scope context)

/-- What a `return` makes of distributed tuples. -/
def projectedRows (result : Plan) (context : Context) (tuples : Collection Tuple) :
    Engine (Collection Item) :=
  tuples.flatMapM fun tuple => ev.evaluate result (tuple.scope context)

end PlanEvaluator

namespace Evaluator

variable (ev : Evaluator)

/-! ## The clauses before -/

/-- Opens the clauses before. -/
def openFeed (context : Context) : Step Feed Unit := do
  match ← Step.read with
  | .start _ => Step.write (.start true)
  | .clause tuples =>
    let _ ← Step.part .clause tuples (ev.tuples.openIn context)
    return ()

/-- The next tuple of the clauses before. -/
def nextTuple : Step Feed (Option Tuple) := do
  match ← Step.read with
  | .start pending =>
    Step.write (.start false)
    return if pending then some .empty else none
  | .clause tuples =>
    let (tuple, _) ← Step.part .clause tuples ev.tuples.next?
    return tuple

/-- Closes the clauses before. -/
def closeFeed : Step Feed Unit := do
  let u ← Step.read
  Step.write u.closed
  Step.lift (Engine.count (·.addBodiesClosed u.openBodies))

/-- The tuples of the clauses before in distributed form. -/
def feedRows (context : Context) : Step Feed (Collection Tuple) := do
  match ← Step.read with
  | .start _ => return .parallelize [.empty] 1
  | .clause tuples =>
    let (rows, _) ← Step.part .clause tuples (ev.tuples.collection context)
    return rows

/-- All tuples of the clauses before, each with what a function gives for it. -/
def gatherTuples {α : Type} (f : Tuple → Engine α) : Nat → List α → Step Feed (List α)
  | 0, _ => Run.exhausted
  | limit + 1, gathered => do
    match ← ev.nextTuple with
    | none => return gathered.reverse
    | some tuple =>
      let a ← Step.lift (f tuple)
      gatherTuples f limit (a :: gathered)

/-- Opens the clauses before, gathers all their tuples, and closes them. -/
def gatherAll {α : Type} (f : Tuple → Engine α) (context : Context) : Step Feed (List α) := do
  ev.openFeed context
  let gathered ← ev.gatherTuples f ev.limit []
  closeFeed
  return gathered

/-! ## `for` -/

/-- The state of a `for` clause that is pulled: where it stands, its source and the clauses before. -/
abbrev ForState := Binding × ItemCursor × Feed

/-- Opens the source of a `for` clause for a tuple, anew if it is open. -/
def openSource (context : Context) : Step ItemCursor Unit := do
  if (← Step.read).isOpen then ev.items.reset context else ev.items.openIn context

/-- The next tuple of a `for` clause. -/
def bindNext (v : ForVariables) (allowingEmpty : Bool) : Nat → Step ForState (Option Tuple)
  | 0 => Run.exhausted
  | limit + 1 => do
    let (b, source, feed) ← Step.read
    let pending ←
      match b.current with
      | none => pure none
      | some tuple =>
        let (next, source) ← Step.part (fun source => (b, source, feed)) source ev.items.next?
        match next with
        | some i =>
          Step.write ({ b with index := b.index + 1 }, source, feed)
          pure (some (v.bind tuple (.single i) (b.index + 1)))
        | none =>
          Step.write ({ b with current := none }, source, feed)
          pure (if b.index = 0 ∧ allowingEmpty then some (v.bind tuple .empty 0) else none)
    match pending with
    | some tuple => return some tuple
    | none =>
      let (b, source, feed) ← Step.read
      let (tuple, feed) ← Step.part (fun feed => (b, source, feed)) feed ev.nextTuple
      match tuple with
      | none => return none
      | some tuple =>
        let (_, source) ← Step.part (fun source => (b, source, feed)) source
          (ev.openSource (tuple.scope b.context))
        Step.write ({ b with current := some tuple, index := 0 }, source, feed)
        bindNext v allowingEmpty limit

/-- What the current tuple of a `for` clause still yields. -/
def currentBound (v : ForVariables) (allowingEmpty : Bool) : ForState → Step ForState (Option Tuple)
  | (b, source, feed) =>
    match b.current with
    | none => pure none
    | some tuple => do
      let (next, source) ← Step.part (fun source => (b, source, feed)) source ev.items.next?
      match next with
      | some i =>
        Step.write ({ b with index := b.index + 1 }, source, feed)
        pure (some (v.bind tuple (.single i) (b.index + 1)))
      | none =>
        Step.write ({ b with current := none }, source, feed)
        pure (if b.index = 0 ∧ allowingEmpty then some (v.bind tuple .empty 0) else none)

/-- A `for` clause goes on with the next tuple of the clauses before. -/
def bindAfresh (v : ForVariables) (allowingEmpty : Bool) (limit : Nat) : Step ForState (Option Tuple) := do
  let (b, source, feed) ← Step.read
  let (tuple, feed) ← Step.part (fun feed => (b, source, feed)) feed ev.nextTuple
  match tuple with
  | none => return none
  | some tuple =>
    let (_, source) ← Step.part (fun source => (b, source, feed)) source
      (ev.openSource (tuple.scope b.context))
    Step.write ({ b with current := some tuple, index := 0 }, source, feed)
    ev.bindNext v allowingEmpty limit

theorem bindNext_succ (v : ForVariables) (allowingEmpty : Bool) (limit : Nat) :
    ev.bindNext v allowingEmpty (limit + 1) = (do
      match ← ev.currentBound v allowingEmpty (← Step.read) with
      | some tuple => return some tuple
      | none => ev.bindAfresh v allowingEmpty limit) := by
  refine bind_congr fun s => ?_
  obtain ⟨⟨context, current, index⟩, source, feed⟩ := s
  cases current with
  | none => rfl
  | some tuple =>
    dsimp only [currentBound]
    rw [bind_assoc]
    refine bind_congr fun found => ?_
    obtain ⟨_ | i, source⟩ := found <;> rfl

/-- The distributed form of a `for` clause. -/
def forRows (v : ForVariables) (allowingEmpty : Bool) (source : ItemCursor) (context : Context) :
    Step Feed (Collection Tuple) := do
  if (← Step.read).isStart && source.mode.isParallel then
    let rows ← Step.lift (ev.rowsOf source context)
    return v.sourceTuples allowingEmpty rows
  else
    let tuples ← ev.feedRows context
    Step.lift (PlanEvaluator.expandedRows v allowingEmpty (ev.itemsOf source) context tuples)

/-! ## `let`, `where` and `count` -/

/-- The next tuple of a `let` clause. -/
def letNext (name : String) (value : Plan) (context : Context) : Step Feed (Option Tuple) := do
  match ← ev.nextTuple with
  | none => return none
  | some tuple =>
    let v ← Step.lift (ev.plans.value value (tuple.scope context))
    return some (tuple.bind name v)

/-- The distributed form of a `let` clause, which binds on the host. -/
def letRows (name : String) (value : Plan) (context : Context) : Step Feed (Collection Tuple) := do
  let tuples ← ev.feedRows context
  Step.lift (ev.plans.boundRows name value context tuples)

/-- The next tuple of a `where` clause. -/
def keepNext (condition : Plan) (context : Context) : Nat → Step Feed (Option Tuple)
  | 0 => Run.exhausted
  | limit + 1 => do
    match ← ev.nextTuple with
    | none => return none
    | some tuple =>
      if ← Step.lift (ev.plans.truth condition (tuple.scope context)) then return some tuple
      else keepNext condition context limit

/-- The distributed form of a `where` clause. -/
def whereRows (condition : Plan) (context : Context) : Step Feed (Collection Tuple) := do
  let tuples ← ev.feedRows context
  Step.lift (ev.plans.keptRows condition context tuples)

/-- The next tuple of a `count` clause. -/
def countNext (name : String) : Step (Nat × Feed) (Option Tuple) := do
  let (counter, feed) ← Step.read
  let (tuple, feed) ← Step.part (fun feed => (counter, feed)) feed ev.nextTuple
  match tuple with
  | none => return none
  | some tuple =>
    Step.write (counter + 1, feed)
    return some (countTuple name tuple (counter + 1))

/-- The distributed form of a `count` clause. -/
def countRows (name : String) (context : Context) : Step Feed (Collection Tuple) := do
  let tuples ← ev.feedRows context
  return countedRows name tuples

/-! ## `return` -/

/-- The state of a `return` that is pulled: the clauses before, and the cursor of the last tuple. -/
abbrev ReturnState := Feed × Option ItemCursor

/-- Opens a fresh cursor of the result for a tuple. -/
def openResult (result : Plan) (context : Context) : Engine ItemCursor :=
  Step.eval result.cursor do
    ev.items.openIn context
    Step.read

/-- The next item of the cursor of the last tuple; the cursor is closed once it is through. -/
def currentNext : Step ReturnState (Option Item) := do
  let (feed, current) ← Step.read
  match current with
  | none => return none
  | some c =>
    let (next, c) ← Step.part (fun c => (feed, some c)) c ev.items.next?
    match next with
    | some i => return some i
    | none =>
      let _ ← Step.part (fun c => (feed, some c)) c Cursor.release
      Step.write (feed, none)
      return none

/-- The next item of a pipeline. -/
def projectNext (result : Plan) (context : Context) : Nat → Step ReturnState (Option Item)
  | 0 => Run.exhausted
  | limit + 1 => do
    match ← ev.currentNext with
    | some i => return some i
    | none =>
      let (feed, current) ← Step.read
      let (tuple, feed) ← Step.part (fun feed => (feed, current)) feed ev.nextTuple
      match tuple with
      | none => return none
      | some tuple =>
        let c ← Step.lift (ev.openResult result (tuple.scope context))
        Step.write (feed, some c)
        projectNext result context limit

/-- The distributed form of a pipeline. -/
def returnRows (result : Plan) (context : Context) : Step Feed (Collection Item) := do
  let tuples ← ev.feedRows context
  Step.lift (ev.plans.projectedRows result context tuples)

end Evaluator
end HybridQuery
