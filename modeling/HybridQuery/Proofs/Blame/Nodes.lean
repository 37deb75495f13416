import HybridQuery.Proofs.Blame.Computations
import HybridQuery.Proofs.Meaning.Basic

/-!
# Nodes that are blamed on a set of positions

What a node makes of everything below it hands out what stands in the set, and is blamed on no position
outside it. A plan is pulled through its cursor, which blames the position of the plan for failures that
have none: a plan that stands in the set is always blamed on a position of the set.

* `Trace.Hands`: the judgement on traces, with a rule for every way to combine them.
* `NodeMeaning.BlamesOnly`, `Meaning.Blames`: nodes and plans with the property.
  `NodeMeaning.BlamesOnly.driven` locates the failures of nodes; `Meaning.Blames.above` goes up one node.
* `Meaning.blames_ofDepth`: plans are blamed on the set at every depth.
-/

namespace HybridQuery

variable {S : Set SourcePosition} {env : Environment} {α β : Type}

/-! ## Traces -/

/-- A trace that hands out results of `P`, and fails with a failure of `E` if it fails. -/
inductive Trace.Hands (P : α → Prop) (E : Failure → Prop) : Trace α → Prop
  | done : Trace.Hands P E .done
  | failed {f : Failure} (h : E f) : Trace.Hands P E (.failed f)
  | item {a : α} {rest : Trace α} (h : P a) (hrest : Trace.Hands P E rest) : Trace.Hands P E (.item a rest)

theorem Engine.Meets.result {P : α → Prop} {E : Failure → Prop} {x : Engine α} (h : x.Meets env P E) :
    EndsIn P E (x.result env) := by
  have hx := h .empty
  rw [Engine.result]
  generalize x env .empty = d at hx
  cases d with
  | ok a s => exact .ok hx
  | error f s => exact .error hx

theorem EndsIn.given {P : α → Prop} {E : Failure → Prop} {d : Environment → Except Failure α}
    (h : EndsIn P E (d env)) : (Engine.given d).Meets env P E := .given (fun _ => h.of_ok) fun _ => h.of_error

theorem EndsIn.raised {P : α → Prop} {E : Failure → Prop} {d : EngineResult α}
    (h : EndsIn P (fun e => E (.raised e)) d) : EndsIn P E d.raised := h.mapError fun _ h => h

namespace Trace.Hands

variable {P : α → Prop} {Q : β → Prop} {E : Failure → Prop} {t : Trace α}

theorem weaken {D : Failure → Prop} (h : Hands P E t) (hd : ∀ f, E f → D f) : Hands P D t := by
  induction h with
  | done => exact .done
  | failed h => exact .failed (hd _ h)
  | item h _ ih => exact .item h ih

theorem one {a : α} (h : P a) : Hands P E (.one a) := .item h .done

theorem ofList {l : List α} (h : ∀ a ∈ l, P a) : Hands P E (.ofList l) := by
  induction l with
  | nil => exact .done
  | cons a l ih =>
    obtain ⟨ha, hl⟩ := List.forall_mem_cons.mp h
    exact .item ha (ih hl)

theorem attempt {R : β → Prop} {d : Except Failure β} {f : β → Trace α} (h : EndsIn R E d)
    (hf : ∀ b, R b → Hands P E (f b)) : Hands P E (.attempt d f) := by
  cases h with
  | ok h => exact hf _ h
  | error h => exact .failed h

theorem trace {x : Engine (List α)} (h : x.Meets env (fun l => ∀ a ∈ l, P a) E) :
    Hands P E (x.trace env) := .attempt h.result fun _ => .ofList

theorem append (h : Hands P E t) {u : Trace α} (hu : Hands P E u) : Hands P E (t.append u) := by
  induction h with
  | done => exact hu
  | failed h => exact .failed h
  | item h _ ih => exact .item h ih

theorem bindFrom {f : Nat → α → Trace β} (h : Hands P E t) (hf : ∀ place a, P a → Hands Q E (f place a))
    (place : Nat) : Hands Q E (t.bindFrom f place) := by
  induction h generalizing place with
  | done => exact .done
  | failed h => exact .failed h
  | item h _ ih => exact (hf place _ h).append (ih (place + 1))

theorem bind {f : α → Trace β} (h : Hands P E t) (hf : ∀ a, P a → Hands Q E (f a)) :
    Hands Q E (t.bind f) := h.bindFrom (fun _ => hf) 0

theorem ahead (h : Hands P E t) : Hands P E t.ahead := by
  induction h with
  | done => exact .done
  | failed h => exact .failed h
  | item h hrest ih =>
    cases hrest with
    | done => exact .item h .done
    | failed hf => exact .failed hf
    | item => exact .item h ih

theorem result (h : Hands P E t) : EndsIn (fun l => ∀ a ∈ l, P a) E t.result := by
  induction h with
  | done => exact .ok (List.forall_mem_nil _)
  | failed h => exact .error h
  | item h _ ih => exact ih.map fun _ hl => List.forall_mem_cons.mpr ⟨h, hl⟩

theorem first (h : Hands P E t) : EndsIn (fun l => ∀ a ∈ l, P a) E t.first := by
  cases h with
  | done => exact .ok (List.forall_mem_nil _)
  | failed h => exact .error h
  | item h => exact .ok (List.forall_mem_singleton.mpr h)

theorem isEmpty (h : Hands P E t) : EndsIn (fun _ => True) E t.isEmpty := by
  cases h with
  | done => exact .ok trivial
  | failed h => exact .error h
  | item h => exact .ok trivial

theorem only (h : Hands P (Failure.Blames S) t) : Hands P (Failure.BlamesOnly S) t :=
  h.weaken fun _ h => h.only

/-- At a node of the set, the failure of a trace is blamed on it unless it has a position. -/
theorem locate (h : Hands P (Failure.BlamesOnly S) t) {position : SourcePosition} (hp : position ∈ S) :
    Hands P (Failure.Blames S) (t.locate position) := by
  induction h with
  | done => exact .done
  | failed h => exact .failed (h.locate hp)
  | item h _ ih => exact .item h ih

end Trace.Hands

/-! ## Plans and nodes -/

/-- Plans and clauses that stand in the set hand out what stands in it, and are blamed on positions of
it. -/
structure Meaning.Blames (S : Set SourcePosition) (env : Environment) (M : Meaning) : Prop where
  items {p : Plan} (hp : p.StandsIn S) {c : Context} (hc : c.StandsIn S) :
    (M.items env c p).Hands (Item.StandsIn S) (Failure.Blames S)
  rows {p : Plan} (hp : p.StandsIn S) {c : Context} (hc : c.StandsIn S) :
    (M.rows p c).Blames S env (Collection.StandsIn S)
  frame {p : Plan} (hp : p.StandsIn S) {c : Context} (hc : c.StandsIn S) :
    (M.frame p c).Blames S env (Frame.StandsIn S)
  clause (mode : Mode) {position : SourcePosition} (hposition : position ∈ S) {operation : ClauseOperation}
    (hp : PlansStandIn S operation.parts) {before : Pipeline} (hb : before.StandsIn S) {c : Context}
    (hc : c.StandsIn S) :
    (M.clause env c mode position operation before).Hands (Tuple.StandsIn S) (Failure.Blames S)
  clauseRows (mode : Mode) {position : SourcePosition} (hposition : position ∈ S)
    {operation : ClauseOperation} (hp : PlansStandIn S operation.parts) {before : Pipeline}
    (hb : before.StandsIn S) {c : Context} (hc : c.StandsIn S) :
    (M.clauseRows mode position operation before c).Blames S env fun d => TuplesStandIn S d.records

/-- Nodes that hand out what stands in the set, and are blamed on no position outside it. -/
structure NodeMeaning.BlamesOnly (S : Set SourcePosition) (env : Environment) (N : NodeMeaning) : Prop where
  items {position : SourcePosition} (hposition : position ∈ S) {operation : Operation}
    (hclauses : ∀ q ∈ operation.clausePositions, q ∈ S) (hp : PlansStandIn S operation.parts) {c : Context}
    (hc : c.StandsIn S) :
    (N.items env c position operation).Hands (Item.StandsIn S) (Failure.BlamesOnly S)
  rows (mode : Mode) {operation : Operation} (hclauses : ∀ q ∈ operation.clausePositions, q ∈ S)
    (hp : PlansStandIn S operation.parts) {c : Context} (hc : c.StandsIn S) :
    (N.rows mode c operation).BlamesOnly S env (Collection.StandsIn S)
  frame {operation : Operation} (hp : PlansStandIn S operation.parts) {c : Context} (hc : c.StandsIn S) :
    (N.frame c operation).BlamesOnly S env (Frame.StandsIn S)
  clause {position : SourcePosition} (hposition : position ∈ S) {operation : ClauseOperation}
    (hp : PlansStandIn S operation.parts) {before : Pipeline} (hb : before.StandsIn S) {c : Context}
    (hc : c.StandsIn S) :
    (N.clause env c position before operation).Hands (Tuple.StandsIn S) (Failure.BlamesOnly S)
  clauseRows {position : SourcePosition} (hposition : position ∈ S) {operation : ClauseOperation}
    (hp : PlansStandIn S operation.parts) {before : Pipeline} (hb : before.StandsIn S) {c : Context}
    (hc : c.StandsIn S) :
    (N.clauseRows c position before operation).BlamesOnly S env fun d => TuplesStandIn S d.records

/-! ### Cursors -/

section
variable {P : α → Prop} {rows : Engine (Collection α)}
  (hrows : rows.BlamesOnly S env fun d => ∀ a ∈ d.records, P a) {position : SourcePosition}
  (hposition : position ∈ S) (name : String) (mode : Mode)
include hrows hposition

theorem Run.distributed_blames :
    (Run.distributed name mode position rows).Blames S env fun d => ∀ a ∈ d.records, P a := by
  unfold Run.distributed
  split
  · exact (Engine.Meets.fault _).located hposition
  · exact hrows.located hposition

theorem Trace.hands_pulled {host : Trace α} (hhost : host.Hands P (Failure.BlamesOnly S)) :
    (Trace.pulled env name mode position host (Run.distributed name mode position rows)).Hands P
      (Failure.Blames S) := by
  have hpulled : Hands P (Failure.Blames S) (Engine.trace (do
      Engine.materialize (← Run.distributed name mode position rows) position) env) :=
    .trace (.bind_of (Run.distributed_blames hrows hposition name mode) fun d hd =>
      (Engine.materialize_blames d hposition).mono fun _ hl a ha => hd a (hl a ha))
  cases mode with
  | unset => exact .locate (.failed (f := .raised _) (EngineError.blamesOnly_of _)) hposition
  | host => exact hhost.locate hposition
  | rows | columns => exact hpulled

end

theorem Run.columnar_blames {frame : Engine (Frame Item)} (h : frame.BlamesOnly S env (Frame.StandsIn S))
    {position : SourcePosition} (hposition : position ∈ S) (name : String) (mode : Mode) :
    (Run.columnar name mode position frame).Blames S env (Frame.StandsIn S) := by
  unfold Run.columnar
  split
  · exact (Engine.Meets.fault _).located hposition
  · exact h.located hposition

/-- Nodes that are pulled through cursors are blamed, each on its own position if on no other. -/
theorem NodeMeaning.BlamesOnly.driven {N : NodeMeaning} (h : N.BlamesOnly S env) : N.driven.Blames S env where
  items hp _ hc := by
    obtain ⟨hposition, hclauses, hparts⟩ := hp
    exact Trace.hands_pulled (h.rows _ hclauses hparts hc) hposition _ _
      (h.items hposition hclauses hparts hc)
  rows hp _ hc := by
    obtain ⟨hposition, hclauses, hparts⟩ := hp
    exact Run.distributed_blames (h.rows _ hclauses hparts hc) hposition _ _
  frame hp _ hc := by
    obtain ⟨hposition, -, hparts⟩ := hp
    exact Run.columnar_blames (h.frame hparts hc) hposition _ _
  clause mode _ hposition _ hp _ hb _ hc :=
    Trace.hands_pulled (h.clauseRows hposition hp hb hc) hposition _ mode (h.clause hposition hp hb hc)
  clauseRows mode _ hposition _ hp _ hb _ hc :=
    Run.distributed_blames (h.clauseRows hposition hp hb hc) hposition _ mode

/-! ### Nodes over what is below them -/

namespace Meaning.Blames

variable {M : Meaning} (h : M.Blames S env)
include h

theorem plans : M.plans.BlamesOnly S env where
  evaluate hp _ hc := (h.items hp hc).only.result.given
  rows hp _ hc := (h.rows hp hc).only
  planFrame hp _ hc := (h.frame hp hc).only
  firstOnHost hp _ hc := (h.items hp hc).only.ahead.first.given
  emptyOnHost hp _ hc := (h.items hp hc).only.isEmpty.given

variable {c : Context} (hc : c.StandsIn S)

omit h in
theorem hands_checked (type : SequenceType) (catalogue : Catalogue) {t : Trace Item}
    (ht : t.Hands (Item.StandsIn S) (Failure.BlamesOnly S)) (produced : Nat) :
    (checked type catalogue produced t).Hands (Item.StandsIn S) (Failure.BlamesOnly S) := by
  induction ht generalizing produced with
  | done => exact .attempt (Catalogue.checkCount_endsIn type produced).toEngine.raised fun _ _ => .done
  | failed h => exact .failed h
  | @item i rest hi _ ih =>
    have hpromote : EndsIn (Item.StandsIn S) (fun _ => True)
        (type.promoteProduced catalogue (produced + 1) i) := by
      unfold SequenceType.promoteProduced
      split
      · exact .ok hi
      · exact (EndsIn.of_forall_ok fun _ _ => trivial).bind fun _ _ => catalogue.promote_endsIn hi _
    exact .attempt hpromote.toEngine.raised fun _ hj => .item hj (ih (produced + 1))

theorem hands_callItems {call : FunctionItem × Invocation} (hcall : PlanEvaluator.CallStandsIn S call) :
    (M.callItems env call).Hands (Item.StandsIn S) (Failure.BlamesOnly S) := by
  obtain ⟨f, x⟩ := call
  obtain ⟨hf, hx⟩ := hcall
  cases hx with
  | partially hleft => exact .one (Item.standsIn_function.mpr hleft)
  | fully hinner => exact hands_checked _ _ (h.items hf.body hinner).only.ahead 0

omit h in
theorem countUp_standsIn (n : Int64) (count : Nat) : ItemsStandIn S (countUp n count) := by
  induction count generalizing n with
  | zero => exact List.forall_mem_nil _
  | succ count ih => exact List.forall_mem_cons.mpr ⟨.atomic rfl, ih _⟩

omit h in
theorem rangeItems_standsIn (low high : Option Int64) : ItemsStandIn S (rangeItems low high) := by
  rcases low with _ | low <;> rcases high with _ | high
  · exact List.forall_mem_nil _
  · exact List.forall_mem_nil _
  · exact List.forall_mem_nil _
  · exact countUp_standsIn _ _

omit h in
theorem hands_bound (v : ForVariables) (allowingEmpty : Bool) {t : Tuple} (ht : t.StandsIn S)
    {items : Trace Item} (hi : items.Hands (Item.StandsIn S) (Failure.BlamesOnly S)) (index : Nat) :
    (bound v allowingEmpty t index items).Hands (Tuple.StandsIn S) (Failure.BlamesOnly S) := by
  induction hi generalizing index with
  | done =>
    unfold bound
    split
    · exact .one (v.bind_standsIn ht .empty 0)
    · exact .done
  | failed h => exact .failed h
  | item hi _ ih => exact .item (v.bind_standsIn ht (.single hi) _) (ih (index + 1))

omit h in
theorem gathered_endsIn {P : α → Prop} {f : Tuple → Engine α}
    (hf : ∀ t : Tuple, t.StandsIn S → (f t).BlamesOnly S env P) {ts : Trace Tuple}
    (ht : ts.Hands (Tuple.StandsIn S) (Failure.BlamesOnly S)) :
    EndsIn (fun l => ∀ a ∈ l, P a) (Failure.BlamesOnly S) (gathered f env ts) :=
  (ht.bind fun t htuple => .attempt (hf t htuple).result fun _ ha => .one ha).result

include hc

theorem memberItems {members : List Plan} (hm : PlansStandIn S members) :
    (M.memberItems env c members).Hands (Item.StandsIn S) (Failure.BlamesOnly S) := by
  induction members with
  | nil => exact .done
  | cons p rest ih =>
    obtain ⟨hp, hm⟩ := List.forall_mem_cons.mp hm
    exact (h.items hp hc).only.ahead.append (ih hm)

theorem memberRows {members : List Plan} (hm : PlansStandIn S members) {done : Collection Item}
    (hdone : done.StandsIn S) : (M.memberRows c done members).BlamesOnly S env (Collection.StandsIn S) := by
  induction members generalizing done with
  | nil => exact .pure hdone
  | cons p rest ih =>
    obtain ⟨hp, hm⟩ := List.forall_mem_cons.mp hm
    refine .bind_of (h.rows hp hc).only fun d hd => ih hm ?_
    rw [Collection.StandsIn, Collection.records, Collection.union, List.flatten_append]
    exact List.forall_mem_append.mpr ⟨hdone, hd⟩

theorem feed {b : Pipeline} (hb : b.StandsIn S) :
    (M.feed env c b).Hands (Tuple.StandsIn S) (Failure.BlamesOnly S) := by
  cases b with
  | start => exact .one .empty
  | clause mode position operation before =>
    obtain ⟨hposition, hp, hb⟩ := Pipeline.standsIn_clause.mp hb
    exact (h.clause mode hposition hp hb hc).only.ahead

theorem feedRows {b : Pipeline} (hb : b.StandsIn S) :
    (M.feedRows c b).BlamesOnly S env fun d => TuplesStandIn S d.records := by
  cases b with
  | start =>
    refine .pure ?_
    rw [Collection.records_parallelize]
    exact List.forall_mem_singleton.mpr .empty
  | clause mode position operation before =>
    obtain ⟨hposition, hp, hb⟩ := Pipeline.standsIn_clause.mp hb
    exact (h.clauseRows mode hposition hp hb hc).only

theorem operationItems (he : env.StandsIn S) {position : SourcePosition} (hposition : position ∈ S)
    {operation : Operation} (hclauses : ∀ q ∈ operation.clausePositions, q ∈ S)
    (hp : PlansStandIn S operation.parts) :
    (M.operationItems env c position operation).Hands (Item.StandsIn S) (Failure.BlamesOnly S) := by
  cases operation with
  | compute computation => exact .trace (h.plans.compute hc he hp)
  | varRef name =>
    exact .trace (.bind_of (.ofEndsIn (hc.binding name)) fun _ hv => Engine.items_blames hv hposition)
  | sequence members => exact h.memberItems hc hp
  | range first last =>
    obtain ⟨hfirst, hlast⟩ := forall_mem_two.mp hp
    exact .attempt (h.plans.rangeBound hc hfirst).result fun low _ =>
      .attempt (h.plans.rangeBound hc hlast).result fun high _ => .ofList (rangeItems_standsIn low high)
  | conditional condition yes no =>
    obtain ⟨hcondition, hchoices⟩ := List.forall_mem_cons.mp hp
    obtain ⟨hyes, hno⟩ := forall_mem_two.mp hchoices
    refine .attempt (h.plans.truth hc hcondition).result fun chosen _ => ?_
    cases chosen with
    | true => exact (h.items hyes hc).only.ahead
    | false => exact (h.items hno hc).only.ahead
  | navigate step input =>
    obtain ⟨hinput, hstep⟩ := List.forall_mem_cons.mp hp
    exact .attempt (h.plans.stepOperand hc hstep).result fun operand _ =>
      (h.items hinput hc).only.ahead.bindFrom
        (fun place i hi => .trace (h.plans.applyStep hc hstep operand place hi)) 1
  | staticCall name arguments =>
    exact .attempt (h.plans.namedCall hc he name hp).result fun _ => h.hands_callItems
  | dynamicCall function arguments =>
    obtain ⟨hfunction, ha⟩ := List.forall_mem_cons.mp hp
    exact .attempt (h.plans.computedCall hc hfunction ha hposition).result fun _ => h.hands_callItems
  | flwor pipeline result =>
    obtain ⟨hresult, hparts⟩ := List.forall_mem_cons.mp hp
    exact (h.feed hc ⟨hclauses, hparts⟩).bind fun t ht => (h.items hresult (hc.scope ht)).only.ahead

theorem operationRows (he : env.StandsIn S) (mode : Mode) {operation : Operation}
    (hclauses : ∀ q ∈ operation.clausePositions, q ∈ S) (hp : PlansStandIn S operation.parts) :
    (M.operationRows mode c operation).BlamesOnly S env (Collection.StandsIn S) := by
  cases operation with
  | compute computation =>
    cases computation with
    | builtin b arguments => exact h.plans.sourceRows hc b hp
    | _ => exact .fault _
  | varRef name => exact .bind_of (.ofEndsIn (hc.binding name)) fun _ hv => Engine.rows_blames hv
  | sequence members => exact h.memberRows hc hp (List.forall_mem_nil _)
  | navigate step input =>
    obtain ⟨hinput, hstep⟩ := List.forall_mem_cons.mp hp
    simp only [Meaning.operationRows]
    split
    · exact .bind_of (h.plans.stepFrame hc hstep (h.frame hinput hc).only) fun _ hf =>
        .pure (Frame.StandsIn.toRows hf)
    · exact .bind_of (h.plans.stepOperand hc hstep) fun operand _ =>
        .bind_of (h.rows hinput hc).only fun _ hd => h.plans.stepRows hc hstep operand hd
  | staticCall name arguments => exact h.plans.callRows hc he name hp mode
  | flwor pipeline result =>
    obtain ⟨hresult, hparts⟩ := List.forall_mem_cons.mp hp
    exact .bind_of (h.feedRows hc ⟨hclauses, hparts⟩) fun _ ht => h.plans.projectedRows hc hresult ht
  | range | conditional | dynamicCall => exact .fault _

theorem operationFrame (he : env.StandsIn S) {operation : Operation} (hp : PlansStandIn S operation.parts) :
    (M.operationFrame c operation).BlamesOnly S env (Frame.StandsIn S) := by
  cases operation with
  | compute computation =>
    cases computation with
    | builtin b arguments => exact h.plans.sourceFrame hc b hp
    | _ => exact .fault _
  | varRef name =>
    refine .bind_of (.ofEndsIn (hc.binding name)) fun v hv => ?_
    cases v with
    | columns frame => exact .pure hv
    | items | rows => exact .fault _
  | navigate step input =>
    obtain ⟨hinput, hstep⟩ := List.forall_mem_cons.mp hp
    exact h.plans.stepFrame hc hstep (h.frame hinput hc).only
  | staticCall name arguments => exact h.plans.callFrame hc he name hp
  | sequence | range | conditional | dynamicCall | flwor => exact .fault _

theorem clauseItems {position : SourcePosition} (hposition : position ∈ S) {operation : ClauseOperation}
    (hp : PlansStandIn S operation.parts) {before : Pipeline} (hb : before.StandsIn S) :
    (M.clauseItems env c position before operation).Hands (Tuple.StandsIn S) (Failure.BlamesOnly S) := by
  have hfeed := h.feed hc hb
  cases operation with
  | forEach name place allowingEmpty source =>
    have hsource := hp source List.mem_cons_self
    exact hfeed.bind fun t ht => hands_bound _ _ ht (h.items hsource (hc.scope ht)).only.ahead 0
  | letBe name value =>
    have hvalue := hp value List.mem_cons_self
    exact hfeed.bind fun t ht => .attempt (h.plans.value (hc.scope ht) hvalue).result fun _ hv =>
      .one (ht.bind name hv)
  | keepWhere condition =>
    have hcondition := hp condition List.mem_cons_self
    refine hfeed.bind fun t ht => .attempt (h.plans.truth (hc.scope ht) hcondition).result fun kept _ => ?_
    cases kept with
    | true => exact .one ht
    | false => exact .done
  | orderBy keys =>
    have hkeys : ∀ k ∈ keys, k.expression.StandsIn S := fun k hk => hp _ (List.mem_map_of_mem hk)
    refine .attempt (gathered_endsIn (fun t ht => h.plans.keyedTuple hc hkeys ht) hfeed) fun keyed hkeyed =>
      .trace (.bind_of (.ofEndsIn (sortRun_endsIn (compareSortKeys_blames hkeys) keyed))
        fun sorted hsorted => .pure fun t ht => ?_)
    obtain ⟨x, hx, rfl⟩ := List.mem_map.mp ht
    exact hkeyed x (hsorted x hx)
  | groupBy keys =>
    exact .attempt (gathered_endsIn (fun t ht => h.plans.groupedTuple hc hp hposition ht) hfeed)
      fun pairs hpairs => .trace (PlanEvaluator.linearized_blames keys hposition hpairs)
  | count name => exact hfeed.bindFrom (fun place t ht => .one (countTuple_standsIn name ht place)) 1

theorem clauseCollection {position : SourcePosition} (hposition : position ∈ S)
    {operation : ClauseOperation} (hp : PlansStandIn S operation.parts) {before : Pipeline}
    (hb : before.StandsIn S) :
    (M.clauseCollection c position before operation).BlamesOnly S env
      fun d => TuplesStandIn S d.records := by
  have hfeed := h.feedRows hc hb
  cases operation with
  | forEach name place allowingEmpty source =>
    have hsource := hp source List.mem_cons_self
    simp only [Meaning.clauseCollection]
    split
    · exact .bind_of (h.rows hsource hc).only fun _ hd =>
        .pure (ForVariables.sourceTuples_standsIn _ allowingEmpty hd)
    · exact .bind_of hfeed fun _ ht => PlanEvaluator.expandedRows_blames _ allowingEmpty
        (fun _ hc => h.plans.evaluate hsource hc) hc ht
  | letBe name value =>
    exact .bind_of hfeed fun _ ht => h.plans.boundRows hc name (hp value List.mem_cons_self) ht
  | keepWhere condition =>
    exact .bind_of hfeed fun _ ht => h.plans.keptRows hc (hp condition List.mem_cons_self) ht
  | orderBy keys =>
    have hkeys : ∀ k ∈ keys, k.expression.StandsIn S := fun k hk => hp _ (List.mem_map_of_mem hk)
    exact .bind_of hfeed fun _ ht => h.plans.sortedRows hc hkeys ht
  | groupBy keys => exact .bind_of hfeed fun _ ht => h.plans.shuffled hc hp hposition ht
  | count name => exact .bind_of hfeed fun _ ht => .pure (countedRows_standsIn name ht)

omit hc in
/-- Nodes are blamed on no position outside the set if nothing below them is. -/
theorem above (he : env.StandsIn S) : (NodeMeaning.above M).BlamesOnly S env where
  items hposition _ hclauses hp _ hc := h.operationItems hc he hposition hclauses hp
  rows mode _ hclauses hp _ hc := h.operationRows hc he mode hclauses hp
  frame hp _ hc := h.operationFrame hc he hp
  clause hposition _ hp _ hb _ hc := h.clauseItems hc hposition hp hb
  clauseRows hposition _ hp _ hb _ hc := h.clauseCollection hc hposition hp hb

end Meaning.Blames

/-! ## Every depth -/

theorem NodeMeaning.blamesOnly_giveUp : NodeMeaning.giveUp.BlamesOnly S env where
  items _ _ _ _ _ _ := .failed trivial
  rows _ _ _ _ _ _ := .exhausted trivial
  frame _ _ _ := .exhausted trivial
  clause _ _ _ _ _ _ _ := .failed trivial
  clauseRows _ _ _ _ _ _ _ := .exhausted trivial

theorem NodeMeaning.blamesOnly_ofDepth (he : env.StandsIn S) (depth : Nat) :
    (NodeMeaning.ofDepth depth).BlamesOnly S env := by
  induction depth with
  | zero => exact blamesOnly_giveUp
  | succ depth ih => exact ih.driven.above he

/-- **Every failure is located.** Plans that stand in a set are blamed on positions of the set, in
environments whose functions stand in it too. -/
theorem Meaning.blames_ofDepth (he : env.StandsIn S) (depth : Nat) : (Meaning.ofDepth depth).Blames S env :=
  (NodeMeaning.blamesOnly_ofDepth he depth).driven

end HybridQuery
