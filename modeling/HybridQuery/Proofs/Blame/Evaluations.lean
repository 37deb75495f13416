import HybridQuery.Proofs.Blame.Bindings

/-!
# Evaluations that are blamed on a set of positions

What an evaluator makes of plans that stand in a set, in contexts and environments that do, gives values
that stand in it and fails with failures that are blamed on no position outside it. Faults are raised
without a position; where a node below is blamed, it stands in the set as the plan does.

* `Engine.BlamesOnly`, `Engine.Blames`: the judgements on computations. `Engine.Meets.located`: at a node
  of the set the first becomes the second.
* `PlanEvaluator.BlamesOnly`: evaluators of plans with the property; one lemma for each function of
  `PlanEvaluator`.
-/

namespace HybridQuery

variable {S : Set SourcePosition} {env : Environment} {α β : Type}

/-! ## Computations -/

/-- Values of `P`, and failures that are blamed on no position outside the set. -/
abbrev Engine.BlamesOnly (S : Set SourcePosition) (env : Environment) (P : α → Prop) (x : Engine α) : Prop :=
  x.Meets env P (Failure.BlamesOnly S)

/-- Values of `P`, and failures that are blamed on a position of the set. -/
abbrev Engine.Blames (S : Set SourcePosition) (env : Environment) (P : α → Prop) (x : Engine α) : Prop :=
  x.Meets env P (Failure.Blames S)

namespace Engine

section
variable {P : α → Prop} {x : Engine α}

/-- A fault is raised without a position. -/
theorem Meets.fault (fault : Fault) : Engine.BlamesOnly S env P (Run.fail fault) :=
  Meets.fail (EngineError.blamesOnly_of fault)

theorem Meets.ofEndsIn {E : Failure → Prop} {d : EngineResult α} (h : EndsIn P (fun e => E (.raised e)) d) :
    Meets env P E (Run.ofResult d) := .ofResult (fun _ => h.of_ok) fun _ => h.of_error

theorem Meets.only (h : x.Blames S env P) : x.BlamesOnly S env P := h.weaken fun _ h => h.only

/-- At a node of the set, failures that have no position are blamed on it. -/
theorem Meets.located (h : x.BlamesOnly S env P) {position : SourcePosition} (hp : position ∈ S) :
    Engine.Blames S env P (x.locate position) := by
  intro r
  have hx := h r
  simp only [Run.locate]
  generalize x env r = d at hx
  cases d with
  | ok a s => exact hx
  | error f s => exact Failure.BlamesOnly.locate hx hp

/-- A fault that is blamed on a node at once. -/
theorem Meets.faultAt (fault : Fault) {position : SourcePosition} (hp : position ∈ S) :
    Engine.BlamesOnly S env P (Run.locate (Run.fail fault) position) := ((Meets.fault fault).located hp).only

end

/-! ## Between distributed and host -/

theorem materialize_blames (c : Collection α) {position : SourcePosition} (hp : position ∈ S) :
    (materialize c position).Blames S env fun l => ∀ a ∈ l, a ∈ c.records := by
  have hcapped : EndsIn (fun l => ∀ a ∈ l, a ∈ c.records) (EngineError.BlamesOnly S)
      (c.capped env.materializationCap) := by
    unfold Collection.capped
    split
    · exact .ok fun _ h => h
    · dsimp only
      split
      · exact .fail _
      · exact .ok fun _ h => List.mem_of_mem_take h
  have hlocated := hcapped.locate hp
  exact .bind (.environment (.bind_of (.ofEndsIn hlocated) fun l hl =>
    .bind (.count (.bind (.log (.pure hl))))))

theorem rows_blames {v : Value Item} (h : v.StandsIn S) :
    (rows v).BlamesOnly S env (Collection.StandsIn S) := by
  cases v with
  | items items => exact .bind (.environment (.pure (Collection.standsIn_parallelize h _)))
  | rows rows => exact .pure h
  | columns frame => exact .pure (Frame.StandsIn.toRows h)

theorem items_blames {v : Value Item} (h : v.StandsIn S) {position : SourcePosition} (hp : position ∈ S) :
    (items v position).BlamesOnly S env (ItemsStandIn S) := by
  cases v with
  | items items => exact .pure h
  | rows rows => exact (materialize_blames rows hp).only.mono fun _ hl i hi => h i (hl i hi)
  | columns frame =>
    exact (materialize_blames frame.toRows hp).only.mono fun _ hl i hi =>
      Frame.StandsIn.toRows h i (hl i hi)

theorem valueIn_blames (mode : Mode) {items : Engine Sequence} {rows : Engine (Collection Item)}
    {frame : Engine (Frame Item)} (hi : items.BlamesOnly S env (ItemsStandIn S))
    (hr : rows.BlamesOnly S env (Collection.StandsIn S)) (hf : frame.BlamesOnly S env (Frame.StandsIn S)) :
    (valueIn mode items rows frame).BlamesOnly S env (Value.StandsIn S) := by
  cases mode with
  | unset | host => exact .map hi
  | rows => exact .map hr
  | columns => exact .map hf

/-! ## Sources -/

theorem textLines_blames (location : String) (partitions : Nat) :
    (textLines location partitions).BlamesOnly S env fun _ => True := by
  have htext : (sourceText location).BlamesOnly S env fun _ => True := by
    refine .bind (.environment ?_)
    cases SourceLocation.path location with
    | error fault => exact .pure trivial
    | ok path => exact .bind (.consult (.pure trivial))
  have hlines : (textLines? location partitions).BlamesOnly S env fun _ => True := by
    refine .bind_of htext fun text _ => ?_
    cases text with
    | error fault => exact .pure trivial
    | ok text => exact .bind (.log (.pure trivial))
  refine .bind_of hlines fun lines _ => ?_
  cases lines with
  | error fault => exact .fault _
  | ok lines => exact .pure trivial

theorem lineItems_endsIn (line : String) :
    EndsIn (ItemsStandIn S) (EngineError.BlamesOnly S) (lineItems line) := by
  unfold lineItems
  split
  · exact .ok (List.forall_mem_nil _)
  · unfold Item.ofLine
    cases Json.read? line with
    | some json => exact .ok (List.forall_mem_singleton.mpr (Item.standsIn_ofJson _))
    | none => exact .error (EngineError.blamesOnly_of _)

theorem jsonLines_blames (location : String) (partitions : Nat) :
    (jsonLines location partitions).BlamesOnly S env (Collection.StandsIn S) :=
  .bind_of (textLines_blames location partitions) fun _ _ =>
    .ofEndsIn (.collectionFlatMapM fun line _ => lineItems_endsIn line)

theorem jsonFrame_blames (location : String) :
    (jsonFrame location).BlamesOnly S env (Frame.StandsIn S) :=
  .bind (.environment (.bind_of (jsonLines_blames location _) fun _ h =>
    .ofEndsIn (Frame.ofObjects_endsIn h)))

end Engine

/-! ## Evaluators of plans -/

/-- A plan evaluator that gives values that stand in a set, or failures that are blamed on no position
outside it, for plans that stand in it. -/
structure PlanEvaluator.BlamesOnly (S : Set SourcePosition) (env : Environment) (ev : PlanEvaluator) :
    Prop where
  evaluate {p : Plan} (hp : p.StandsIn S) {c : Context} (hc : c.StandsIn S) :
    (ev.evaluate p c).BlamesOnly S env (ItemsStandIn S)
  rows {p : Plan} (hp : p.StandsIn S) {c : Context} (hc : c.StandsIn S) :
    (ev.rows p c).BlamesOnly S env (Collection.StandsIn S)
  planFrame {p : Plan} (hp : p.StandsIn S) {c : Context} (hc : c.StandsIn S) :
    (ev.planFrame p c).BlamesOnly S env (Frame.StandsIn S)
  firstOnHost {p : Plan} (hp : p.StandsIn S) {c : Context} (hc : c.StandsIn S) :
    (ev.firstOnHost p c).BlamesOnly S env (ItemsStandIn S)
  emptyOnHost {p : Plan} (hp : p.StandsIn S) {c : Context} (hc : c.StandsIn S) :
    (ev.emptyOnHost p c).BlamesOnly S env fun _ => True

namespace PlanEvaluator

/-! ### Computations that evaluate no plan -/

/-- A function and what a call of it comes to. -/
def CallStandsIn (S : Set SourcePosition) (call : FunctionItem × Invocation) : Prop :=
  call.1.StandsIn S ∧ call.2.StandsIn S

theorem namedFunction_blames (he : env.StandsIn S) (name : String) (arity : Nat) :
    (namedFunction name arity).BlamesOnly S env (FunctionOf.StandsIn S) := by
  unfold namedFunction
  cases Builtin.find? name arity with
  | some b => exact .pure (b.toFunction_standsIn he.unknown arity)
  | none => exact .bind (.environment (.ofEndsIn (Registry.get_endsIn he.functions _)))

theorem invocation_blames {f : FunctionItem} (h : f.StandsIn S) {vs : List (Option (Value Item))}
    (ha : ArgumentsStandIn S vs) : (invocation f vs).BlamesOnly S env (Invocation.StandsIn S) :=
  .bind (.environment (.ofEndsIn (Invocation.of_endsIn h _ ha)))

theorem calledFunction_endsIn {s : Sequence} (h : ItemsStandIn S s) :
    EndsIn (FunctionOf.StandsIn S) (EngineError.BlamesOnly S) (calledFunction s) := by
  unfold calledFunction
  split
  · exact .ok (Item.standsIn_function.mp (h _ List.mem_cons_self))
  · exact .fail _

theorem promoteRows_blames (type : SequenceType) {rows : Collection Item} (h : rows.StandsIn S) :
    (promoteRows type rows).BlamesOnly S env (Collection.StandsIn S) := by
  unfold promoteRows
  split
  · exact .pure h
  · exact .bind (.environment (.ofEndsIn (Catalogue.promoteRows_endsIn _ h type).toEngine))

theorem builtinArgument_blames (b : Builtin) {arguments : List Plan} (h : PlansStandIn S arguments)
    (index : Nat) : (builtinArgument b arguments index).BlamesOnly S env (Plan.StandsIn S) := by
  unfold builtinArgument
  cases hp : arguments[index]? with
  | some p => exact .pure (h p (List.mem_of_getElem? hp))
  | none => exact .fault _

theorem countRecords_blames {rows : Collection Item} (h : rows.StandsIn S) :
    (countRecords rows).BlamesOnly S env (Collection.StandsIn S) := .bind (.count (.pure h))

/-! ### Tuples of groups -/

/-- A key whose components stand in the set. -/
abbrev KeyStandsIn (S : Set SourcePosition) (key : GroupingKey) : Prop :=
  ∀ o ∈ key, ∀ i ∈ o, Item.StandsIn S i

/-- A group whose key and tuples stand in the set. -/
def GroupStandsIn (S : Set SourcePosition) (group : GroupingKey × List Tuple) : Prop :=
  KeyStandsIn S group.1 ∧ ∀ t ∈ group.2, t.StandsIn S

theorem keyValue_standsIn {o : Option Item} (h : ∀ i ∈ o, Item.StandsIn S i) : (keyValue o).StandsIn S :=
  fun i hi => h i (Option.mem_toList.mp hi)

theorem groupingComponent_endsIn (name : String) {s : Sequence} (h : ItemsStandIn S s) :
    EndsIn (fun o => ∀ i ∈ o, Item.StandsIn S i) (EngineError.BlamesOnly S) (groupingComponent name s) := by
  match s, h with
  | [], _ => exact .ok nofun
  | [i], h =>
    simp only [groupingComponent]
    split
    · refine .ok fun j hj => ?_
      cases hj
      exact h i List.mem_cons_self
    · exact .fail _
  | i :: j :: rest, _ => exact .fail _

theorem groupValues_blames {position : SourcePosition} (hp : position ∈ S) (name : String)
    {group : List Tuple} (h : ∀ t ∈ group, t.StandsIn S) :
    (groupValues position name group).BlamesOnly S env (ItemsStandIn S) := by
  refine .bind_of (.listMapM (Q := ItemsStandIn S) fun t ht => ?_) fun ss hss =>
    .pure (List.forall_mem_flatten.mpr hss)
  cases hv : t.get? name with
  | some v => exact Engine.items_blames ((h t ht).get? name v hv) hp
  | none => exact .pure (List.forall_mem_nil _)

theorem bindGroupValues_blames {position : SourcePosition} (hp : position ∈ S) {group : List Tuple}
    (h : ∀ t ∈ group, t.StandsIn S) (names : List String) {t : Tuple} (ht : t.StandsIn S) :
    (bindGroupValues position group names t).BlamesOnly S env (Tuple.StandsIn S) := by
  induction names generalizing t with
  | nil => exact .pure ht
  | cons name names ih =>
    exact .bind_of (groupValues_blames hp name h) fun items hitems => ih (ht.bind name hitems)

theorem linearize_blames (keys : List (GroupKey Plan)) {position : SourcePosition} (hp : position ∈ S)
    {group : GroupingKey × List Tuple} (h : GroupStandsIn S group) :
    (linearize keys position group).BlamesOnly S env (Tuple.StandsIn S) := by
  obtain ⟨key, _ | ⟨first, rest⟩⟩ := group
  · exact .pure .empty
  · obtain ⟨hkey, htuples⟩ := h
    refine .bind_of (bindGroupValues_blames hp htuples _ .empty) fun t ht => .pure ?_
    have hbound : ∀ p ∈ keys.zip key, (keyValue p.2).StandsIn S :=
      fun p hp => keyValue_standsIn (hkey p.2 (List.of_mem_zip hp).2)
    generalize keys.zip key = bound at hbound
    induction bound generalizing t with
    | nil => exact ht
    | cons p bound ih =>
      obtain ⟨hp, hbound⟩ := List.forall_mem_cons.mp hbound
      exact ih _ (ht.bind _ hp) hbound

theorem linearized_blames (keys : List (GroupKey Plan)) {position : SourcePosition} (hp : position ∈ S)
    {pairs : List (GroupingKey × Tuple)} (h : ∀ p ∈ pairs, KeyStandsIn S p.1 ∧ p.2.StandsIn S) :
    (linearized keys position pairs).BlamesOnly S env fun ts => ∀ t ∈ ts, t.StandsIn S :=
  .listMapM fun group hgroup => linearize_blames keys hp (Collection.forall_groupPairs h group hgroup)

namespace BlamesOnly

variable {ev : PlanEvaluator} (h : ev.BlamesOnly S env) {c : Context} (hc : c.StandsIn S)
include h hc

/-! ### Values, operands and truth values -/

theorem value {p : Plan} (hp : p.StandsIn S) : (ev.value p c).BlamesOnly S env (Value.StandsIn S) :=
  Engine.valueIn_blames p.mode (h.evaluate hp hc) (h.rows hp hc) (h.planFrame hp hc)

theorem optionalItem {p : Plan} (hp : p.StandsIn S) (what : String) :
    (ev.optionalItem p c what).BlamesOnly S env fun o => ∀ i ∈ o, Item.StandsIn S i :=
  .bind_of (h.evaluate hp hc) fun _ hs => .ofEndsIn (Sequence.optional_standsIn hs what hp.position)

theorem truth {p : Plan} (hp : p.StandsIn S) : (ev.truth p c).BlamesOnly S env fun _ => True :=
  .bind_of (h.evaluate hp hc) fun s _ => .ofEndsIn (s.truth_endsIn.locate hp.position).only

theorem operand {p : Plan} (hp : p.StandsIn S) : (ev.operand p c).BlamesOnly S env fun _ => True := by
  refine .bind_of (h.optionalItem hc hp _) fun o _ => ?_
  cases o with
  | none => exact .pure trivial
  | some i =>
    dsimp only
    split
    · exact .pure trivial
    · exact .faultAt _ hp.position

theorem binary {left right : Plan} (hleft : left.StandsIn S) (hright : right.StandsIn S)
    {apply : Item → Item → EngineResult Item}
    (happly : ∀ l r, EndsIn (Item.StandsIn S) (EngineError.BlamesOnly S) (apply l r)) :
    (ev.binary left right c apply).BlamesOnly S env (ItemsStandIn S) := by
  refine .bind_of (h.operand hc hleft) fun l _ => .bind_of (h.operand hc hright) fun r _ => ?_
  rcases l with _ | l <;> rcases r with _ | r
  · exact .pure (List.forall_mem_nil _)
  · exact .pure (List.forall_mem_nil _)
  · exact .pure (List.forall_mem_nil _)
  · exact .bind_of (.ofEndsIn (happly l r)) fun _ hi => .pure (List.forall_mem_singleton.mpr hi)

theorem connective (op : LogicalOp) {left right : Plan} (hleft : left.StandsIn S)
    (hright : right.StandsIn S) : (ev.connective op left right c).BlamesOnly S env fun _ => True := by
  refine .bind_of (h.truth hc hleft) fun b _ => ?_
  cases op <;> cases b
  · exact .pure trivial
  · exact h.truth hc hright
  · exact h.truth hc hright
  · exact .pure trivial

/-! ### Constructors -/

theorem pairKey {p : Plan} (hp : p.StandsIn S) : (ev.pairKey p c).BlamesOnly S env fun _ => True := by
  refine .bind_of (h.optionalItem hc hp _) fun o _ => ?_
  cases o with
  | none => exact .faultAt _ hp.position
  | some i =>
    dsimp only
    split
    · exact .pure trivial
    · exact .faultAt _ hp.position

theorem objectPairs {pairs : List (Plan × Plan)} (hpairs : ∀ p ∈ pairs, p.1.StandsIn S ∧ p.2.StandsIn S)
    {done : List (String × Item)} (hdone : ∀ p ∈ done, p.2.StandsIn S) :
    (ev.objectPairs c done pairs).BlamesOnly S env fun ps => ∀ p ∈ ps, p.2.StandsIn S := by
  induction pairs generalizing done with
  | nil => exact .pure hdone
  | cons pair rest ih =>
    obtain ⟨⟨hkey, hvalue⟩, hpairs⟩ := List.forall_mem_cons.mp hpairs
    refine .bind_of (h.pairKey hc hkey) fun k _ => ?_
    split
    · exact .faultAt _ hvalue.position
    · exact .bind_of (h.evaluate hvalue hc) fun s hs => ih hpairs
        (List.forall_mem_append.mpr ⟨hdone, List.forall_mem_singleton.mpr (Sequence.asItem_standsIn hs)⟩)

/-! ### Navigation -/

theorem lookupKey {p : Plan} (hp : p.StandsIn S) : (ev.lookupKey p c).BlamesOnly S env fun _ => True := by
  refine .bind_of (h.optionalItem hc hp _) fun o _ => ?_
  cases o with
  | none => exact .pure trivial
  | some i =>
    dsimp only
    split
    · exact .pure trivial
    · exact .fault _

theorem lookupIndex {p : Plan} (hp : p.StandsIn S) :
    (ev.lookupIndex p c).BlamesOnly S env fun _ => True := by
  refine .bind_of (h.optionalItem hc hp _) fun o _ => ?_
  rcases o with _ | i
  · exact .pure trivial
  · cases i <;> first | exact .pure trivial | exact .fault _

theorem stepOperand {step : NavigationStep} (hs : PlansStandIn S step.parts) :
    (ev.stepOperand step c).BlamesOnly S env fun _ => True := by
  cases step with
  | objectLookup key => exact .map (h.lookupKey hc (hs key List.mem_cons_self))
  | arrayLookup index => exact .map (h.lookupIndex hc (hs index List.mem_cons_self))
  | arrayUnbox | filter => exact .pure trivial

theorem keeps {predicate : Plan} (hp : predicate.StandsIn S) (place : Nat) {i : Item}
    (hi : i.StandsIn S) : (ev.keeps predicate place i c).BlamesOnly S env fun _ => True := by
  have hscope := hc.withBinding contextItemName (Value.StandsIn.single hi)
  refine .bind_of (h.evaluate hp hscope) fun s _ => ?_
  rcases s with _ | ⟨r, _ | ⟨s, rest⟩⟩
  · exact .ofEndsIn ((Sequence.truth_endsIn _).locate hp.position).only
  · dsimp only
    split
    · exact .pure trivial
    · exact .ofEndsIn (r.truth_endsIn.locate hp.position).only
  · exact .ofEndsIn ((Sequence.truth_endsIn _).locate hp.position).only

theorem applyStep {step : NavigationStep} (hs : PlansStandIn S step.parts) (operand : StepOperand)
    (place : Nat) {i : Item} (hi : i.StandsIn S) :
    (ev.applyStep step operand place i c).BlamesOnly S env (ItemsStandIn S) := by
  unfold PlanEvaluator.applyStep
  split
  · exact .pure fun j hj => hi.member? _ j (Option.mem_toList.mp hj)
  · exact .pure fun j hj => memberAt_standsIn hi _ j (Option.mem_toList.mp hj)
  · exact .pure hi.members
  · refine .bind_of (h.keeps hc (hs _ List.mem_cons_self) place hi) fun kept _ => ?_
    cases kept
    · exact .pure (List.forall_mem_nil _)
    · exact .pure (List.forall_mem_singleton.mpr hi)
  · exact .pure (List.forall_mem_nil _)

theorem stepFrame {step : NavigationStep} (hs : PlansStandIn S step.parts) {input : Engine (Frame Item)}
    (hinput : input.BlamesOnly S env (Frame.StandsIn S)) :
    (ev.stepFrame step input c).BlamesOnly S env (Frame.StandsIn S) := by
  refine .bind_of (h.stepOperand hc hs) fun operand _ => ?_
  split
  · exact .bind_of hinput fun _ hf => .pure (Frame.StandsIn.select hf _)
  · exact .fault _
  · exact .fault _

theorem stepRows {step : NavigationStep} (hs : PlansStandIn S step.parts) (operand : StepOperand)
    {rows : Collection Item} (hrows : rows.StandsIn S) :
    (ev.stepRows step operand rows c).BlamesOnly S env (Collection.StandsIn S) := by
  unfold PlanEvaluator.stepRows
  split
  · refine .flatMapM fun x hx => ?_
    rw [Collection.records_zipWithIndex] at hx
    exact h.applyStep hc hs operand (x.2 + 1) (hrows x.1 (List.fst_mem_of_mem_zipIdx hx))
  · exact .flatMapM fun i hi => h.applyStep hc hs operand 0 (hrows i hi)

/-! ### Calls -/

theorem argumentValues {arguments : List (Option Plan)} (ha : PlansStandIn S (arguments.filterMap id)) :
    (ev.argumentValues c arguments).BlamesOnly S env (ArgumentsStandIn S) := by
  induction arguments with
  | nil => exact .pure (List.forall_mem_nil _)
  | cons argument rest ih =>
    cases argument with
    | none => exact .bind_of (ih ha) fun _ hvs => .pure (List.forall_mem_cons.mpr ⟨nofun, hvs⟩)
    | some p =>
      obtain ⟨hp, ha⟩ := List.forall_mem_cons.mp ha
      refine .bind_of (h.value hc hp) fun v hv => .bind_of (ih ha) fun _ hvs =>
        .pure (List.forall_mem_cons.mpr ⟨?_, hvs⟩)
      rintro _ ⟨⟩
      exact hv

theorem namedCall (he : env.StandsIn S) (name : String) {arguments : List (Option Plan)}
    (ha : PlansStandIn S (arguments.filterMap id)) :
    (ev.namedCall name arguments c).BlamesOnly S env (CallStandsIn S) :=
  .bind_of (namedFunction_blames he name _) fun _ hf => .bind_of (h.argumentValues hc ha) fun _ hvs =>
    .bind_of (invocation_blames hf hvs) fun _ hi => .pure ⟨hf, hi⟩

theorem computedCall {function : Plan} (hp : function.StandsIn S) {arguments : List (Option Plan)}
    (ha : PlansStandIn S (arguments.filterMap id)) {position : SourcePosition} (hposition : position ∈ S) :
    (ev.computedCall function arguments position c).BlamesOnly S env (CallStandsIn S) :=
  .bind_of (h.evaluate hp hc) fun _ hs =>
    .bind_of (.ofEndsIn ((calledFunction_endsIn hs).locate hposition).only) fun _ hf =>
      .bind_of (h.argumentValues hc ha) fun _ hvs =>
        .bind_of ((invocation_blames hf hvs).located hposition).only fun _ hi => .pure ⟨hf, hi⟩

theorem fullCall (he : env.StandsIn S) (name : String) {arguments : List (Option Plan)}
    (ha : PlansStandIn S (arguments.filterMap id)) :
    (ev.fullCall name arguments c).BlamesOnly S env fun call => call.1.StandsIn S ∧ call.2.StandsIn S := by
  refine .bind_of (h.namedCall hc he name ha) fun ⟨f, x⟩ ⟨hf, hi⟩ => ?_
  cases hi with
  | partially hleft => exact .fault _
  | fully hinner => exact .pure ⟨hf, hinner⟩

theorem bodyRows (mode : Mode) {f : FunctionItem} (hf : f.StandsIn S) :
    (ev.bodyRows mode f c).BlamesOnly S env (Collection.StandsIn S) := by
  unfold PlanEvaluator.bodyRows
  split
  · exact .bind_of (h.planFrame hf.body hc) fun _ hframe => .pure (Frame.StandsIn.toRows hframe)
  · exact h.rows hf.body hc

theorem callRows (he : env.StandsIn S) (name : String) {arguments : List (Option Plan)}
    (ha : PlansStandIn S (arguments.filterMap id)) (mode : Mode) :
    (ev.callRows name arguments mode c).BlamesOnly S env (Collection.StandsIn S) :=
  .bind_of (h.fullCall hc he name ha) fun (_, _) ⟨hf, hinner⟩ =>
    .bind_of (h.bodyRows hinner mode hf) fun _ hrows => promoteRows_blames _ hrows

theorem callFrame (he : env.StandsIn S) (name : String) {arguments : List (Option Plan)}
    (ha : PlansStandIn S (arguments.filterMap id)) :
    (ev.callFrame name arguments c).BlamesOnly S env (Frame.StandsIn S) :=
  .bind_of (h.fullCall hc he name ha) fun (_, _) ⟨hf, hinner⟩ => h.planFrame hf.body hinner

end BlamesOnly
end PlanEvaluator
end HybridQuery
