import HybridQuery.Proofs.Blame.Evaluations
import HybridQuery.Proofs.Grouping

/-!
# Clauses, built-in functions and computations that are blamed on a set of positions

* `ForVariables.expand_standsIn`, `countTuple_standsIn` and their like: the tuples that clauses make.
* `PlanEvaluator.BlamesOnly.sortedRows`, `PlanEvaluator.BlamesOnly.shuffled`: orders and groups. Keys that
  have no order are blamed on the expression of the key, components that make no key on the clause.
* `PlanEvaluator.BlamesOnly.builtinItems`, `PlanEvaluator.BlamesOnly.compute`: everything that yields all its
  items at once.
-/

namespace HybridQuery

variable {S : Set SourcePosition} {env : Environment}

/-! ## Tuples -/

/-- Tuples that stand in the set. -/
abbrev TuplesStandIn (S : Set SourcePosition) (tuples : List Tuple) : Prop := ∀ t ∈ tuples, t.StandsIn S

namespace ForVariables

variable (v : ForVariables)

theorem bind_standsIn {t : Tuple} (ht : t.StandsIn S) {x : Value Item} (hx : x.StandsIn S) (index : Nat) :
    (v.bind t x index).StandsIn S := by
  unfold bind
  cases v.place with
  | none => exact ht.bind v.item hx
  | some place => exact (ht.bind v.item hx).bind place (.integer _)

theorem expand_standsIn (allowingEmpty : Bool) {t : Tuple} (ht : t.StandsIn S) {items : Sequence}
    (h : ItemsStandIn S items) : TuplesStandIn S (v.expand allowingEmpty t items) := by
  unfold expand
  split
  · exact List.forall_mem_singleton.mpr (v.bind_standsIn ht .empty 0)
  · intro u hu
    obtain ⟨⟨i, index⟩, hi, rfl⟩ := List.mem_map.mp hu
    exact v.bind_standsIn ht (.single (h i (List.fst_mem_of_mem_zipIdx hi))) index

theorem sourceTuples_standsIn (allowingEmpty : Bool) {rows : Collection Item} (h : rows.StandsIn S) :
    TuplesStandIn S (v.sourceTuples allowingEmpty rows).records := by
  rw [records_sourceTuples]
  exact v.expand_standsIn allowingEmpty .empty h

end ForVariables

theorem countTuple_standsIn (name : String) {t : Tuple} (h : t.StandsIn S) (place : Nat) :
    (countTuple name t place).StandsIn S := h.bind name (.integer _)

theorem countedRows_standsIn (name : String) {tuples : Collection Tuple}
    (h : TuplesStandIn S tuples.records) : TuplesStandIn S (countedRows name tuples).records := by
  rw [countedRows, Collection.records_map, Collection.records_zipWithIndex]
  intro u hu
  obtain ⟨⟨t, index⟩, ht, rfl⟩ := List.mem_map.mp hu
  exact countTuple_standsIn name (h t (List.fst_mem_of_mem_zipIdx ht)) _

/-! ## Keys to order by -/

/-- Keys that cannot be ordered are blamed on the expression that yields them. -/
theorem compareSortKeys_blames {keys : List (OrderKey Plan)} (hkeys : ∀ k ∈ keys, k.expression.StandsIn S)
    (a b : SortKey) : ∀ e, compareSortKeys keys a b = .error e → e.BlamesOnly S := by
  have hcomponents {key : OrderKey Plan} (hkey : key.expression.StandsIn S) (a b : Option Item) :
      EndsIn (fun _ => True) (EngineError.BlamesOnly S) (compareComponents key a b) := by
    rcases a with _ | a <;> rcases b with _ | b
    · exact .ok trivial
    · exact .ok trivial
    · exact .ok trivial
    · exact ((a.compare_endsIn b).locate hkey.position).only
  suffices h : EndsIn (fun _ => True) (EngineError.BlamesOnly S) (compareSortKeys keys a b) from
    fun _ => h.of_error
  induction keys generalizing a b with
  | nil => exact .ok trivial
  | cons key keys ih =>
    obtain ⟨hkey, hkeys⟩ := List.forall_mem_cons.mp hkeys
    rcases a with _ | ⟨a, as⟩
    · exact .ok trivial
    · rcases b with _ | ⟨b, bs⟩
      · exact .ok trivial
      · refine (hcomponents hkey a b).bind fun ordering _ => ?_
        generalize (if key.descending then ordering.swap else ordering) = ordering
        dsimp only
        split
        · exact ih hkeys as bs
        · exact .ok trivial

namespace PlanEvaluator

theorem expandedRows_blames (v : ForVariables) (allowingEmpty : Bool) {items : Context → Engine Sequence}
    (hitems : ∀ c : Context, c.StandsIn S → (items c).BlamesOnly S env (ItemsStandIn S)) {c : Context}
    (hc : c.StandsIn S) {tuples : Collection Tuple} (ht : TuplesStandIn S tuples.records) :
    (expandedRows v allowingEmpty items c tuples).BlamesOnly S env fun d => TuplesStandIn S d.records :=
  .flatMapM fun t htuple => .bind_of (hitems _ (hc.scope (ht t htuple))) fun _ hs =>
    .pure (v.expand_standsIn allowingEmpty (ht t htuple) hs)

theorem contextItem_endsIn {c : Context} (hc : c.StandsIn S) :
    EndsIn (ItemsStandIn S) (EngineError.BlamesOnly S) (contextItem c) := by
  unfold contextItem
  split
  · next hv => exact .ok (hc.lookup _ _ hv)
  · exact .fail _

theorem yearOf_endsIn (b : Builtin) (i : Item) :
    EndsIn (ItemsStandIn S) (EngineError.BlamesOnly S) (yearOf b i) := by
  cases i <;> first | exact .ok (List.forall_mem_singleton.mpr (.atomic rfl)) | exact .fail _

theorem timezoneOf_endsIn (b : Builtin) (i : Item) :
    EndsIn (ItemsStandIn S) (EngineError.BlamesOnly S) (timezoneOf b i) := by
  cases i with
  | time t =>
    refine .ok fun j hj => ?_
    obtain ⟨offset, -, rfl⟩ := Option.map_eq_some_iff.mp (Option.mem_toList.mp hj)
    exact .atomic rfl
  | _ => exact .fail _

namespace BlamesOnly

variable {ev : PlanEvaluator} (h : ev.BlamesOnly S env) {c : Context} (hc : c.StandsIn S)
include h hc

/-! ## Clauses on distributed tuples -/

theorem boundRows (name : String) {value : Plan} (hp : value.StandsIn S) {tuples : Collection Tuple}
    (ht : TuplesStandIn S tuples.records) :
    (ev.boundRows name value c tuples).BlamesOnly S env fun d => TuplesStandIn S d.records :=
  .collectionMapM fun t htuple => .bind_of (h.evaluate hp (hc.scope (ht t htuple))) fun _ hs =>
    .pure ((ht t htuple).bind name hs)

theorem keptRows {condition : Plan} (hp : condition.StandsIn S) {tuples : Collection Tuple}
    (ht : TuplesStandIn S tuples.records) :
    (ev.keptRows condition c tuples).BlamesOnly S env fun d => TuplesStandIn S d.records :=
  (Engine.Meets.filterM fun t htuple => h.truth (hc.scope (ht t htuple)) hp).mono
    fun _ hd t htuple => ht t (hd t htuple)

theorem projectedRows {result : Plan} (hp : result.StandsIn S) {tuples : Collection Tuple}
    (ht : TuplesStandIn S tuples.records) :
    (ev.projectedRows result c tuples).BlamesOnly S env (Collection.StandsIn S) :=
  .flatMapM fun t htuple => h.evaluate hp (hc.scope (ht t htuple))

/-! ## Ordering and grouping -/

theorem sortComponent {key : OrderKey Plan} (hkey : key.expression.StandsIn S) :
    (ev.sortComponent key c).BlamesOnly S env fun _ => True := by
  refine .bind_of (h.optionalItem hc hkey _) fun o _ => ?_
  cases o with
  | none => exact .pure trivial
  | some i =>
    dsimp only
    split
    · exact .pure trivial
    · exact .faultAt _ hkey.position

theorem keyedTuple {keys : List (OrderKey Plan)} (hkeys : ∀ k ∈ keys, k.expression.StandsIn S) {t : Tuple}
    (ht : t.StandsIn S) : (ev.keyedTuple keys c t).BlamesOnly S env fun x => x.2.StandsIn S :=
  .bind_of (.listMapM fun key hkey => h.sortComponent (hc.scope ht) (hkeys key hkey)) fun _ _ => .pure ht

theorem sortedRows {keys : List (OrderKey Plan)} (hkeys : ∀ k ∈ keys, k.expression.StandsIn S)
    {tuples : Collection Tuple} (ht : TuplesStandIn S tuples.records) :
    (ev.sortedRows keys c tuples).BlamesOnly S env fun d => TuplesStandIn S d.records := by
  refine .bind_of (.collectionMapM fun t htuple => h.keyedTuple hc hkeys (ht t htuple)) fun keyed hkeyed =>
    .bind_of (.ofEndsIn (Collection.sortKeyed_endsIn (compareSortKeys_blames hkeys) keyed))
      fun sorted hsorted => .bind (.count (.pure fun t htuple => ?_))
  obtain ⟨key, hmem⟩ := hsorted t htuple
  exact hkeyed _ hmem

theorem groupingItems {key : GroupKey Plan} (hkey : ∀ p ∈ key.expression, Plan.StandsIn S p)
    {position : SourcePosition} (hposition : position ∈ S) {t keyed : Tuple} (ht : t.StandsIn S)
    (hkeyed : keyed.StandsIn S) :
    (ev.groupingItems key position c t keyed).BlamesOnly S env (ItemsStandIn S) := by
  unfold PlanEvaluator.groupingItems
  cases he : key.expression with
  | some p => exact h.evaluate (hkey p he) (hc.scope hkeyed)
  | none =>
    dsimp only
    cases hv : t.get? key.variableName with
    | some v => exact Engine.items_blames (ht.get? _ v hv) hposition
    | none => exact .fault _

theorem groupedFrom {position : SourcePosition} (hposition : position ∈ S) {t : Tuple} (ht : t.StandsIn S)
    {keys : List (GroupKey Plan)} (hkeys : PlansStandIn S (keys.filterMap (·.expression))) {keyed : Tuple}
    (hkeyed : keyed.StandsIn S) {done : GroupingKey} (hdone : KeyStandsIn S done) :
    (ev.groupedFrom position c t keys keyed done).BlamesOnly S env
      fun x => KeyStandsIn S x.1 ∧ x.2.StandsIn S := by
  induction keys generalizing keyed done with
  | nil => exact .pure ⟨hdone, hkeyed⟩
  | cons key rest ih =>
    have hkey : ∀ p ∈ key.expression, Plan.StandsIn S p :=
      fun p hp => hkeys p (List.mem_filterMap.mpr ⟨key, List.mem_cons_self, hp⟩)
    have hrest : PlansStandIn S (rest.filterMap (·.expression)) := fun p hp => by
      obtain ⟨k, hk, hp⟩ := List.mem_filterMap.mp hp
      exact hkeys p (List.mem_filterMap.mpr ⟨k, List.mem_cons_of_mem _ hk, hp⟩)
    exact .bind_of (h.groupingItems hc hkey hposition ht hkeyed) fun _ hs =>
      .bind_of (.ofEndsIn ((groupingComponent_endsIn _ hs).locate hposition).only) fun _ ho =>
        ih hrest (hkeyed.bind _ (keyValue_standsIn ho))
          (List.forall_mem_append.mpr ⟨hdone, List.forall_mem_singleton.mpr ho⟩)

theorem groupedTuple {keys : List (GroupKey Plan)} (hkeys : PlansStandIn S (keys.filterMap (·.expression)))
    {position : SourcePosition} (hposition : position ∈ S) {t : Tuple} (ht : t.StandsIn S) :
    (ev.groupedTuple keys position c t).BlamesOnly S env fun x => KeyStandsIn S x.1 ∧ x.2.StandsIn S :=
  h.groupedFrom hc hposition ht hkeys ht (List.forall_mem_nil _)

theorem shuffled {keys : List (GroupKey Plan)} (hkeys : PlansStandIn S (keys.filterMap (·.expression)))
    {position : SourcePosition} (hposition : position ∈ S) {tuples : Collection Tuple}
    (ht : TuplesStandIn S tuples.records) :
    (ev.shuffled keys position c tuples).BlamesOnly S env fun d => TuplesStandIn S d.records :=
  .bind (.log (.bind_of (.collectionMapM fun t htuple => h.groupedTuple hc hkeys hposition (ht t htuple))
    fun _ hpairs => .bind (.count (.bind (.log (.collectionMapM fun group hgroup =>
      linearize_blames keys hposition (Collection.forall_groupByKey hpairs group hgroup)))))))

/-! ## Built-in functions -/

section
variable (b : Builtin) {arguments : List Plan} (ha : PlansStandIn S arguments)
include ha

theorem sourceLocation : (ev.sourceLocation b arguments c).BlamesOnly S env fun _ => True := by
  refine .bind_of (builtinArgument_blames b ha 0) fun p hp => .bind_of (h.optionalItem hc hp _) fun o _ => ?_
  rcases o with _ | i
  · exact .fault _
  · cases i <;> first | exact .pure trivial | exact .fault _

theorem sourcePartitions : (ev.sourcePartitions arguments c).BlamesOnly S env fun _ => True := by
  refine .bind (.environment ?_)
  cases hp : arguments[1]? with
  | none => exact .pure trivial
  | some p =>
    refine .bind_of (h.optionalItem hc (ha p (List.mem_of_getElem? hp)) _) fun o _ => ?_
    rcases o with _ | i
    · exact .pure trivial
    · cases i with
      | integer n =>
        dsimp only
        split
        · exact .pure trivial
        · exact .fault _
      | _ => exact .fault _

theorem wholeInput : (ev.wholeInput b arguments c).BlamesOnly S env (ItemsStandIn S) :=
  .bind_of (builtinArgument_blames b ha 0) fun _ hp => h.evaluate hp hc

theorem atomicInput :
    (ev.atomicInput b arguments c).BlamesOnly S env fun o => ∀ i ∈ o, Item.StandsIn S i :=
  .bind_of (builtinArgument_blames b ha 0) fun _ hp => h.optionalItem hc hp _

theorem sourceFrame : (ev.sourceFrame b arguments c).BlamesOnly S env (Frame.StandsIn S) := by
  cases b with
  | structuredJsonFile =>
    exact .bind_of (h.sourceLocation hc _ ha) fun location _ => Engine.jsonFrame_blames location
  | _ => exact .fault _

theorem sourceRows : (ev.sourceRows b arguments c).BlamesOnly S env (Collection.StandsIn S) := by
  cases b with
  | jsonFile =>
    exact .bind_of (h.sourceLocation hc _ ha) fun location _ => .bind_of (h.sourcePartitions hc ha)
      fun n _ => .bind_of (Engine.jsonLines_blames location n) fun _ hrows => countRecords_blames hrows
  | textFile =>
    refine .bind_of (h.sourceLocation hc _ ha) fun location _ => .bind_of (h.sourcePartitions hc ha)
      fun n _ => .bind_of (Engine.textLines_blames location n) fun lines _ => countRecords_blames ?_
    intro i hi
    rw [Collection.records_map] at hi
    obtain ⟨line, -, rfl⟩ := List.mem_map.mp hi
    exact .atomic rfl
  | structuredJsonFile =>
    exact .bind_of (h.sourceFrame hc _ ha) fun _ hframe => countRecords_blames (Frame.StandsIn.toRows hframe)
  | parallelize =>
    exact .bind_of (h.wholeInput hc _ ha) fun _ hs => .bind_of (h.sourcePartitions hc ha) fun _ _ =>
      .pure (Collection.standsIn_parallelize hs _)
  | _ => exact .fault _

theorem sourceItems : (ev.sourceItems b arguments c).BlamesOnly S env (ItemsStandIn S) :=
  .bind_of (h.sourceRows hc b ha) fun _ hrows => .bind_of (builtinArgument_blames b ha 0) fun _ hp =>
    (Engine.materialize_blames _ hp.position).only.mono fun _ hl i hi => hrows i (hl i hi)

theorem firstItem : (ev.firstItem b arguments c).BlamesOnly S env (ItemsStandIn S) := by
  refine .bind_of (builtinArgument_blames b ha 0) fun p hp => ?_
  split
  · exact .bind_of (h.rows hp hc) fun _ hrows => .pure fun i hi => hrows i (List.mem_of_mem_take hi)
  · exact h.firstOnHost hp hc

theorem isEmptyInput : (ev.isEmptyInput b arguments c).BlamesOnly S env fun _ => True := by
  refine .bind_of (builtinArgument_blames b ha 0) fun p hp => ?_
  split
  · exact .bind_of (h.rows hp hc) fun _ _ => .pure trivial
  · exact h.emptyOnHost hp hc

theorem inputCount : (ev.inputCount b arguments c).BlamesOnly S env fun _ => True := by
  refine .bind_of (builtinArgument_blames b ha 0) fun p hp => ?_
  cases p.mode with
  | columns => exact .bind_of (h.planFrame hp hc) fun _ _ => .pure trivial
  | rows => exact .bind_of (h.rows hp hc) fun _ _ => .pure trivial
  | unset | host => exact .bind_of (h.evaluate hp hc) fun _ _ => .pure trivial

theorem construct (type : ItemType) :
    (ev.construct b arguments c type).BlamesOnly S env (ItemsStandIn S) := by
  refine .bind_of (h.atomicInput hc b ha) fun o ho => ?_
  rcases o with _ | i
  · exact .pure (List.forall_mem_nil _)
  · have hi := ho i rfl
    cases i with
    | string text =>
      have hcast : EndsIn (Item.StandsIn S) (fun _ => True) (Item.cast text type) :=
        .of_forall_ok fun _ hcast => .atomic (Catalogue.isAtomic_of_cast hcast)
      exact .bind_of (.ofEndsIn hcast.toEngine) fun _ hi => .pure (List.forall_mem_singleton.mpr hi)
    | _ =>
      dsimp only
      split
      · exact .pure (List.forall_mem_singleton.mpr hi)
      · exact .fault _

theorem component {read : Item → EngineResult Sequence}
    (hread : ∀ i, EndsIn (ItemsStandIn S) (EngineError.BlamesOnly S) (read i)) :
    (ev.component b arguments c read).BlamesOnly S env (ItemsStandIn S) := by
  refine .bind_of (h.atomicInput hc b ha) fun o _ => ?_
  cases o with
  | none => exact .pure (List.forall_mem_nil _)
  | some i => exact .ofEndsIn (hread i)

theorem arraySize : (ev.arraySize b arguments c).BlamesOnly S env (ItemsStandIn S) := by
  refine .bind_of (builtinArgument_blames b ha 0) fun p hp => .bind_of (h.optionalItem hc hp _) fun o _ => ?_
  rcases o with _ | i
  · exact .pure (List.forall_mem_nil _)
  · cases i <;> first | exact .pure (List.forall_mem_singleton.mpr (.atomic rfl)) | exact .fault _

theorem builtinItems : (ev.builtinItems b arguments c).BlamesOnly S env (ItemsStandIn S) := by
  have hatomic {i : Item} (hi : i.isAtomic = true) : ItemsStandIn S [i] :=
    List.forall_mem_singleton.mpr (.atomic hi)
  cases b with
  | jsonFile | textFile | structuredJsonFile | parallelize => exact h.sourceItems hc _ ha
  | count => exact .bind_of (h.inputCount hc _ ha) fun _ _ => .pure (hatomic rfl)
  | empty | nonEmpty => exact .bind_of (h.isEmptyInput hc _ ha) fun _ _ => .pure (hatomic rfl)
  | sum =>
    exact .bind_of (h.wholeInput hc _ ha) fun s _ => .bind_of (.ofEndsIn s.sum_endsIn) fun _ hi =>
      .pure (List.forall_mem_singleton.mpr hi)
  | keys =>
    refine .bind_of (h.wholeInput hc _ ha) fun s _ => .pure fun i hi => ?_
    obtain ⟨key, -, rfl⟩ := List.mem_map.mp hi
    exact .atomic rfl
  | intersect =>
    exact .bind_of (h.wholeInput hc _ ha) fun _ hs =>
      .pure (List.forall_mem_singleton.mpr (Sequence.intersection_standsIn hs))
  | size => exact h.arraySize hc _ ha
  | head => exact h.firstItem hc _ ha
  | yearFromDateTime => exact h.component hc _ ha (yearOf_endsIn _)
  | timezoneFromTime => exact h.component hc _ ha (timezoneOf_endsIn _)
  | _ => exact h.construct hc _ ha _

end

/-! ## Nodes -/

theorem rangeBound {p : Plan} (hp : p.StandsIn S) : (ev.rangeBound p c).BlamesOnly S env fun _ => True := by
  refine .bind_of (h.optionalItem hc hp _) fun o _ => ?_
  rcases o with _ | i
  · exact .pure trivial
  · cases i <;> first | exact .pure trivial | exact .fault _

theorem compute (he : env.StandsIn S) {computation : Computation}
    (hp : PlansStandIn S computation.parts) :
    (ev.compute c computation).BlamesOnly S env (ItemsStandIn S) := by
  have hsingle {i : Item} (hi : i.StandsIn S) : ItemsStandIn S [i] := List.forall_mem_singleton.mpr hi
  cases computation with
  | literal value => exact .pure (hsingle (Item.standsIn_ofJson value))
  | contextItem => exact .ofEndsIn (contextItem_endsIn hc)
  | arithmetic op left right =>
    obtain ⟨hleft, hright⟩ := forall_mem_two.mp hp
    exact h.binary hc hleft hright fun l r => Item.arithmetic_endsIn op l r
  | comparison op left right =>
    obtain ⟨hleft, hright⟩ := forall_mem_two.mp hp
    exact h.binary hc hleft hright fun l r => (l.compare_endsIn r).map fun _ _ => .atomic rfl
  | logical op left right =>
    obtain ⟨hleft, hright⟩ := forall_mem_two.mp hp
    exact .bind_of (h.connective hc op hleft hright) fun _ _ => .pure (hsingle (.atomic rfl))
  | not operand =>
    exact .bind_of (h.evaluate (hp operand List.mem_cons_self) hc) fun s _ =>
      .bind_of (.ofEndsIn s.truth_endsIn) fun _ _ => .pure (hsingle (.atomic rfl))
  | object pairs =>
    refine .bind_of (h.objectPairs hc (fun pair hpair => ?_) (List.forall_mem_nil _)) fun _ hpairs =>
      .pure (hsingle (.object hpairs))
    exact forall_mem_two.mp fun p hmem => hp p (List.mem_flatMap.mpr ⟨pair, hpair, hmem⟩)
  | array members =>
    cases members with
    | none => exact .pure (hsingle (.array (List.forall_mem_nil _)))
    | some p =>
      exact .bind_of (h.evaluate (hp p List.mem_cons_self) hc) fun _ hs => .pure (hsingle (.array hs))
  | builtin b arguments => exact h.builtinItems hc b hp
  | inlineFunction parameters signature body =>
    exact .pure (hsingle (.function (hp body List.mem_cons_self) hc.snapshot))
  | functionRef name arity =>
    exact .bind_of (namedFunction_blames he name arity) fun _ hf =>
      .pure (hsingle (Item.standsIn_function.mpr hf))

end BlamesOnly
end PlanEvaluator
end HybridQuery
