import HybridQuery.Proofs.Recutting.Computations
import HybridQuery.Proofs.Spreading.Computations

/-!
# Clauses and built-in functions over values that are cut differently

* `PlanEvaluator.expandedRows_recut` and its like: what the clauses make of distributed tuples. Places are
  counted over all partitions.
* `PlanEvaluator.Recuts.sourceRows`, `PlanEvaluator.Recuts.builtinItems`: built-in functions. A source that
  does not say how many partitions it has gets as many as the environment says.
* `PlanEvaluator.Recuts.compute`: everything that yields all its items at once.
-/

namespace HybridQuery

/-! ## Clauses on distributed tuples -/

theorem Item.recut_integer (n : Int64) : Item.Recut (.integer n) (.integer n) := .atomic rfl

theorem Value.recut_empty : Value.Recut .empty .empty := .items .nil

theorem Value.Recut.single {i j : Item} (h : Item.Recut i j) : Value.Recut (.single i) (.single j) :=
  .items (.cons h .nil)

namespace ForVariables

variable (v : ForVariables)

theorem bind_recut {t u : Tuple} (ht : t.Recut u) {x y : Value Item} (hx : x.Recut y) (index : Nat) :
    (v.bind t x index).Recut (v.bind u y index) := by
  unfold bind
  cases v.place with
  | none => exact ht.bind v.item hx
  | some place => exact (ht.bind v.item hx).bind place (.single (Item.recut_integer _))

theorem expand_recut (allowingEmpty : Bool) {t u : Tuple} (ht : t.Recut u) {xs ys : Sequence}
    (h : xs.Recut ys) :
    List.Forall₂ Tuple.Recut (v.expand allowingEmpty t xs) (v.expand allowingEmpty u ys) := by
  unfold expand
  rw [isEmpty_forall₂ h]
  split
  · exact .cons (v.bind_recut ht Value.recut_empty 0) .nil
  · next hsome =>
    clear hsome
    generalize 1 = start
    induction h generalizing start with
    | nil => exact .nil
    | cons hi _ ih => exact .cons (v.bind_recut ht (.single hi) start) (ih (start + 1))

theorem sourceTuples_recut (allowingEmpty : Bool) {c d : Collection Item}
    (h : c.RecutBy Item.Recut d) :
    (v.sourceTuples allowingEmpty c).RecutBy Tuple.Recut (v.sourceTuples allowingEmpty d) := by
  rw [Collection.RecutBy, records_sourceTuples, records_sourceTuples]
  exact v.expand_recut allowingEmpty .empty h

end ForVariables

theorem countTuple_recut (name : String) {t u : Tuple} (h : t.Recut u) (place : Nat) :
    (countTuple name t place).Recut (countTuple name u place) :=
  h.bind name (.single (Item.recut_integer _))

theorem countedRows_recut (name : String) {c d : Collection Tuple} (h : c.RecutBy Tuple.Recut d) :
    (countedRows name c).RecutBy Tuple.Recut (countedRows name d) :=
  h.zipWithIndex.map fun (t, index) (u, _) ⟨ht, hindex⟩ => by
    cases hindex
    exact countTuple_recut name ht (index + 1)

namespace PlanEvaluator

theorem expandedRows_recut (v : ForVariables) (allowingEmpty : Bool)
    {items items' : Context → Engine Sequence}
    (hitems : ∀ c d, c.Recut d → Engine.Agree Sequence.Recut (items c) (items' d)) {c d : Context}
    (hc : c.Recut d) {tuples tuples' : Collection Tuple} (ht : tuples.RecutBy Tuple.Recut tuples') :
    Engine.Agree (Collection.RecutBy Tuple.Recut) (expandedRows v allowingEmpty items c tuples)
      (expandedRows v allowingEmpty items' d tuples') :=
  .flatMapM ht fun _ _ ht => .bind (hitems _ _ (hc.scope ht)) fun _ _ hs =>
    .pure (v.expand_recut allowingEmpty ht hs)

namespace Recuts

variable {ev : PlanEvaluator} (h : ev.Recuts) {c d : Context} (hc : c.Recut d)
include h hc

theorem boundRows (name : String) {value : Plan} (hp : value.IsPlain)
    {tuples tuples' : Collection Tuple} (ht : tuples.RecutBy Tuple.Recut tuples') :
    Engine.Agree (Collection.RecutBy Tuple.Recut) (ev.boundRows name value c tuples)
      (ev.boundRows name value d tuples') :=
  .mapM ht fun _ _ ht => .bind (h.evaluate hp (hc.scope ht)) fun _ _ hs =>
    .pure (ht.bind name (.items hs))

theorem keptRows {condition : Plan} (hp : condition.IsPlain) {tuples tuples' : Collection Tuple}
    (ht : tuples.RecutBy Tuple.Recut tuples') :
    Engine.Agree (Collection.RecutBy Tuple.Recut) (ev.keptRows condition c tuples)
      (ev.keptRows condition d tuples') :=
  .filterM ht fun _ _ ht => h.truth (hc.scope ht) hp

theorem projectedRows {result : Plan} (hp : result.IsPlain) {tuples tuples' : Collection Tuple}
    (ht : tuples.RecutBy Tuple.Recut tuples') :
    Engine.Agree (Collection.RecutBy Item.Recut) (ev.projectedRows result c tuples)
      (ev.projectedRows result d tuples') :=
  .flatMapM ht fun _ _ ht => h.evaluate hp (hc.scope ht)

/-! ## Sources -/

section
variable (b : Builtin) {arguments : List Plan} (ha : ∀ p ∈ arguments, p.IsPlain)
include ha

theorem sourceLocation :
    Engine.Agree (· = ·) (ev.sourceLocation b arguments c) (ev.sourceLocation b arguments d) := by
  refine .bind (builtinArgument_recut b ha 0) fun p _ ⟨hp, hplain⟩ => ?_
  cases hp
  refine .bind (h.optionalItem hc hplain _) fun o o' ho => ?_
  cases ho with
  | none => exact .fail _
  | some hi =>
    cases hi with
    | atomic ha =>
      rename_i i
      cases i <;> first | exact .pure rfl | exact .fail _
    | object | array | function => exact .fail _

/-- How many partitions a source has may differ, but not whether that is known. -/
theorem sourcePartitions :
    Engine.Agree (fun _ _ => True) (ev.sourcePartitions arguments c) (ev.sourcePartitions arguments d) := by
  refine .bind .environment fun env env' _ => ?_
  cases hp : arguments[1]? with
  | none => exact .pure trivial
  | some p =>
    refine .bind (h.optionalItem hc (ha p (List.mem_of_getElem? hp)) _) fun o o' ho => ?_
    cases ho with
    | none => exact .pure trivial
    | @some i j hi =>
      have htext := hi.text_eq fun _ _ => FunctionOf.Recut.identifier_eq
      cases hi with
      | atomic ha =>
        cases i with
        | integer n =>
          dsimp only
          split
          · exact .pure trivial
          · exact .fail _
        | object | array | function => cases ha
        | _ => exact .fail _
      | object | array | function =>
        simp only [Fault.badPartitionCount, htext]
        exact .fail _

theorem wholeInput :
    Engine.Agree Sequence.Recut (ev.wholeInput b arguments c) (ev.wholeInput b arguments d) :=
  .bind (builtinArgument_recut b ha 0) fun p _ ⟨hp, hplain⟩ => by
    cases hp
    exact h.evaluate hplain hc

theorem atomicInput :
    Engine.Agree (Option.Rel Item.Recut) (ev.atomicInput b arguments c)
      (ev.atomicInput b arguments d) :=
  .bind (builtinArgument_recut b ha 0) fun p _ ⟨hp, hplain⟩ => by
    cases hp
    exact h.optionalItem hc hplain _

theorem sourceFrame :
    Engine.Agree Frame.Recut (ev.sourceFrame b arguments c) (ev.sourceFrame b arguments d) := by
  cases b with
  | structuredJsonFile =>
    exact .bind (h.sourceLocation hc _ ha) fun location _ hl => by
      cases hl
      exact Engine.jsonFrame_recut location
  | _ => exact .fail _

theorem sourceRows :
    Engine.Agree (Collection.RecutBy Item.Recut) (ev.sourceRows b arguments c)
      (ev.sourceRows b arguments d) := by
  cases b with
  | jsonFile =>
    refine .bind (h.sourceLocation hc _ ha) fun location _ hl => ?_
    cases hl
    exact .bind (h.sourcePartitions hc ha) fun _ _ _ =>
      .bind (Engine.jsonLines_recut location _ _) fun _ _ hrows => countRecords_recut hrows
  | textFile =>
    refine .bind (h.sourceLocation hc _ ha) fun location _ hl => ?_
    cases hl
    exact .bind (h.sourcePartitions hc ha) fun _ _ _ =>
      .bind (Engine.textLines_recut location _ _) fun _ _ hlines =>
        countRecords_recut (hlines.map fun line _ hline => by cases hline; exact .atomic rfl)
  | structuredJsonFile =>
    exact .bind (h.sourceFrame hc _ ha) fun _ _ hframe => countRecords_recut hframe.toRows
  | parallelize =>
    exact .bind (h.wholeInput hc _ ha) fun _ _ hs => .bind (h.sourcePartitions hc ha) fun _ _ _ =>
      .pure (.parallelize hs _ _)
  | _ => exact .fail _

theorem sourceItems :
    Engine.Agree Sequence.Recut (ev.sourceItems b arguments c) (ev.sourceItems b arguments d) :=
  .bind (h.sourceRows hc b ha) fun _ _ hrows => .bind (builtinArgument_recut b ha 0)
    fun p _ ⟨hp, _⟩ => by
      cases hp
      exact Engine.materialize_recut hrows p.position

/-! ## Peeks and aggregates -/

theorem firstItem :
    Engine.Agree Sequence.Recut (ev.firstItem b arguments c) (ev.firstItem b arguments d) := by
  refine .bind (builtinArgument_recut b ha 0) fun p _ ⟨hp, hplain⟩ => ?_
  cases hp
  split
  · exact .bind (h.rows hplain hc) fun _ _ hrows => .pure (hrows.take 1)
  · exact h.firstOnHost hplain hc

theorem isEmptyInput :
    Engine.Agree (· = ·) (ev.isEmptyInput b arguments c) (ev.isEmptyInput b arguments d) := by
  refine .bind (builtinArgument_recut b ha 0) fun p _ ⟨hp, hplain⟩ => ?_
  cases hp
  split
  · exact .bind (h.rows hplain hc) fun _ _ hrows => .pure (isEmpty_forall₂ (hrows.take 1))
  · exact h.emptyOnHost hplain hc

theorem inputCount :
    Engine.Agree (· = ·) (ev.inputCount b arguments c) (ev.inputCount b arguments d) := by
  refine .bind (builtinArgument_recut b ha 0) fun p _ ⟨hp, hplain⟩ => ?_
  cases hp
  cases p.mode with
  | columns => exact .bind (h.planFrame hplain hc) fun _ _ hframe => .pure hframe.count_eq
  | rows => exact .bind (h.rows hplain hc) fun _ _ hrows => .pure hrows.count_eq
  | unset | host => exact .bind (h.evaluate hplain hc) fun _ _ hs => .pure hs.length_eq

/-! ## Constructors and components -/

theorem construct (type : ItemType) :
    Engine.Agree Sequence.Recut (ev.construct b arguments c type) (ev.construct b arguments d type) := by
  refine .bind (h.atomicInput hc b ha) fun o o' ho => ?_
  cases ho with
  | none => exact .pure .nil
  | some hi =>
    have hother {i j : Item} (hi : Item.Recut i j) : Engine.Agree Sequence.Recut
        (if i.typeName = type.name then pure [i] else Run.fail (.notConstructible b.name i))
        (if j.typeName = type.name then pure [j] else Run.fail (.notConstructible b.name j)) := by
      simp only [Fault.notConstructible, hi.typeName_eq]
      split
      · exact .pure (.cons hi .nil)
      · exact .fail _
    cases hi with
    | atomic ha =>
      rename_i i
      cases i with
      | string text =>
        have hcast : Agree Item.Recut (Item.cast text type).toEngine (Item.cast text type).toEngine :=
          Agree.mapError (.same fun _ hcast => .atomic (Catalogue.isAtomic_of_cast hcast)) _
        exact .bind (.ofResult hcast) fun _ _ hi => .pure (.cons hi .nil)
      | _ => exact hother (.atomic ha)
    | object hp => exact hother (.object hp)
    | array hm => exact hother (.array hm)
    | function hf => exact hother (.function hf)

theorem component {read : Item → EngineResult Sequence}
    (hread : ∀ i j, Item.Recut i j → Agree Sequence.Recut (read i) (read j)) :
    Engine.Agree Sequence.Recut (ev.component b arguments c read) (ev.component b arguments d read) := by
  refine .bind (h.atomicInput hc b ha) fun o o' ho => ?_
  cases ho with
  | none => exact .pure .nil
  | some hi => exact .ofResult (hread _ _ hi)

theorem arraySize :
    Engine.Agree Sequence.Recut (ev.arraySize b arguments c) (ev.arraySize b arguments d) := by
  refine .bind (builtinArgument_recut b ha 0) fun p _ ⟨hp, hplain⟩ => ?_
  cases hp
  refine .bind (h.optionalItem hc hplain _) fun o o' ho => ?_
  cases ho with
  | none => exact .pure .nil
  | some hi =>
    cases hi with
    | atomic ha =>
      rename_i i
      cases i <;> first | exact .fail _ | cases ha
    | array hm =>
      dsimp only
      rw [hm.length_eq]
      exact .pure (.cons (Item.recut_integer _) .nil)
    | object | function => exact .fail _

end

end Recuts

theorem yearOf_recut (b : Builtin) {i j : Item} (h : Item.Recut i j) :
    Agree Sequence.Recut (yearOf b i) (yearOf b j) := by
  cases h with
  | atomic ha =>
    cases i <;> first | exact .error _ | exact .ok (.cons (.atomic rfl) .nil)
  | object | array | function => exact .error _

theorem timezoneOf_recut (b : Builtin) {i j : Item} (h : Item.Recut i j) :
    Agree Sequence.Recut (timezoneOf b i) (timezoneOf b j) := by
  cases h with
  | atomic ha =>
    cases i with
    | time t =>
      refine .ok ?_
      cases t.offset with
      | none => exact .nil
      | some offset => exact .cons (.atomic rfl) .nil
    | _ => exact .error _
  | object | array | function => exact .error _

namespace Recuts

variable {ev : PlanEvaluator} (h : ev.Recuts) {c d : Context} (hc : c.Recut d)
include h hc

theorem builtinItems (b : Builtin) {arguments : List Plan} (ha : ∀ p ∈ arguments, p.IsPlain) :
    Engine.Agree Sequence.Recut (ev.builtinItems b arguments c) (ev.builtinItems b arguments d) := by
  have hatomic {i : Item} (hi : i.isAtomic = true) : Sequence.Recut [i] [i] := .cons (.atomic hi) .nil
  cases b with
  | jsonFile | textFile | structuredJsonFile | parallelize => exact h.sourceItems hc _ ha
  | count =>
    exact .bind (h.inputCount hc _ ha) fun n _ hn => by
      cases hn
      exact .pure (hatomic rfl)
  | empty | nonEmpty =>
    exact .bind (h.isEmptyInput hc _ ha) fun isEmpty _ hempty => by
      cases hempty
      exact .pure (hatomic rfl)
  | sum =>
    exact .bind (h.wholeInput hc _ ha) fun _ _ hs =>
      .bind (.ofResult (Sequence.sum_lift hs)) fun _ _ hi => .pure (.cons hi .nil)
  | keys =>
    exact .bind (h.wholeInput hc _ ha) fun s t hs => by
      rw [Sequence.allKeys_lift hs]
      refine .pure ?_
      change List.Forall₂ _ _ _
      rw [List.forall₂_map_left_iff, List.forall₂_map_right_iff, List.forall₂_same]
      exact fun _ _ => .atomic rfl
  | intersect =>
    exact .bind (h.wholeInput hc _ ha) fun _ _ hs => .pure (.cons (Sequence.intersection_lift hs) .nil)
  | size => exact h.arraySize hc _ ha
  | head => exact h.firstItem hc _ ha
  | yearFromDateTime => exact h.component hc _ ha fun _ _ => yearOf_recut _
  | timezoneFromTime => exact h.component hc _ ha fun _ _ => timezoneOf_recut _
  | _ => exact h.construct hc _ ha _

/-! ## Expressions on the host -/

theorem rangeBound {p : Plan} (hp : p.IsPlain) :
    Engine.Agree (· = ·) (ev.rangeBound p c) (ev.rangeBound p d) := by
  refine .bind (h.optionalItem hc hp _) fun o o' ho => ?_
  cases ho with
  | none => exact .pure rfl
  | some hi =>
    cases hi with
    | atomic ha =>
      rename_i i
      cases i <;> first | exact .pure rfl | exact .fail _
    | object | array | function => exact .fail _

omit h in
theorem contextItem : Agree Sequence.Recut (contextItem c) (contextItem d) := by
  have hl := hc.lookup contextItemName
  unfold PlanEvaluator.contextItem
  generalize c.lookup contextItemName = o, d.lookup contextItemName = o' at hl
  cases hl with
  | none => exact .error _
  | some hv =>
    cases hv with
    | items hs => exact .ok hs
    | rows | columns => exact .error _

theorem compute {computation : Computation} (hp : computation.IsPlain) :
    Engine.Agree Sequence.Recut (ev.compute c computation) (ev.compute d computation) := by
  cases hp with
  | literal value => exact .pure (.cons (Item.lift_ofJson value) .nil)
  | contextItem => exact .ofResult (contextItem hc)
  | arithmetic op hleft hright =>
    exact h.binary hc hleft hright fun _ _ _ => Item.isAtomic_of_arithmetic
  | comparison op hleft hright =>
    refine h.binary hc hleft hright fun l r i hi => ?_
    cases hcompare : l.compare r with
    | error e => rw [hcompare] at hi; cases hi
    | ok o => rw [hcompare] at hi; cases hi; rfl
  | logical op hleft hright =>
    exact .bind (h.connective hc op hleft hright) fun holds _ heq => by
      cases heq
      exact .pure (.cons (.atomic rfl) .nil)
  | not hp =>
    refine .bind (h.evaluate hp hc) fun s t hs => ?_
    rw [Sequence.truth_lift hs]
    exact .bind (.ofResult (.refl _)) fun holds _ heq => by
      cases heq
      exact .pure (.cons (.atomic rfl) .nil)
  | object hkeys hvalues =>
    exact .bind (h.objectPairs hc hkeys hvalues .nil) fun _ _ hpairs => .pure (.cons (.object hpairs) .nil)
  | @array members hp =>
    cases members with
    | none => exact .pure (.cons (.array .nil) .nil)
    | some p => exact .bind (h.evaluate (hp p rfl) hc) fun _ _ hs => .pure (.cons (.array hs) .nil)
  | builtin b ha => exact h.builtinItems hc b ha
  | inlineFunction parameters signature hbody =>
    exact .pure (.cons (.function (.of_closure hbody hc.snapshot)) .nil)
  | functionRef name arity =>
    exact .bind (namedFunction_recut name arity) fun _ _ hf => .pure (.cons (.function hf) .nil)

end Recuts
end PlanEvaluator
end HybridQuery
