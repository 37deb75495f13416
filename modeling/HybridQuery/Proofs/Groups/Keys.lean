import HybridQuery.Proofs.Grouping
import HybridQuery.Proofs.Meaning.Settling

/-!
# The keys of tuples

A tuple has a key if its components are evaluated one after the other, each where the components before
it are bound, and every one of them is empty or a single atomic. It lacks a key if at some component
either fails.

* `HasKey`, `LacksKey`: the two ways in which keys come out.
* `settles_groupedTuple_iff`, `raises_groupedTuple_iff`: a tuple is keyed if it has a key, and raises an
  error if it lacks one.
-/

namespace HybridQuery

variable {env : Environment} {context : Context} {position : SourcePosition}

/-! ## Components -/

/-- Items are a component of a key: nothing, or a single atomic. -/
inductive IsComponent : Sequence → Option Item → Prop
  | empty : IsComponent [] none
  | atomic {i : Item} (h : i.isAtomic = true) : IsComponent [i] (some i)

theorem groupingComponent_eq_ok_iff {name : String} {items : Sequence} {component : Option Item} :
    groupingComponent name items = .ok component ↔ IsComponent items component := by
  constructor
  · intro h
    match items with
    | [] => cases h; exact .empty
    | [i] =>
      rw [groupingComponent] at h
      split at h
      next hatomic => cases h; exact .atomic hatomic
      next => cases h
    | _ :: _ :: _ => cases h
  · rintro (_ | hatomic)
    · rfl
    · exact if_pos hatomic

/-- A component of a key, or an error that is blamed on a position. -/
theorem groupingComponent_locate_eq_ok_iff {name : String} {items : Sequence}
    {component : Option Item} :
    (groupingComponent name items).locate position = .ok component ↔ IsComponent items component := by
  rw [← @groupingComponent_eq_ok_iff name]
  cases groupingComponent name items <;> simp [EngineResult.locate, Except.mapError]

theorem exists_groupingComponent_locate_eq_error_iff {name : String} {items : Sequence} :
    (∃ e, (groupingComponent name items).locate position = .error e) ↔
      ∀ component, ¬ IsComponent items component := by
  simp only [← @groupingComponent_locate_eq_ok_iff position name]
  cases (groupingComponent name items).locate position <;> simp

/-! ## Keys -/

section
variable (env : Environment) (context : Context) (position : SourcePosition)

/-- What the items of a key come to in a tuple in which the keys before it are bound. -/
abbrev KeyItems (key : GroupKey Plan) (tuple keyed : Tuple) (d : EngineResult Sequence) : Prop :=
  Settles env (fun depth =>
    (Evaluator.ofDepth depth).plans.groupingItems key position context tuple keyed) d

/-- The components of a key from some key on. -/
inductive HasKeyFrom (tuple : Tuple) : List (GroupKey Plan) → Tuple → GroupingKey → Prop
  | nil {keyed : Tuple} : HasKeyFrom tuple [] keyed []
  | cons {key : GroupKey Plan} {keys : List (GroupKey Plan)} {keyed : Tuple} {items : Sequence}
      {component : Option Item} {k : GroupingKey}
      (hitems : KeyItems env context position key tuple keyed (.ok items))
      (hcomponent : IsComponent items component)
      (hrest : HasKeyFrom tuple keys (keyed.bind key.variableName (keyValue component)) k) :
      HasKeyFrom tuple (key :: keys) keyed (component :: k)

/-- Some component from some key on fails to evaluate, or it is neither empty nor a single atomic. -/
inductive LacksKeyFrom (tuple : Tuple) : List (GroupKey Plan) → Tuple → Prop
  | fails {key : GroupKey Plan} {keys : List (GroupKey Plan)} {keyed : Tuple} {e : EngineError}
      (hitems : KeyItems env context position key tuple keyed (.error e)) :
      LacksKeyFrom tuple (key :: keys) keyed
  | shape {key : GroupKey Plan} {keys : List (GroupKey Plan)} {keyed : Tuple} {items : Sequence}
      (hitems : KeyItems env context position key tuple keyed (.ok items))
      (hshape : ∀ component, ¬ IsComponent items component) :
      LacksKeyFrom tuple (key :: keys) keyed
  | later {key : GroupKey Plan} {keys : List (GroupKey Plan)} {keyed : Tuple} {items : Sequence}
      {component : Option Item}
      (hitems : KeyItems env context position key tuple keyed (.ok items))
      (hcomponent : IsComponent items component)
      (hrest : LacksKeyFrom tuple keys (keyed.bind key.variableName (keyValue component))) :
      LacksKeyFrom tuple (key :: keys) keyed

/-- The key of a tuple. -/
def HasKey (keys : List (GroupKey Plan)) (tuple : Tuple) (k : GroupingKey) : Prop :=
  HasKeyFrom env context position tuple keys tuple k

/-- A tuple has a component that fails to evaluate or is neither empty nor a single atomic. -/
def LacksKey (keys : List (GroupKey Plan)) (tuple : Tuple) : Prop :=
  LacksKeyFrom env context position tuple keys tuple

end

theorem HasKeyFrom.length_eq {tuple keyed : Tuple} {keys : List (GroupKey Plan)} {k : GroupingKey}
    (h : HasKeyFrom env context position tuple keys keyed k) : k.length = keys.length := by
  induction h with
  | nil => rfl
  | cons _ _ _ ih => rw [List.length_cons, List.length_cons, ih]

/-- A tuple with the variables of keys bound to the components of a key. -/
def Tuple.bindKeys (keys : List (GroupKey Plan)) (k : GroupingKey) (t : Tuple) : Tuple :=
  (keys.zip k).foldl (fun t p => t.bind p.1.variableName (keyValue p.2)) t

/-! ## Keyed tuples -/

theorem meant_groupingItems (key : GroupKey Plan) (tuple keyed : Tuple) :
    Meant env
      (fun depth => (Evaluator.ofDepth depth).plans.groupingItems key position context tuple keyed)
      fun depth => (Meaning.ofDepth depth).plans.groupingItems key position context tuple keyed :=
  .of_follows fun h => h.plans.groupingItems key position tuple keyed

theorem meant_groupedFrom (tuple : Tuple) (keys : List (GroupKey Plan)) (keyed : Tuple)
    (done : GroupingKey) :
    Meant env
      (fun depth => (Evaluator.ofDepth depth).plans.groupedFrom position context tuple keys keyed done)
      fun depth => (Meaning.ofDepth depth).plans.groupedFrom position context tuple keys keyed done :=
  .of_follows fun h => h.plans.groupedFrom position tuple keys keyed done

theorem meant_groupedRest (tuple : Tuple) (key : GroupKey Plan) (keys : List (GroupKey Plan))
    (keyed : Tuple) (done : GroupingKey) (items : Sequence) :
    Meant env
      (fun depth => do
        let component ← Run.ofResult ((groupingComponent key.variableName items).locate position)
        (Evaluator.ofDepth depth).plans.groupedFrom position context tuple keys
          (keyed.bind key.variableName (keyValue component)) (done ++ [component]))
      (fun depth => do
        let component ← Run.ofResult ((groupingComponent key.variableName items).locate position)
        (Meaning.ofDepth depth).plans.groupedFrom position context tuple keys
          (keyed.bind key.variableName (keyValue component)) (done ++ [component])) :=
  .of_follows fun h => (Tends.ofResult _).bind fun _ => h.plans.groupedFrom position tuple keys _ _

theorem settles_groupedFrom_iff {tuple : Tuple} {keys : List (GroupKey Plan)} {keyed : Tuple}
    {done : GroupingKey} {q : GroupingKey × Tuple} :
    Settles env (fun depth =>
        (Evaluator.ofDepth depth).plans.groupedFrom position context tuple keys keyed done) (.ok q) ↔
      ∃ k, HasKeyFrom env context position tuple keys keyed k ∧ (done ++ k, keyed.bindKeys keys k) = q := by
  induction keys generalizing keyed done with
  | nil =>
    simp only [PlanEvaluator.groupedFrom, settles_pure_iff]
    constructor
    · rintro rfl
      exact ⟨[], .nil, by rw [List.append_nil]; rfl⟩
    · rintro ⟨k, ⟨⟩, h⟩
      rw [List.append_nil] at h
      exact h
  | cons key keys ih =>
    simp only [PlanEvaluator.groupedFrom]
    rw [(meant_groupingItems key tuple keyed).settles_bind_iff
      fun items => meant_groupedRest tuple key keys keyed done items]
    simp only [Meant.settles_ofResult_bind_iff fun component => meant_groupedFrom tuple keys
      (keyed.bind key.variableName (keyValue component)) (done ++ [component]), ih,
      groupingComponent_locate_eq_ok_iff]
    constructor
    · rintro ⟨items, hitems, component, hcomponent, k, hk, rfl⟩
      exact ⟨component :: k, .cons hitems hcomponent hk, by rw [List.append_assoc]; rfl⟩
    · rintro ⟨k, hk, rfl⟩
      cases hk with
      | cons hitems hcomponent hrest =>
        exact ⟨_, hitems, _, hcomponent, _, hrest, by rw [List.append_assoc]; rfl⟩

theorem raises_groupedFrom_iff {tuple : Tuple} {keys : List (GroupKey Plan)} {keyed : Tuple}
    {done : GroupingKey} :
    Raises env (fun depth =>
        (Evaluator.ofDepth depth).plans.groupedFrom position context tuple keys keyed done) ↔
      LacksKeyFrom env context position tuple keys keyed := by
  induction keys generalizing keyed done with
  | nil => exact ⟨fun h => absurd h not_raises_pure, fun h => nomatch h⟩
  | cons key keys ih =>
    simp only [PlanEvaluator.groupedFrom]
    rw [(meant_groupingItems key tuple keyed).raises_bind_iff
      fun items => meant_groupedRest tuple key keys keyed done items]
    simp only [Meant.raises_ofResult_bind_iff fun component => meant_groupedFrom tuple keys
      (keyed.bind key.variableName (keyValue component)) (done ++ [component]), ih,
      groupingComponent_locate_eq_ok_iff, exists_groupingComponent_locate_eq_error_iff]
    constructor
    · rintro (⟨e, he⟩ | ⟨items, hitems, hshape | ⟨component, hcomponent, hrest⟩⟩)
      · exact .fails he
      · exact .shape hitems hshape
      · exact .later hitems hcomponent hrest
    · rintro (he | ⟨hitems, hshape⟩ | ⟨hitems, hcomponent, hrest⟩)
      · exact .inl ⟨_, he⟩
      · exact .inr ⟨_, hitems, .inl hshape⟩
      · exact .inr ⟨_, hitems, .inr ⟨_, hcomponent, hrest⟩⟩

theorem meant_groupedTuple (keys : List (GroupKey Plan)) (tuple : Tuple) :
    Meant env
      (fun depth => (Evaluator.ofDepth depth).plans.groupedTuple keys position context tuple)
      fun depth => (Meaning.ofDepth depth).plans.groupedTuple keys position context tuple :=
  meant_groupedFrom tuple keys tuple []

/-- A tuple is keyed if it has a key. -/
theorem settles_groupedTuple_iff {keys : List (GroupKey Plan)} {tuple : Tuple}
    {q : GroupingKey × Tuple} :
    Settles env (fun depth =>
        (Evaluator.ofDepth depth).plans.groupedTuple keys position context tuple) (.ok q) ↔
      ∃ k, HasKey env context position keys tuple k ∧ (k, tuple.bindKeys keys k) = q :=
  settles_groupedFrom_iff

/-- A tuple raises an error if it lacks a key. -/
theorem raises_groupedTuple_iff {keys : List (GroupKey Plan)} {tuple : Tuple} :
    Raises env (fun depth =>
        (Evaluator.ofDepth depth).plans.groupedTuple keys position context tuple) ↔
      LacksKey env context position keys tuple := raises_groupedFrom_iff

theorem HasKey.length_eq {keys : List (GroupKey Plan)} {tuple : Tuple} {k : GroupingKey}
    (h : HasKey env context position keys tuple k) : k.length = keys.length := HasKeyFrom.length_eq h

/-- A tuple that has a key does not lack it. -/
theorem HasKey.not_lacksKey {keys : List (GroupKey Plan)} {tuple : Tuple} {k : GroupingKey}
    (h : HasKey env context position keys tuple k) : ¬ LacksKey env context position keys tuple :=
  fun hlacks => (settles_groupedTuple_iff.mpr ⟨k, h, rfl⟩).not_raises
    (raises_groupedTuple_iff.mpr hlacks)

end HybridQuery
