import HybridQuery.Proofs.Blame.Computations
import HybridQuery.Proofs.Equality
import HybridQuery.Proofs.Groups.Shuffles
import HybridQuery.Proofs.Groups.Tuples
import HybridQuery.Proofs.Uniform.Cursors

/-!
# Tuples that bind given variables

Every clause makes its tuples of the tuples before it, and binds the same variables in all of them.

* `Tuple.BindsExactly`: a tuple binds each of some variables once, and no other variable.
* `ForVariables.expand_bindsExactly`, `PlanEvaluator.sortedRows_bindsExactly` and their like: one lemma for each
  function that makes tuples of tuples.
* `GroupBindsExactly`: groups of tuples that bind the same variables.
  `PlanEvaluator.linearize_bindsExactly`: so does the tuple of such a group.
-/

namespace HybridQuery

variable {env : Environment} {bound : List String}

/-! ## Bound variables -/

/-- The tuple binds each of the variables once, and no other variable. -/
structure Tuple.BindsExactly (bound : List String) (t : Tuple) : Prop where
  nodup : t.names.Nodup
  mem_iff : ∀ name, name ∈ t.names ↔ name ∈ bound

/-- Every tuple binds each of the variables once, and no other variable. -/
abbrev BindExactly (bound : List String) (tuples : List Tuple) : Prop :=
  ∀ t ∈ tuples, t.BindsExactly bound

/-- Every distributed tuple binds each of the variables once, and no other variable. -/
abbrev RowsBindExactly (bound : List String) (rows : Collection Tuple) : Prop :=
  BindExactly bound rows.records

namespace Tuple

theorem empty_bindsExactly : empty.BindsExactly [] := ⟨.nil, fun _ => .rfl⟩

theorem mem_names_bind {t : Tuple} {name other : String} {value : Value Item} :
    other ∈ (t.bind name value).names ↔ other ∈ t.names ∨ other = name := by
  rw [mem_names, mem_names, get?_bind]
  by_cases h : other = name <;> simp [h]

/-- A variable that is bound already keeps its place, and a new one is put behind the others. -/
theorem nodup_names_bind {t : Tuple} (h : t.names.Nodup) (name : String) (value : Value Item) :
    (t.bind name value).names.Nodup := by
  obtain ⟨pairs⟩ := t
  induction pairs with
  | nil => exact List.nodup_singleton name
  | cons p pairs ih =>
    obtain ⟨n, v⟩ := p
    obtain ⟨hfresh, hrest⟩ := List.nodup_cons.mp h
    by_cases hn : n = name
    · rw [bind, setPair, if_pos hn]
      exact h
    · have hkept : n ∉ (bind ⟨pairs⟩ name value).names := fun hmem =>
        (mem_names_bind.mp hmem).elim hfresh hn
      rw [bind, setPair, if_neg hn]
      exact List.nodup_cons.mpr ⟨hkept, ih hrest⟩

namespace BindsExactly

variable {t : Tuple}

theorem congr (h : t.BindsExactly bound) {others : List String}
    (hsame : ∀ name, name ∈ bound ↔ name ∈ others) : t.BindsExactly others :=
  ⟨h.nodup, fun name => (h.mem_iff name).trans (hsame name)⟩

theorem bind (h : t.BindsExactly bound) (name : String) (value : Value Item) :
    (t.bind name value).BindsExactly (bound ++ [name]) where
  nodup := nodup_names_bind h.nodup name value
  mem_iff other := by rw [mem_names_bind, h.mem_iff, List.mem_append, List.mem_singleton]

theorem bindAll {β : Type} (h : t.BindsExactly bound) (name : β → String) (value : β → Value Item)
    (l : List β) :
    (l.foldl (fun t b => t.bind (name b) (value b)) t).BindsExactly (bound ++ l.map name) := by
  induction l generalizing t bound with
  | nil => simpa using h
  | cons b l ih => simpa using ih (h.bind (name b) (value b))

end BindsExactly
end Tuple

/-! ## `for` and `count` -/

namespace ForVariables

variable (v : ForVariables)

/-- The variables of a `for` clause: that of the items, and that of their places if there is one. -/
def introduces : List String := v.item :: v.place.toList

theorem bind_bindsExactly {t : Tuple} (h : t.BindsExactly bound) (value : Value Item) (index : Nat) :
    (v.bind t value index).BindsExactly (bound ++ v.introduces) := by
  obtain ⟨item, place⟩ := v
  cases place with
  | none => exact h.bind item value
  | some place =>
    have hboth := (h.bind item value).bind place (.single (.integer (Int64.ofNat index)))
    rw [List.append_assoc] at hboth
    exact hboth

theorem expand_bindsExactly (allowingEmpty : Bool) {t : Tuple} (h : t.BindsExactly bound)
    (items : Sequence) : BindExactly (bound ++ v.introduces) (v.expand allowingEmpty t items) := by
  unfold expand
  split
  · exact List.forall_mem_singleton.mpr (v.bind_bindsExactly h .empty 0)
  · exact List.forall_mem_map.mpr fun x _ => v.bind_bindsExactly h (.single x.1) x.2

theorem sourceTuples_bindsExactly (allowingEmpty : Bool) (h : Tuple.empty.BindsExactly bound)
    (rows : Collection Item) :
    RowsBindExactly (bound ++ v.introduces) (v.sourceTuples allowingEmpty rows) := by
  rw [RowsBindExactly, records_sourceTuples]
  exact v.expand_bindsExactly allowingEmpty h rows.records

end ForVariables

theorem countTuple_bindsExactly (name : String) {t : Tuple} (h : t.BindsExactly bound) (place : Nat) :
    (countTuple name t place).BindsExactly (bound ++ [name]) := h.bind name _

theorem countedRows_bindsExactly (name : String) {tuples : Collection Tuple}
    (h : RowsBindExactly bound tuples) :
    RowsBindExactly (bound ++ [name]) (countedRows name tuples) := by
  rw [RowsBindExactly, countedRows, Collection.records_map, Collection.records_zipWithIndex]
  refine List.forall_mem_map.mpr fun x hx => ?_
  exact countTuple_bindsExactly name (h x.1 (List.fst_mem_of_mem_zipIdx hx)) _

/-! ## Groups -/

/-- Members of a group that bind the same variables. There is one at least, and the key has a component for each
of the keys that the group was made by. -/
structure GroupBindsExactly (keys : List (GroupKey Plan)) (bound : List String)
    (group : GroupingKey × List Tuple) : Prop where
  length_eq : group.1.length = keys.length
  ne_nil : group.2 ≠ []
  members : BindExactly bound group.2

/-- The variables of keys. -/
def keyNames (keys : List (GroupKey Plan)) : List String := keys.map (·.variableName)

theorem isOther_iff {keys : List (GroupKey Plan)} {name : String} :
    IsOther keys name ↔ name ∉ keyNames keys := by simp [IsOther, keyNames]

/-- Gathered pairs make groups of the tuples among them. -/
theorem Gathers.bindsExactly {keys : List (GroupKey Plan)} {pairs : List (GroupingKey × Tuple)}
    {groups : List (GroupingKey × List Tuple)} (h : Gathers GroupingKey.same pairs groups)
    (hpairs : ∀ p ∈ pairs, p.1.length = keys.length ∧ p.2.BindsExactly bound) :
    ∀ group ∈ groups, GroupBindsExactly keys bound group := by
  intro group hgroup
  obtain ⟨first, hfirst, hkey⟩ := h.exists_pair hgroup
  refine ⟨hkey ▸ (hpairs first hfirst).1, ?_, fun t ht => ?_⟩
  · rw [h.values_eq group hgroup]
    refine List.ne_nil_of_mem (List.mem_map_of_mem (List.mem_filter.mpr ⟨hfirst, ?_⟩))
    exact hkey ▸ GroupingKey.same_equivalence.refl first.1
  · rw [h.values_eq group hgroup] at ht
    obtain ⟨p, hp, rfl⟩ := List.mem_map.mp ht
    exact (hpairs p (List.mem_filter.mp hp).1).2

/-- The groups of distributed pairs are gathered, in some order. -/
theorem Collection.gathers_groupByKey (pairs : Collection (GroupingKey × Tuple)) :
    Gathers GroupingKey.same pairs.records (pairs.groupByKey GroupingKey.same GroupingKey.bucket).records :=
  (gathers_groupPairs GroupingKey.same_equivalence pairs.records).of_perm
    (@records_groupByKey_perm _ _ GroupingKey.same GroupingKey.bucket
      (fun _ _ => GroupingKey.bucket_eq_of_same) pairs).symm

/-! ## What evaluators make of tuples -/

namespace PlanEvaluator

section
variable (ev : PlanEvaluator) (context : Context) {tuples : Collection Tuple}
  (h : RowsBindExactly bound tuples)
include h

omit ev in
theorem expandedRows_bindsExactly (v : ForVariables) (allowingEmpty : Bool)
    (items : Context → Engine Sequence) :
    (expandedRows v allowingEmpty items context tuples).GivesOnly env
      (RowsBindExactly (bound ++ v.introduces)) :=
  .flatMapM fun t ht => .last fun items => .pure (v.expand_bindsExactly allowingEmpty (h t ht) items)

theorem boundRows_bindsExactly (name : String) (value : Plan) :
    (ev.boundRows name value context tuples).GivesOnly env
      (RowsBindExactly (bound ++ [name])) :=
  .collectionMapM fun t ht => .last fun items => .pure ((h t ht).bind name (.items items))

theorem keptRows_bindsExactly (condition : Plan) :
    (ev.keptRows condition context tuples).GivesOnly env (RowsBindExactly bound) :=
  (Engine.Meets.filterM fun _ _ => .trivial).mono fun _ hd t ht => h t (hd t ht)

omit h in
theorem keyedTuple_bindsExactly (keys : List (OrderKey Plan)) {t : Tuple} (h : t.BindsExactly bound) :
    (ev.keyedTuple keys context t).GivesOnly env fun x => x.2.BindsExactly bound :=
  .last fun _ => .pure h

theorem sortedRows_bindsExactly (keys : List (OrderKey Plan)) :
    (ev.sortedRows keys context tuples).GivesOnly env (RowsBindExactly bound) := by
  refine .bind_of (.collectionMapM fun t ht => ev.keyedTuple_bindsExactly context keys (h t ht))
    fun keyed hkeyed => ?_
  have hsorted : EndsIn
      (fun sorted : Collection Tuple => ∀ t ∈ sorted.records, ∃ key, (key, t) ∈ keyed.records)
      (fun _ => True) (keyed.sortKeyed (compareSortKeys keys)) :=
    Collection.sortKeyed_endsIn (fun _ _ _ _ => trivial) keyed
  refine .bind_of (.ofEndsIn hsorted) fun sorted hsorted => .last fun _ => .pure fun t ht => ?_
  obtain ⟨key, hmem⟩ := hsorted t ht
  exact hkeyed (key, t) hmem

end

/-! ### Grouping -/

section
variable (keys : List (GroupKey Plan)) (position : SourcePosition)

/-- A key binds its variables in the tuple and has a component for each of them. -/
theorem groupedFrom_bindsExactly (ev : PlanEvaluator) (context : Context) (tuple : Tuple) {keyed : Tuple}
    (h : keyed.BindsExactly bound) (done : GroupingKey) :
    (ev.groupedFrom position context tuple keys keyed done).GivesOnly env
      fun p => p.1.length = done.length + keys.length ∧ p.2.BindsExactly (bound ++ keyNames keys) := by
  induction keys generalizing keyed done bound with
  | nil => exact .pure ⟨rfl, by simpa [keyNames] using h⟩
  | cons key keys ih =>
    refine .last fun items => .last fun component => ?_
    refine (ih (h.bind key.variableName (keyValue component)) (done ++ [component])).mono ?_
    rintro p ⟨hlength, hbinds⟩
    refine ⟨?_, by simpa [keyNames] using hbinds⟩
    rw [hlength, List.length_append, List.length_singleton, List.length_cons, Nat.add_assoc, Nat.add_comm 1]

theorem groupedTuple_bindsExactly (ev : PlanEvaluator) (context : Context) {tuple : Tuple}
    (h : tuple.BindsExactly bound) :
    (ev.groupedTuple keys position context tuple).GivesOnly env
      fun p => p.1.length = keys.length ∧ p.2.BindsExactly (bound ++ keyNames keys) := by
  have hfrom := @groupedFrom_bindsExactly env bound keys position ev context tuple tuple h []
  simp only [List.length_nil, Nat.zero_add] at hfrom
  exact hfrom

/-- The values of a variable in a group can be gathered, and these are all of them. -/
def GathersValues (env : Environment) (position : SourcePosition) (name : String) (group : List Tuple)
    (items : Sequence) : Prop :=
  ∃ r r', groupValues position name group env r = .ok items r'

theorem groupValues_gathers (name : String) (group : List Tuple) :
    (groupValues position name group).GivesOnly env (GathersValues env position name group) := by
  intro r
  cases h : groupValues position name group env r with
  | ok items r' => exact ⟨r, r', h⟩
  | error f r' => trivial

/-- Variables are bound to what is gathered for them, once each. -/
theorem bindGroupValues_gathers (group : List Tuple) (names : List String) {t : Tuple}
    (h : t.BindsExactly bound)
    (hgathered : ∀ name ∈ bound, ∃ items, GathersValues env position name group items ∧
      t.get? name = some (.items items)) :
    (bindGroupValues position group names t).GivesOnly env fun t' =>
      t'.BindsExactly (bound ++ names) ∧ ∀ name ∈ bound ++ names, ∃ items,
        GathersValues env position name group items ∧ t'.get? name = some (.items items) := by
  induction names generalizing t bound with
  | nil => exact .pure (by simpa using ⟨h, hgathered⟩)
  | cons name names ih =>
    refine .bind_of (groupValues_gathers position name group) fun items hitems => ?_
    have hbound := ih (h.bind name (.items items)) fun other hother => by
      rw [Tuple.get?_bind]
      by_cases hname : other = name
      · exact ⟨items, hname ▸ hitems, if_pos hname⟩
      · rw [if_neg hname]
        exact hgathered other (by simpa [hname] using hother)
    simpa using hbound

/-- **The tuple of a group has the variables of all its members**, although they are taken from the first one
only: the keys, and every other variable with its values in the whole group. -/
theorem linearize_bindsExactly {group : GroupingKey × List Tuple}
    (h : GroupBindsExactly keys bound group) (hkeys : ∀ name ∈ keyNames keys, name ∈ bound) :
    (linearize keys position group).GivesOnly env fun t => t.BindsExactly bound ∧
      ∀ name ∈ bound, IsOther keys name → ∃ items,
        GathersValues env position name group.2 items ∧ t.get? name = some (.items items) := by
  obtain ⟨key, members⟩ := group
  obtain ⟨hlength, hne, hmembers⟩ := h
  obtain ⟨first, rest, rfl⟩ := List.exists_cons_of_ne_nil hne
  have hfirst := hmembers first List.mem_cons_self
  have hothers (name : String) : name ∈ first.others keys ↔ name ∈ bound ∧ IsOther keys name := by
    rw [Tuple.mem_others, ← Tuple.mem_names, hfirst.mem_iff]
  have hgather := @bindGroupValues_gathers env [] position (first :: rest) (first.others keys) .empty
    Tuple.empty_bindsExactly (List.forall_mem_nil _)
  rw [List.nil_append] at hgather
  refine .bind_of hgather fun t ⟨hbinds, hgathered⟩ => .pure ⟨?_, fun name hname hother => ?_⟩
  · have hnames : (keys.zip key).map (·.1.variableName) = keyNames keys := by
      conv_rhs => rw [keyNames, ← List.map_fst_zip hlength.ge, List.map_map]
      rfl
    have hbound := hbinds.bindAll (fun p : GroupKey Plan × Option Item => p.1.variableName)
      (fun p => keyValue p.2) (keys.zip key)
    rw [hnames] at hbound
    refine hbound.congr fun name => ?_
    rw [List.mem_append, hothers, isOther_iff]
    have hkey := hkeys name
    tauto
  · obtain ⟨items, hitems, hget⟩ := hgathered name ((hothers name).mpr ⟨hname, hother⟩)
    exact ⟨items, hitems, (Tuple.get?_bindKeys_of_isOther t hother).trans hget⟩

theorem linearized_bindsExactly {pairs : List (GroupingKey × Tuple)}
    (h : ∀ p ∈ pairs, p.1.length = keys.length ∧ p.2.BindsExactly (bound ++ keyNames keys)) :
    (linearized keys position pairs).GivesOnly env (BindExactly (bound ++ keyNames keys)) := by
  have hgroups := (gathers_groupPairs GroupingKey.same_equivalence pairs).bindsExactly h
  exact .listMapM fun group hgroup => (linearize_bindsExactly keys position (hgroups group hgroup)
    fun _ => List.mem_append_right _).mono fun _ => And.left

theorem shuffled_bindsExactly (ev : PlanEvaluator) (context : Context) {tuples : Collection Tuple}
    (h : RowsBindExactly bound tuples) :
    (ev.shuffled keys position context tuples).GivesOnly env
      (RowsBindExactly (bound ++ keyNames keys)) := by
  refine .last fun _ => .bind_of
    (.collectionMapM fun t ht => groupedTuple_bindsExactly keys position ev context (h t ht))
    fun pairs hpairs => .last fun _ => .last fun _ => ?_
  have hgroups := pairs.gathers_groupByKey.bindsExactly hpairs
  exact .collectionMapM fun group hgroup => (linearize_bindsExactly keys position (hgroups group hgroup)
    fun _ => List.mem_append_right _).mono fun _ => And.left

end

end PlanEvaluator
end HybridQuery
