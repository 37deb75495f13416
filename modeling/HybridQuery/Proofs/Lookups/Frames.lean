import HybridQuery.Item.Basic
import HybridQuery.Proofs.Recutting.Values

/-!
# Frames of objects

A frame of objects, and every frame that is projected from it, gives for a key the values that the list
gives which it holds. Objects that are put into columns read back as objects with the same values under the same
keys, and what is projected from a frame reads back as the values that its rows have.

* `Frame.Holds`: the list that a frame holds. Objects make a frame (`Frame.exists_ofObjects`).
* `Frame.partitions_select_objects`, `Frame.partitions_select_values`: the values of a key, partition by
  partition, in a frame of objects and in one that was projected before.
* `Frame.Holds.records_select`: the values of a key.
* `Item.ReadsBackAs`: an object and what it reads back as. `Item.readsBackAs_projected` is the one row.
* `Frame.Readable`: the frames that are made of objects, and those that are projected.
  `Frame.Readable.partitions_select` is one projection.
* `Frame.keeps_objects`: frames lose nothing.
-/

namespace HybridQuery

/-- The values of a key in objects that have it. -/
def Sequence.valuesOf (key : String) (objects : List Item) : List Item := objects.filterMap (·.member? key)

open Sequence (valuesOf allKeys)

/-- An object has a value for its keys only. -/
theorem Item.member?_eq_none_iff {i : Item} {key : String} : i.member? key = none ↔ key ∉ i.keys := by
  cases i with
  | object pairs =>
    rw [member?, List.lookup_eq_none_iff, keys, List.mem_map, not_exists]
    refine forall_congr' fun p => ?_
    rw [not_and, bne_iff_ne, ne_comm]
  | _ => simp [member?, keys]

theorem Sequence.keys_subset_allKeys {i : Item} {items : Sequence} (hi : i ∈ items) :
    i.keys ⊆ items.allKeys := fun _ hkey =>
  List.mem_eraseDups.mpr (List.mem_flatMap.mpr ⟨i, hi, hkey⟩)

namespace Frame

/-- The list that a frame holds: the objects that it is made of, or what earlier projections left of them. -/
inductive Holds : Frame Item → Sequence → Prop
  | objects {c : Collection Item} {frame : Frame Item} (h : ofObjects c = .ok frame) :
      Holds frame c.records
  | select {frame : Frame Item} {items : Sequence} (h : Holds frame items) (key : String) :
      Holds (frame.select key) (valuesOf key items)

variable {c : Collection Item} {frame : Frame Item} {items : Sequence}

theorem keysOf_objects (h : ∀ i ∈ items, i.isObject = true) :
    keysOf items = .ok (items.flatMap Item.keys) := by
  have hfind : items.find? (!·.isObject) = none := by simpa using h
  rw [keysOf, hfind]

/-- Objects make a frame, wherever they are cut. -/
theorem exists_ofObjects (h : ∀ i ∈ c.records, i.isObject = true) :
    ∃ frame, ofObjects c = .ok frame := by
  have hkeys := (flatten_mapM_keysOf c.partitions).trans (keysOf_objects h)
  unfold ofObjects
  cases hk : c.partitions.mapM keysOf with
  | error e => rw [hk] at hkeys; cases hkeys
  | ok keys => exact ⟨_, rfl⟩

/-- A frame of objects has a column for each of their keys, as they are first seen. -/
theorem ofObjects_eq_ok (h : ofObjects c = .ok frame) :
    frame = ⟨Sequence.allKeys c.records,
      c.partitions.map (Chunk.ofObjects (Sequence.allKeys c.records)), .objects⟩ := by
  unfold ofObjects at h
  have hkeys := flatten_mapM_keysOf c.partitions
  cases hk : c.partitions.mapM keysOf with
  | error e => rw [hk] at h; cases h
  | ok keys =>
    rw [hk] at h hkeys
    cases h
    have hall : keysOf c.records = .ok keys.flatten := hkeys.symm
    unfold keysOf at hall
    split at hall
    · cases hall
    · rw [Sequence.allKeys, Except.ok.inj hall]

/-! ## Projections, partition by partition -/

theorem records_of_partitions {c d : Collection Item} {key : String}
    (h : d.partitions = c.partitions.map (valuesOf key)) : d.records = valuesOf key c.records := by
  rw [Collection.records, h, Collection.records, valuesOf, List.filterMap_flatten]
  rfl

theorem partitions_select_objects (h : ofObjects c = .ok frame) (key : String) :
    (frame.select key).toRows.partitions = c.partitions.map (valuesOf key) := by
  rw [ofObjects_eq_ok h, toRows, select, List.map_map, List.map_map]
  refine List.map_congr_left fun p hp => ?_
  rw [Function.comp_apply, Function.comp_apply, chunkRows, firstColumn_selectChunk, List.filterMap_map,
    valuesOf]
  refine List.filterMap_congr fun i hi => ?_
  have hkeys := Sequence.keys_subset_allKeys (List.mem_flatten_of_mem hp hi)
  by_cases hkey : key ∈ Sequence.allKeys c.records
  · rw [Function.comp_apply, if_pos hkey, id]
  · rw [Function.comp_apply, if_neg hkey, id, Item.member?_eq_none_iff.mpr fun hi' => hkey (hkeys hi')]

/-- In a projected frame a key is looked up in the values themselves. -/
theorem partitions_select_values (frame : Frame Item) (earlier key : String) :
    ((frame.select earlier).select key).toRows.partitions =
      (frame.select earlier).toRows.partitions.map (valuesOf key) := by
  simp only [toRows, select, List.map_map]
  refine List.map_congr_left fun chunk _ => ?_
  simp only [Function.comp_apply, chunkRows, selectChunk, Chunk.firstColumn, List.head?_cons,
    Option.getD_some, valuesOf, List.filterMap_map, List.filterMap_filterMap]
  refine List.filterMap_congr fun cell _ => ?_
  cases cell <;> rfl

/-- Projecting a key is looking it up in the list that the frame holds. -/
theorem Holds.records_select (h : frame.Holds items) (key : String) :
    (frame.select key).toRows.records = valuesOf key items := by
  induction h generalizing key with
  | objects h => exact records_of_partitions (partitions_select_objects h key)
  | select h earlier ih => rw [records_of_partitions (partitions_select_values _ _ key), ih]

end Frame

/-! ## One row -/

namespace Item

/-- An object and what it reads back as from columns. -/
structure ReadsBackAs (columns : List String) (original row : Item) : Prop where
  isObject : row.isObject = true
  /-- Under each key the first value that the original has there. -/
  member?_eq : ∀ key, row.member? key = original.member? key
  /-- No other keys, each once, in the order of the columns. -/
  keys_eq : row.keys = columns.filter (· ∈ original.keys)

theorem member?_projected (names : List String) (i : Item) (key : String) :
    (i.projected names).member? key = if key ∈ names then i.member? key else none := by
  rw [projected, member?]
  induction names with
  | nil => rfl
  | cons name names ih =>
    rw [List.filterMap_cons]
    by_cases hname : key = name
    · subst hname
      cases hvalue : i.member? key with
      | some value => simp
      | none => simp [ih, hvalue]
    · cases i.member? name with
      | some value => simp [List.lookup_cons, beq_false_of_ne hname, hname, ih]
      | none => simp [hname, ih]

theorem keys_projected (names : List String) (i : Item) :
    (i.projected names).keys = names.filter (· ∈ i.keys) := by
  rw [projected, keys, List.map_filterMap]
  induction names with
  | nil => rfl
  | cons name names ih =>
    rw [List.filterMap_cons, List.filter_cons, ih]
    cases hvalue : i.member? name with
    | some value =>
      have hkey : name ∈ i.keys := by
        by_contra hkey
        rw [member?_eq_none_iff.mpr hkey] at hvalue
        cases hvalue
      simp [hkey]
    | none => simp [member?_eq_none_iff.mp hvalue]

/-- An object reads back from any columns that have all its keys. -/
theorem readsBackAs_projected {columns : List String} {i : Item} (h : i.keys ⊆ columns) :
    ReadsBackAs columns i (i.projected columns) where
  isObject := rfl
  member?_eq key := by
    rw [member?_projected]
    split
    · rfl
    · exact (member?_eq_none_iff.mpr fun hkey => ‹key ∉ columns› (h hkey)).symm
  keys_eq := keys_projected columns i

end Item

theorem Sequence.valuesOf_congr {originals rows : Sequence} {columns : List String} (key : String)
    (h : List.Forall₂ (Item.ReadsBackAs columns) originals rows) :
    valuesOf key rows = valuesOf key originals := by
  induction h with
  | nil => rfl
  | cons hrow _ ih => rw [valuesOf, valuesOf, List.filterMap_cons, List.filterMap_cons,
      hrow.member?_eq, ← valuesOf, ← valuesOf, ih]

/-! ## All rows -/

namespace Frame

variable {c : Collection Item} {frame : Frame Item}

/-- Objects read back where they were. -/
theorem partitions_toRows_objects (h : ofObjects c = .ok frame) :
    List.Forall₂ (List.Forall₂ (Item.ReadsBackAs frame.columns)) c.partitions
      frame.toRows.partitions := by
  rw [ofObjects_eq_ok h, toRows, List.map_map, List.forall₂_map_right_iff, List.forall₂_same]
  intro p hp
  rw [Function.comp_apply, chunkRows_ofObjects, List.forall₂_map_right_iff, List.forall₂_same]
  exact fun i hi =>
    Item.readsBackAs_projected (Sequence.keys_subset_allKeys (List.mem_flatten_of_mem hp hi))

/-- The frames that queries read: those of objects, and what is projected from any. -/
inductive Readable : Frame Item → Prop
  | objects {c : Collection Item} {frame : Frame Item} (h : ofObjects c = .ok frame) : Readable frame
  | select (frame : Frame Item) (key : String) : Readable (frame.select key)

theorem Readable.partitions_select (h : frame.Readable) (key : String) :
    (frame.select key).toRows.partitions = frame.toRows.partitions.map (valuesOf key) := by
  cases h with
  | select frame earlier => exact partitions_select_values frame earlier key
  | objects h =>
    rw [partitions_select_objects h]
    exact List.forall₂_eq_eq_eq ▸ List.forall₂_map_left_iff.mpr (List.forall₂_map_right_iff.mpr
      ((partitions_toRows_objects h).imp fun _ _ hrows => (Sequence.valuesOf_congr key hrows).symm))

theorem Readable.foldl_select (h : frame.Readable) (keys : List String) :
    (keys.foldl Frame.select frame).Readable := by
  induction keys generalizing frame with
  | nil => exact h
  | cons key keys ih => exact ih (.select frame key)

/-- **Frames lose nothing.** Partitioned objects make a frame. Its columns are their keys in the order in
which they are first seen, and it reads back in the same partitions as the objects: each with the same
values under the same keys, in the order of the columns. After any number of projections one more gives
for each partition the values that the rows there have under the key, and a frame counts its rows. -/
theorem keeps_objects (h : ∀ i ∈ c.records, i.isObject = true) :
    ∃ frame, ofObjects c = .ok frame ∧
      frame.columns = allKeys c.records ∧
      List.Forall₂ (List.Forall₂ (Item.ReadsBackAs frame.columns)) c.partitions
        frame.toRows.partitions ∧
      ∀ keys : List String,
        (∀ key, ((keys.foldl select frame).select key).toRows.partitions =
          (keys.foldl select frame).toRows.partitions.map (valuesOf key)) ∧
        (keys.foldl select frame).count = (keys.foldl select frame).toRows.records.length := by
  obtain ⟨frame, hframe⟩ := exists_ofObjects h
  have hreadable (keys : List String) : (keys.foldl select frame).Readable :=
    (Readable.objects hframe).foldl_select keys
  refine ⟨frame, hframe, by rw [ofObjects_eq_ok hframe], partitions_toRows_objects hframe,
    fun keys => ⟨(hreadable keys).partitions_select, count_eq _⟩⟩

/-- Objects in three partitions, one of them empty: a key stands twice in one object, and a nested key
is not in every value. -/
theorem keeps_objects_nested :
    let c : Collection Item :=
      ⟨[[.object [("p", .object [("q", .integer 9)]), ("a", .null), ("p", .null)]], [],
        [.object [("b", .null)], .object [("a", .integer 3), ("p", .object [("r", .null)])]]]⟩
    (∀ i ∈ c.records, i.isObject = true) ∧ ∃ frame, ofObjects c = .ok frame ∧
      frame.columns = ["p", "a", "b"] ∧
      List.Forall₂ (List.Forall₂ (Item.ReadsBackAs frame.columns)) c.partitions
        frame.toRows.partitions ∧
      ((frame.select "p").select "q").toRows.partitions =
        (frame.select "p").toRows.partitions.map (valuesOf "q") ∧
      ((frame.select "p").select "q").toRows.partitions = [[.integer 9], [], []] ∧
      (frame.select "p").count = 2 := by
  intro c
  have hobjects : ∀ i ∈ c.records, i.isObject = true := by simp [c, Collection.records, Item.isObject]
  obtain ⟨frame, hframe, hcolumns, hrows, hselect⟩ := keeps_objects hobjects
  cases hframe
  exact ⟨hobjects, _, rfl, hcolumns.trans rfl, hrows, (hselect ["p"]).1 "q", rfl, rfl⟩

end Frame
end HybridQuery
