import HybridQuery.Proofs.Lookups.Frames

/-!
# What objects have in common

The intersection of objects goes through them one by one: the keys of the first are collected with their values,
and every further object drops the keys that it does not have and adds its values to the others.

* `Sequence.CollectsKeys`, `Sequence.Collects`: what was collected from a part of the keys of the first object,
  and from the objects up to some place.
* `Sequence.CollectsKeys.addKey`, `Sequence.Collects.narrow`: one key, and one object.
* `Sequence.collects_collect`, `Sequence.Collects.foldl`: all of them.
* `Sequence.intersection_exact`: keys and values of the intersection.
-/

namespace HybridQuery

theorem Item.mem_keys_iff {i : Item} {key : String} : key ∈ i.keys ↔ ∃ value, i.member? key = some value := by
  rw [← Option.isSome_iff_exists, ← Option.ne_none_iff_isSome, ne_eq, Item.member?_eq_none_iff, not_not]

namespace Sequence

/-- The keys under which something was collected. -/
def Collected.keys (collected : Collected) : List String := collected.map (·.1)

/-- What is done with the collected values leaves the keys as they are. -/
theorem Collected.keys_map {collected : Collected} {f : String × List Item → String × Item}
    (hf : ∀ p, (f p).1 = p.1) : (collected.map f).map (·.1) = collected.keys := by
  rw [List.map_map]
  exact List.map_congr_left fun p _ => hf p

variable {first object : Item} {done rest : List String} {others : List Item} {collected : Collected}
  {key : String}

/-! ## The keys of the first object -/

/-- What was collected from some keys of an object: each of them once, in the order in which they first stand
there, with its value. -/
structure CollectsKeys (first : Item) (done : List String) (collected : Collected) : Prop where
  inOrder : collected.keys.Pairwise fun a b => first.keys.idxOf a < first.keys.idxOf b
  mem_iff : ∀ key, key ∈ collected.keys ↔ key ∈ done
  values : ∀ p ∈ collected, ∃ value, first.member? p.1 = some value ∧ p.2 = [value]

/-- The next key is added after all others if it is new. -/
theorem CollectsKeys.addKey (h : CollectsKeys first done collected) (hkeys : first.keys = done ++ key :: rest) :
    CollectsKeys first (done ++ [key]) (addKey first collected key) := by
  obtain ⟨value, hvalue⟩ := Item.mem_keys_iff.mp (show key ∈ first.keys by simp [hkeys])
  have hany : collected.any (·.1 == key) = true ↔ key ∈ done := by
    rw [← h.mem_iff, Collected.keys, List.any_eq_true, List.mem_map]
    simp only [beq_iff_eq]
  rw [Sequence.addKey, hvalue]
  dsimp only
  split
  case isTrue hold =>
    refine ⟨h.inOrder, fun other => ?_, h.values⟩
    have hmem := hany.mp hold
    rw [h.mem_iff, List.mem_append, List.mem_singleton]
    exact ⟨.inl, fun hother => hother.elim id fun heq => heq ▸ hmem⟩
  case isFalse hnew =>
    have hnotMem : key ∉ done := fun hmem => hnew (hany.mpr hmem)
    have hplace : first.keys.idxOf key = done.length := by
      rw [hkeys, List.idxOf_append_of_notMem hnotMem, List.idxOf_cons_self, Nat.add_zero]
    refine ⟨?_, fun other => ?_, fun p hp => ?_⟩
    · rw [Collected.keys, List.map_append, List.pairwise_append]
      refine ⟨h.inOrder, List.pairwise_singleton _ _, fun a ha b hb => ?_⟩
      obtain rfl : b = key := by simpa using hb
      have hmem : a ∈ done := (h.mem_iff a).mp ha
      rw [hplace, hkeys, List.idxOf_append_of_mem hmem]
      exact List.idxOf_lt_length_of_mem hmem
    · rw [Collected.keys, List.map_append, List.mem_append, List.mem_append]
      exact or_congr (h.mem_iff other) (by simp)
    · obtain hp | hp := List.mem_append.mp hp
      · exact h.values p hp
      · obtain rfl := List.mem_singleton.mp hp
        exact ⟨value, hvalue, rfl⟩

/-- The rest of the keys is collected key by key. -/
theorem CollectsKeys.foldl (h : CollectsKeys first done collected) (hkeys : first.keys = done ++ rest) :
    CollectsKeys first first.keys (rest.foldl (Sequence.addKey first) collected) := by
  induction rest generalizing done collected with
  | nil =>
    rw [hkeys, List.append_nil]
    exact h
  | cons key rest ih => exact ih (h.addKey hkeys) (by rw [hkeys, List.append_assoc, List.singleton_append])

/-! ## Object by object -/

/-- What was collected from objects: the keys that all of them have, in the order in which they first stand in
the first one, with their values in all objects. -/
structure Collects (first : Item) (others : List Item) (collected : Collected) : Prop where
  inOrder : collected.keys.Pairwise fun a b => first.keys.idxOf a < first.keys.idxOf b
  mem_iff : ∀ key, key ∈ collected.keys ↔ ∀ object ∈ first :: others, key ∈ object.keys
  values : ∀ p ∈ collected, List.Forall₂ (fun object value => object.member? p.1 = some value) (first :: others) p.2

theorem collects_collect (first : Item) : Collects first [] (collect first) := by
  have hnone : CollectsKeys first [] [] := ⟨.nil, by simp [Collected.keys], by simp⟩
  obtain ⟨inOrder, mem_iff, values⟩ := hnone.foldl (List.nil_append _).symm
  refine ⟨inOrder, fun key => by rw [List.forall_mem_singleton]; exact mem_iff key, fun p hp => ?_⟩
  obtain ⟨value, hvalue, hp⟩ := values p hp
  rw [hp]
  exact .cons hvalue .nil

theorem mem_narrow {p : String × List Item} :
    p ∈ narrow collected object ↔
      ∃ values value, (p.1, values) ∈ collected ∧ object.member? p.1 = some value ∧ p.2 = values ++ [value] := by
  obtain ⟨key, all⟩ := p
  simp only [narrow, List.mem_filterMap, Option.map_eq_some_iff, Prod.mk.injEq, Prod.exists]
  constructor
  · rintro ⟨key, values, hp, value, hvalue, rfl, rfl⟩
    exact ⟨values, value, hp, hvalue, rfl⟩
  · rintro ⟨values, value, hp, hvalue, rfl⟩
    exact ⟨key, values, hp, value, hvalue, rfl, rfl⟩

/-- An object leaves the keys that it has, in their order. -/
theorem keys_narrow (collected : Collected) (object : Item) :
    (narrow collected object).keys = collected.keys.filter fun key => (object.member? key).isSome := by
  induction collected with
  | nil => rfl
  | cons p collected ih =>
    obtain ⟨key, values⟩ := p
    simp only [Collected.keys, narrow] at ih ⊢
    rw [List.filterMap_cons, List.map_cons, List.filter_cons]
    cases hm : object.member? key with
    | none => simpa [hm] using ih
    | some value => simpa [hm] using ih

/-- A further object drops the keys that it does not have and adds its values. -/
theorem Collects.narrow (h : Collects first others collected) (object : Item) :
    Collects first (others ++ [object]) (narrow collected object) where
  inOrder := by
    rw [keys_narrow]
    exact h.inOrder.filter _
  mem_iff key := by
    rw [keys_narrow, List.mem_filter, h.mem_iff, Option.isSome_iff_exists, ← Item.mem_keys_iff, ← List.cons_append,
      List.forall_mem_append, List.forall_mem_singleton]
  values p hp := by
    obtain ⟨values, value, hold, hvalue, hp⟩ := mem_narrow.mp hp
    rw [hp, ← List.cons_append]
    exact List.rel_append (h.values _ hold) (.cons hvalue .nil)

theorem Collects.foldl (h : Collects first others collected) (rest : List Item) :
    Collects first (others ++ rest) (rest.foldl Sequence.narrow collected) := by
  induction rest generalizing others collected with
  | nil =>
    rw [List.append_nil]
    exact h
  | cons object rest ih =>
    rw [← List.singleton_append, ← List.append_assoc]
    exact ih (h.narrow object)

/-! ## The intersection -/

/-- What the values of a key in objects come to: the one value, or the array of several. -/
inductive ValuesComeTo (key : String) : List Item → Item → Prop where
  | single {object value : Item} (h : object.member? key = some value) : ValuesComeTo key [object] value
  | several {a b : Item} {rest values : List Item}
    (h : List.Forall₂ (fun object value => object.member? key = some value) (a :: b :: rest) values) :
    ValuesComeTo key (a :: b :: rest) (.array values)

theorem valuesComeTo_commonValue {objects values : List Item} (hne : objects ≠ [])
    (h : List.Forall₂ (fun object value => object.member? key = some value) objects values) :
    ValuesComeTo key objects (commonValue values) := by
  cases h with
  | nil => exact absurd rfl hne
  | cons ha hr =>
    cases hr with
    | nil => exact .single ha
    | cons hb hr => exact .several (.cons ha (.cons hb hr))

/-- **What the intersection is.** It is an object. Its keys are those that stand in every object of the sequence,
and none if there is no object; each stands once, and they stand in the order in which they first stand in the
first object. The value of a key is its value in the object if there is one only, and otherwise the array of its
values in all objects in their order; of pairs with one key the first counts. -/
theorem intersection_exact (items : Sequence) :
    let objects := items.filter Item.isObject
    ∃ pairs, items.intersection = .object pairs ∧
      (pairs.map (·.1)).Nodup ∧
      (∀ key, key ∈ pairs.map (·.1) ↔ objects ≠ [] ∧ ∀ object ∈ objects, key ∈ object.keys) ∧
      (∀ first ∈ objects.head?, (pairs.map (·.1)).Pairwise fun a b => first.keys.idxOf a < first.keys.idxOf b) ∧
      ∀ p ∈ pairs, ValuesComeTo p.1 objects p.2 := by
  intro objects
  have hobjects : items.filter Item.isObject = objects := rfl
  rw [intersection, hobjects]
  clear_value objects
  cases objects with
  | nil => exact ⟨[], rfl, .nil, by simp, by simp, by simp⟩
  | cons first rest =>
    have hc : Collects first rest (rest.foldl Sequence.narrow (collect first)) := (collects_collect first).foldl rest
    dsimp only
    generalize rest.foldl Sequence.narrow (collect first) = collected at hc
    refine ⟨_, rfl, ?_, fun key => ?_, fun _ hfirst => ?_, fun p hp => ?_⟩
    · rw [Collected.keys_map fun _ => rfl]
      refine hc.inOrder.imp fun {a b} hlt heq => ?_
      rw [heq] at hlt
      exact Nat.lt_irrefl _ hlt
    · rw [Collected.keys_map fun _ => rfl, hc.mem_iff]
      simp
    · obtain rfl : first = _ := by simpa using hfirst
      rw [Collected.keys_map fun _ => rfl]
      exact hc.inOrder
    · obtain ⟨⟨key, values⟩, hold, rfl⟩ := List.mem_map.mp hp
      exact valuesComeTo_commonValue (List.cons_ne_nil _ _) (hc.values _ hold)

/-- Objects between other items, with keys that repeat: `b` is dropped by the second object, and the first pair
with a key counts. A single object keeps its values as they are. -/
theorem intersection_exact_interleaved :
    let a : Item := .object [("a", .integer 1), ("b", .integer 2), ("a", .integer 3), ("c", .null)]
    let b : Item := .object [("c", .integer 4), ("a", .integer 5), ("c", .integer 6)]
    let items : Sequence := [.integer 0, a, .array [a], b, .object [("b", .null), ("a", .null), ("c", .null)]]
    items.intersection = .object
        [("a", .array [.integer 1, .integer 5, .null]), ("c", .array [.null, .integer 4, .null])] ∧
      ValuesComeTo "a" (items.filter Item.isObject) (.array [.integer 1, .integer 5, .null]) ∧
      Sequence.intersection [.null, b] = .object [("c", .integer 4), ("a", .integer 5)] ∧
      ValuesComeTo "c" [b] (.integer 4) := by
  intro a b items
  have hitems : items.intersection = .object
      [("a", .array [.integer 1, .integer 5, .null]), ("c", .array [.null, .integer 4, .null])] := by
    with_unfolding_all rfl
  have hb : Sequence.intersection [.null, b] = .object [("c", .integer 4), ("a", .integer 5)] := by
    with_unfolding_all rfl
  obtain ⟨pairs, hpairs, -, -, -, hvalues⟩ := intersection_exact items
  obtain ⟨bPairs, hbPairs, -, -, -, hbValues⟩ := intersection_exact [.null, b]
  obtain rfl := Item.object.inj (hitems.symm.trans hpairs)
  obtain rfl := Item.object.inj (hb.symm.trans hbPairs)
  exact ⟨hitems, hvalues _ List.mem_cons_self, hb, hbValues _ List.mem_cons_self⟩

end Sequence
end HybridQuery
