import HybridQuery.Proofs.Json.Decimals
import HybridQuery.Proofs.Ordering.Numbers

/-!
# Items through JSON

The JSON form of an item keeps everything but its decimals: truth values, integers, strings, and the members and
the pairs of arrays and objects in their order. A decimal goes through a number of JSON, which is an integer of 64
bits or a double, and is kept as far as these hold its digits.

* `Item.IsJson`: the items that JSON describes.
* `Item.ofJson_toJson`: what the JSON form of such an item is read back as, and when that is an equal item.
* `Item.json_loses_digits`: not every decimal is kept.
-/

namespace HybridQuery
namespace Item

/-- Items of JSON, with decimals of which `P` holds: null, truth values, integers, decimals, strings, and arrays and
objects of them, the keys of an object pairwise distinct. -/
inductive IsJson (P : Decimal → Prop) : Item → Prop where
  | null : IsJson P .null
  | boolean (b : Bool) : IsJson P (.boolean b)
  | integer (n : Int64) : IsJson P (.integer n)
  | decimal {d : Decimal} (h : P d) : IsJson P (.decimal d)
  | string (s : String) : IsJson P (.string s)
  | array {members : List Item} (h : ∀ m ∈ members, IsJson P m) : IsJson P (.array members)
  | object {pairs : List (String × Item)} (hkeys : (pairs.map (·.1)).Nodup) (h : ∀ p ∈ pairs, IsJson P p.2) :
    IsJson P (.object pairs)

mutual
/-- The item with something else for every decimal in it. -/
def mapDecimals (f : Decimal → Item) : Item → Item
  | .decimal d => f d
  | .array members => .array (mapMembers f members)
  | .object pairs => .object (mapPairs f pairs)
  | item => item

/-- `mapDecimals` of every member. -/
def mapMembers (f : Decimal → Item) : List Item → List Item
  | [] => []
  | m :: rest => mapDecimals f m :: mapMembers f rest

/-- `mapDecimals` of every value. -/
def mapPairs (f : Decimal → Item) : List (String × Item) → List (String × Item)
  | [] => []
  | (key, value) :: rest => (key, mapDecimals f value) :: mapPairs f rest
end

/-! ## Pairs -/

theorem keys_pairsToJson (pairs : List (String × Item)) :
    (pairsToJson pairs).map (·.1) = pairs.map (·.1) := by
  induction pairs with
  | nil => rfl
  | cons p pairs ih => rw [pairsToJson, List.map_cons, List.map_cons, ih]

/-- Pairs of distinct keys are all added, in their order. -/
theorem foldl_addPair {pairs done : List (String × Json)} (h : ((done ++ pairs).map (·.1)).Nodup) :
    pairs.foldl (fun done p => addPair done p.1 p.2) done = done ++ pairs := by
  induction pairs generalizing done with
  | nil => rw [List.foldl_nil, List.append_nil]
  | cons p pairs ih =>
    have hnew : addPair done p.1 p.2 = done ++ [p] := by
      rw [addPair, if_neg]
      rw [List.any_eq_true]
      rintro ⟨q, hq, hkey⟩
      rw [List.map_append, List.nodup_append] at h
      exact h.2.2 _ (List.mem_map_of_mem hq) _ (List.mem_map_of_mem List.mem_cons_self) (beq_iff_eq.mp hkey)
    rw [List.foldl_cons, hnew, ih, List.append_assoc, List.singleton_append]
    rwa [List.append_assoc, List.singleton_append]

/-! ## Reading the JSON form back -/

theorem membersOfJson_toJson {members : List Item}
    (h : ∀ m ∈ members, ofJson m.toJson = m.mapDecimals reread) :
    membersOfJson (membersToJson members) = mapMembers reread members := by
  induction members with
  | nil => rfl
  | cons m members ih =>
    rw [membersToJson, membersOfJson, mapMembers, h m List.mem_cons_self,
      ih fun m hm => h m (List.mem_cons_of_mem _ hm)]

theorem pairsOfJson_toJson {pairs : List (String × Item)}
    (h : ∀ p ∈ pairs, ofJson p.2.toJson = p.2.mapDecimals reread) :
    pairsOfJson (pairsToJson pairs) = mapPairs reread pairs := by
  induction pairs with
  | nil => rfl
  | cons p pairs ih =>
    rw [pairsToJson, pairsOfJson, mapPairs, h p List.mem_cons_self,
      ih fun p hp => h p (List.mem_cons_of_mem _ hp)]

/-- Nothing but the decimals can change. -/
theorem IsJson.ofJson_toJson_eq {P : Decimal → Prop} {x : Item} (h : x.IsJson P) :
    ofJson x.toJson = x.mapDecimals reread := by
  induction h with
  | null => rfl
  | boolean => rfl
  | integer n =>
    have hbound : n.toInt < Power.two 63 := by
      rw [Power.two_eq]
      exact n.toInt_lt
    rw [toJson, ofJson, ofInteger, if_pos hbound, Int64.ofInt_toInt]
    rfl
  | decimal => rfl
  | string => rfl
  | array _ ih => rw [toJson, ofJson, mapDecimals, membersOfJson_toJson ih]
  | object hkeys _ ih =>
    rw [toJson, foldl_addPair (by rwa [List.nil_append, keys_pairsToJson]), List.nil_append, ofJson, mapDecimals,
      pairsOfJson_toJson ih]

theorem membersWorth_mapMembers {members : List Item}
    (h : ∀ m ∈ members, (m.mapDecimals reread).worth = m.worth) :
    membersWorth (mapMembers reread members) = membersWorth members := by
  induction members with
  | nil => rfl
  | cons m members ih =>
    rw [mapMembers, membersWorth, membersWorth, h m List.mem_cons_self,
      ih fun m hm => h m (List.mem_cons_of_mem _ hm)]

theorem pairsWorth_mapPairs {pairs : List (String × Item)}
    (h : ∀ p ∈ pairs, (p.2.mapDecimals reread).worth = p.2.worth) :
    pairsWorth (mapPairs reread pairs) = pairsWorth pairs := by
  induction pairs with
  | nil => rfl
  | cons p pairs ih =>
    rw [mapPairs, pairsWorth, pairsWorth, h p List.mem_cons_self, ih fun p hp => h p (List.mem_cons_of_mem _ hp)]

theorem IsJson.worth_mapDecimals {x : Item} (h : x.IsJson Decimal.IsKept) :
    (x.mapDecimals reread).worth = x.worth := by
  induction h with
  | null | boolean | integer | string => rfl
  | decimal h => exact worth_of_quantity? (quantity?_reread h)
  | array _ ih => rw [mapDecimals, worth, worth, membersWorth_mapMembers ih]
  | object _ _ ih => rw [mapDecimals, worth, worth, pairsWorth_mapPairs ih]

/-- **The JSON form of an item is read back as the item**, up to its decimals, each of which is read back on its
own. Where they are kept, that is an equal item, with its keys in the same order. -/
theorem ofJson_toJson {x : Item} (h : x.IsJson fun _ => True) :
    ofJson x.toJson = x.mapDecimals reread ∧
      (x.IsJson Decimal.IsKept → same x (ofJson x.toJson) = true) := by
  refine ⟨h.ofJson_toJson_eq, fun hkept => ?_⟩
  rw [same_iff, hkept.ofJson_toJson_eq, hkept.worth_mapDecimals]

/-- The decimal `1.50` and an integer past 64 bits with a sign are kept, next to each other and nested. -/
theorem ofJson_toJson_nested :
    same (.object [("z", .array [.decimal ⟨150, 2⟩, .null]), ("a", .decimal ⟨1, -19⟩)])
      (ofJson (toJson (.object [("z", .array [.decimal ⟨150, 2⟩, .null]), ("a", .decimal ⟨1, -19⟩)]))) = true := by
  have hjson {P : Decimal → Prop} (hfraction : P ⟨150, 2⟩) (hinteger : P ⟨1, -19⟩) :
      IsJson P (.object [("z", .array [.decimal ⟨150, 2⟩, .null]), ("a", .decimal ⟨1, -19⟩)]) := by
    have hmembers : IsJson P (.array [.decimal ⟨150, 2⟩, .null]) :=
      .array (List.forall_mem_cons.mpr ⟨.decimal hfraction, List.forall_mem_singleton.mpr .null⟩)
    exact .object (by decide) (List.forall_mem_cons.mpr ⟨hmembers, List.forall_mem_singleton.mpr (.decimal hinteger)⟩)
  have hfraction : Decimal.IsKept ⟨150, 2⟩ :=
    .inr ⟨150, 2, by norm_num [Decimal.value], by norm_num, by norm_num [Decimal.value]⟩
  have hinteger : Decimal.IsKept ⟨1, -19⟩ := .inl ⟨10 ^ 19, by norm_num [Decimal.value], by norm_num, by norm_num⟩
  exact (ofJson_toJson (hjson trivial trivial)).2 (hjson hfraction hinteger)

/-! ## Digits that are lost -/

/-- A decimal of nineteen digits loses the last two of them. -/
theorem reread_many_digits : reread ⟨12345678901234567890, 20⟩ = .decimal ⟨12345678901234568, 17⟩ := by
  have hnormal : (⟨12345678901234567890, 20⟩ : Decimal).normalized = ⟨1234567890123456789, 19⟩ := rfl
  have hdouble : Json.doubleOfParts false 1234567890123456789 (-(19 : Nat)) =
      some (Float.ofBits 4593560419847042655) := by
    decide +kernel
  have hprinted : Double.text? (Float.ofBits 4593560419847042655) = some (String.ofList
      (Decimal.signed false (Decimal.pointed (Decimal.digits 12345678901234568) 17))) := by
    decide +kernel
  have hread := Json.readUnsigned?_pointed false (n := 1234567890123456789) (s := 19) (by decide +kernel) (by decide)
  rw [hdouble, Option.map_some] at hread
  have hjson : decimalJson ⟨12345678901234567890, 20⟩ = .double (Float.ofBits 4593560419847042655) := by
    refine decimalJson_of_read ?_
    rw [hnormal, Decimal.text_of_fraction (by decide) (by decide +kernel), String.toList_ofList]
    exact (Json.readNumber?_signed false (by decide +kernel)).trans hread
  have hplain : (String.ofList (Decimal.signed false (Decimal.pointed (Decimal.digits 12345678901234568) 17))).any
      (· == 'e') = false := by
    rw [any_eq_any_toList, String.toList_ofList]
    decide +kernel
  rw [reread, hjson, ofJson, ofDouble, hprinted]
  dsimp only
  rw [hplain, Decimal.ofText?_pointed false 12345678901234568 (by decide) (by decide)]
  rfl

/-- **Not every decimal is kept**: of more digits than a double holds, the last ones are lost. -/
theorem json_loses_digits : ¬∀ x : Item, (x.IsJson fun _ => True) → same x (ofJson x.toJson) = true := by
  intro h
  have hsame := h (.decimal ⟨12345678901234567890, 20⟩) (.decimal trivial)
  rw [toJson, ← reread, reread_many_digits] at hsame
  exact absurd hsame (by decide +kernel)

end Item
end HybridQuery
