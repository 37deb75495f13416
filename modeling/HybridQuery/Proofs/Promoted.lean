import HybridQuery.Proofs.Fields

/-!
# Promoted items

What promotion to a type leaves is of the type, and is left as it is by another promotion: numbers have
widened, text has been cast, and the fields of objects have gone through the same. An object keeps its keys,
with those that are repeated, and the values that its type does not declare.

* `Catalogue.promote_kind`: promotion changes nothing but numbers and objects.
* `Catalogue.promoteField_again`: a field keeps what it has accepted, if the parts of the value are kept.
* `Catalogue.promotion_settles`: promotion is idempotent and conservative.
-/

namespace HybridQuery

/-! ## Items -/

theorem Item.promoteBuiltin_again {i j : Item} {type : ItemType} (h : i.promoteBuiltin type = .ok j) :
    j.promoteBuiltin type = .ok j := by
  cases type
  case decimal =>
    cases hd : i.decimal? <;> simp only [promoteBuiltin, hd] at h <;> cases h
    rfl
  case double =>
    cases hd : i.double? <;> simp only [promoteBuiltin, hd] at h <;> cases h
    rfl
  all_goals
    have hj := h
    simp only [promoteBuiltin] at h
    generalize ItemType.holds _ i = holds at h
    cases holds <;> cases h
    exact hj

/-- An item that a built-in type holds is kept by it. -/
theorem Item.promoteBuiltin_of_holds {i : Item} {type : ItemType} (htype : type.isLexical = true)
    (h : type.holds i = true) : i.promoteBuiltin type = .ok i := by
  cases type
  case date | dateTime | time | duration | base64Binary => simp [promoteBuiltin, h]
  all_goals cases htype

/-- The values of an object are smaller than it, and so are the members of an array. -/
theorem Item.sizeOf_value_lt {p : String × Item} {pairs : List (String × Item)} (h : p ∈ pairs) :
    sizeOf p.2 < sizeOf (Item.object pairs) := by
  have hp := List.sizeOf_lt_of_mem h
  obtain ⟨key, value⟩ := p
  simp only [Prod.mk.sizeOf_spec, Item.object.sizeOf_spec] at hp ⊢
  omega

theorem Item.sizeOf_member_lt {i : Item} {members : List Item} (h : i ∈ members) :
    sizeOf i < sizeOf (Item.array members) := by
  have hi := List.sizeOf_lt_of_mem h
  simp only [Item.array.sizeOf_spec]
  omega

/-- The fields that an object lacks depend on its keys. -/
theorem ObjectType.missing?_congr (type : ObjectType) {pairs results : List (String × Item)}
    (h : results.map (·.1) = pairs.map (·.1)) : type.missing? results = type.missing? pairs := by
  have hany (key : String) : results.any (·.1 == key) = pairs.any (·.1 == key) := by
    simpa [List.any_map, Function.comp_def] using congrArg (List.any · (· == key)) h
  simp only [missing?, hany]

namespace Catalogue

variable {c : Catalogue} {i j : Item} {type : ItemType} {field : FieldType} {value w : Item}

/-- Promotion gives the item itself, another number for a number, or another object for an object. -/
theorem promote_kind (h : c.promote i type = .ok j) :
    j = i ∨ i.isNumeric = true ∧ j.isNumeric = true ∨ i.isObject = true ∧ j.isObject = true := by
  by_cases htype : ∃ name, type = .declared name
  · obtain ⟨name, rfl⟩ := htype
    obtain ⟨_, _, _, -, rfl, -, -, rfl⟩ := promote_declared_eq_ok_iff.mp h
    exact .inr (.inr ⟨rfl, rfl⟩)
  · rw [promote_of_not_declared i (not_exists.mp htype)] at h
    exact (Item.eq_or_isNumeric_of_promoteBuiltin h).imp_right .inl

/-! ## Fields -/

/-- Numbers, objects and what text is cast to are plain values of any field. -/
theorem Plain.of_kind (h : value.isNumeric = true ∨ value.isObject = true ∨
    ∃ type : ItemType, type.isLexical = true ∧ type.holds value = true) : Plain field value := by
  cases value
  case null | string | array =>
    obtain h | h | ⟨type, htype, hholds⟩ := h
    · cases h
    · cases h
    · cases type <;> cases htype <;> cases hholds
  all_goals exact ⟨nofun, nofun, nofun⟩

/-- A field keeps what it has accepted, if promotion keeps what it has made of the value and of its
members. -/
theorem promoteField_again
    (hvalue : ∀ type j, c.promote value type = .ok j → c.promote j type = .ok j)
    (hmembers : ∀ members, value = .array members → ∀ i ∈ members, ∀ type j,
      c.promote i type = .ok j → c.promote j type = .ok j)
    (h : c.promoteField field value = .ok w) : c.promoteField field w = .ok w := by
  by_cases hplain : Plain field value
  · rw [promoteField_of_plain hplain] at h
    obtain rfl | ⟨-, hnumeric⟩ | ⟨-, hobject⟩ := promote_kind h
    · rwa [promoteField_of_plain hplain]
    · rw [promoteField_of_plain (.of_kind (.inl hnumeric))]
      exact hvalue _ _ h
    · rw [promoteField_of_plain (.of_kind (.inr (.inl hobject)))]
      exact hvalue _ _ h
  · cases value with
    | array members =>
      have hmax : field.type.occurrence.max = none := by
        by_contra hmax
        exact hplain ⟨fun _ => hmax, nofun, nofun⟩
      rw [promoteField_of_unbounded hmax] at h
      cases hs : c.promoteSequence members field.type with
      | error fault =>
        rw [hs] at h
        cases h
      | ok results =>
        rw [hs] at h
        cases h
        obtain ⟨hcount, hall⟩ := promoteSequence_eq_ok_iff.mp hs
        have hagain : c.promoteSequence results field.type = .ok results := by
          refine promoteSequence_eq_ok_iff.mpr ⟨hall.length_eq ▸ hcount, List.forall₂_same.mpr fun j hj => ?_⟩
          obtain ⟨i, hi, hij⟩ := exists_of_mem_forall₂ hall j hj
          exact hmembers members rfl i hi _ j hij
        rw [promoteField_of_unbounded hmax, hagain]
        rfl
    | null =>
      have hnone : field.type.occurrence.max = some 1 ∧ field.type.admitsCount 0 = true := by
        by_contra hnone
        exact hplain ⟨nofun, fun _ => hnone, nofun⟩
      rw [promoteField_null hnone.1 hnone.2] at h
      cases h
      exact promoteField_null hnone.1 hnone.2
    | string text =>
      have htype : field.type.itemType.isLexical = true := by
        by_contra htype
        exact hplain ⟨nofun, nofun, fun _ => Bool.eq_false_iff.mpr htype⟩
      rw [promoteField_string htype] at h
      have hholds := Item.holds_of_cast htype h
      rw [promoteField_of_plain (.of_kind (.inr (.inr ⟨_, htype, hholds⟩))), promote_of_not_declared]
      · exact Item.promoteBuiltin_of_holds htype hholds
      · rintro name hname
        rw [hname] at htype
        cases htype
    | _ => exact absurd ⟨nofun, nofun, nofun⟩ hplain

/-! ## Objects -/

/-- What an object is promoted to has its keys, and the values that are not declared. -/
theorem promotePairs_keeps {fields : List (String × FieldType)} {pairs results : List (String × Item)}
    (h : c.promotePairs fields pairs = .ok results) :
    List.Forall₂ (fun p q => q.1 = p.1 ∧ (p.1 ∉ fields.map (·.1) → q.2 = p.2)) pairs results := by
  refine (promotePairs_eq_ok_iff.mp h).imp fun p q ⟨hkey, hvalue⟩ => ⟨hkey, fun hundeclared => ?_⟩
  have hlookup : fields.lookup p.1 = none :=
    List.lookup_eq_none_iff.mpr fun field hfield => by
      simpa using fun heq : p.1 = field.1 => hundeclared (heq ▸ List.mem_map.mpr ⟨field, hfield, rfl⟩)
  rw [hlookup] at hvalue
  exact (Except.ok.inj hvalue).symm

theorem promotePairs_keys {fields : List (String × FieldType)} {pairs results : List (String × Item)}
    (h : c.promotePairs fields pairs = .ok results) : results.map (·.1) = pairs.map (·.1) := by
  have hkeeps := promotePairs_keeps h
  clear h
  induction hkeeps with
  | nil => rfl
  | cons hp _ ih => rw [List.map_cons, List.map_cons, hp.1, ih]

/-- Promotion keeps what it has promoted. The recursion is on the nesting of the item, since a type may name
itself in its fields. -/
theorem promote_again (i : Item) {type : ItemType} {j : Item} (h : c.promote i type = .ok j) :
    c.promote j type = .ok j := by
  by_cases htype : ∃ name, type = .declared name
  · obtain ⟨name, rfl⟩ := htype
    obtain ⟨definition, pairs, results, hd, hi, hmissing, hpairs, rfl⟩ := promote_declared_eq_ok_iff.mp h
    refine promote_declared_eq_ok_iff.mpr ⟨definition, results, results, hd, rfl, ?_, ?_, rfl⟩
    · rw [definition.missing?_congr (promotePairs_keys hpairs), hmissing]
    · refine promotePairs_eq_ok_iff.mpr (List.forall₂_same.mpr fun q hq => ⟨rfl, ?_⟩)
      obtain ⟨p, hp, hkey, hvalue⟩ := exists_of_mem_forall₂ (promotePairs_eq_ok_iff.mp hpairs) q hq
      rw [hkey]
      cases hl : definition.fields.lookup p.1 with
      | none => rfl
      | some field =>
        rw [hl] at hvalue
        exact promoteField_again (fun _ _ => promote_again p.2)
          (fun members hmembers m hm _ _ => promote_again m) hvalue
  · have hbuiltin (k : Item) := promote_of_not_declared (c := c) k (not_exists.mp htype)
    rw [hbuiltin] at h ⊢
    exact Item.promoteBuiltin_again h
termination_by sizeOf i
decreasing_by
  all_goals rw [hi]
  · exact Item.sizeOf_value_lt hp
  · exact (Item.sizeOf_member_lt hm).trans (hmembers ▸ Item.sizeOf_value_lt hp)

/-- **Promotion is idempotent and conservative.** What promotion makes of an item, it makes of it again,
down to the kinds of all its parts. What it makes of an item for a declared type is an object with the keys
of the item, in their order and as often, and with the same values under the keys that the type does not
declare. -/
theorem promotion_settles (c : Catalogue) (i j : Item) (type : ItemType)
    (h : c.promote i type = .ok j) :
    c.promote j type = .ok j ∧
      ∀ name, type = .declared name →
        ∃ definition pairs results, c.find? name = some definition ∧ i = .object pairs ∧
          j = .object results ∧ j.keys = i.keys ∧
          List.Forall₂ (fun p q => q.1 = p.1 ∧ (p.1 ∉ definition.fields.map (·.1) → q.2 = p.2)) pairs
            results := by
  refine ⟨promote_again i h, ?_⟩
  rintro name rfl
  obtain ⟨definition, pairs, results, hd, rfl, -, hpairs, rfl⟩ := promote_declared_eq_ok_iff.mp h
  exact ⟨definition, pairs, results, hd, rfl, rfl, promotePairs_keys hpairs, promotePairs_keeps hpairs⟩

/-- A person with text for a date, an integer for a double, a child and a field that is given twice. -/
theorem promotion_settles_person :
    let person : ObjectType := ⟨"Person",
      [("born", ⟨.of .date .one, true⟩), ("age", ⟨.of .double .zeroOrOne, false⟩),
        ("children", ⟨.of (.declared "Person") .zeroOrMore, false⟩)]⟩
    let c := empty.afterAll [.declare person]
    let child : Item := .object [("born", .string "2024-03-01"), ("age", .null)]
    let given : Item := .object [("age", .integer 36), ("name", .string "Ada"),
      ("born", .string "1815-12-10"), ("children", .array [child]), ("age", .decimal ⟨365, 1⟩)]
    let promoted : Item := .object [("age", .double (Double.ofInt64 36)), ("name", .string "Ada"),
      ("born", .date ⟨1815, 12, 10⟩),
      ("children", .array [.object [("born", .date ⟨2024, 3, 1⟩), ("age", .null)]]),
      ("age", .double (Double.ofDecimal ⟨365, 1⟩))]
    c.promote given (.declared "Person") = .ok promoted ∧
      c.promote promoted (.declared "Person") = .ok promoted := by
  intro person c child given promoted
  have hc : c = ⟨[person]⟩ := by decide +kernel
  have h : c.promote given (.declared "Person") = .ok promoted := by
    rw [hc]
    with_unfolding_all rfl
  exact ⟨h, (promotion_settles c given promoted (.declared "Person") h).1⟩

end Catalogue
end HybridQuery
