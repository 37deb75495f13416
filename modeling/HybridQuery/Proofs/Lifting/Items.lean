import HybridQuery.Evaluation.Driving
import HybridQuery.Proofs.Lifting.Results

/-!
# Items with related functions

What is computed from items looks into no function among them. Items that are the same except for related
functions have the same kind, text and truth value, have such items as parts, and are taken to types alike:
to such items again, or with the same fault.

* `Item.Lift`: a relation on functions, lifted to items.
* `Item.Lift.member?`, `Item.Lift.members` and their like: the parts of items.
* `Catalogue.promote_lift`, `Catalogue.promoteSequence_lift`: promotion.
-/

namespace HybridQuery

variable {F G : FunctionItem → FunctionItem → Prop}

/-- Items that are the same, except that functions among them are related. -/
inductive Item.Lift (F : FunctionItem → FunctionItem → Prop) : Item → Item → Prop
  | atomic {i : Item} (h : i.isAtomic = true) : Item.Lift F i i
  | object {ps qs : List (String × Item)} (h : List.Forall₂ (Keyed (Item.Lift F)) ps qs) :
      Item.Lift F (.object ps) (.object qs)
  | array {xs ys : List Item} (h : List.Forall₂ (Item.Lift F) xs ys) :
      Item.Lift F (.array xs) (.array ys)
  | function {f g : FunctionItem} (h : F f g) : Item.Lift F (.function f) (.function g)

/-- Sequences of such items. -/
abbrev Sequence.Lift (F : FunctionItem → FunctionItem → Prop) : Sequence → Sequence → Prop :=
  List.Forall₂ (Item.Lift F)

/-! ## Single items -/

namespace Item

variable {i j : Item}

mutual
theorem Lift.mono (hF : ∀ f g, F f g → G f g) {i j : Item} (h : Lift F i j) : Lift G i j := by
  cases h with
  | atomic h => exact .atomic h
  | object h => exact .object (lift_pairs_mono hF h)
  | array h => exact .array (lift_members_mono hF h)
  | function h => exact .function (hF _ _ h)
termination_by sizeOf i

theorem lift_members_mono (hF : ∀ f g, F f g → G f g) {xs ys : List Item}
    (h : List.Forall₂ (Lift F) xs ys) : List.Forall₂ (Lift G) xs ys := by
  cases h with
  | nil => exact .nil
  | cons h hr => exact .cons (h.mono hF) (lift_members_mono hF hr)
termination_by sizeOf xs

theorem lift_pairs_mono (hF : ∀ f g, F f g → G f g) {ps qs : List (String × Item)}
    (h : List.Forall₂ (Keyed (Lift F)) ps qs) : List.Forall₂ (Keyed (Lift G)) ps qs := by
  cases h with
  | nil => exact .nil
  | cons h hr =>
    cases h with
    | mk key h => exact .cons (.mk key (h.mono hF)) (lift_pairs_mono hF hr)
termination_by sizeOf ps
end

theorem Lift.eq_of_isAtomic (h : Lift F i j) (ha : i.isAtomic = true) : i = j := by
  cases h with
  | atomic => rfl
  | object | array | function => cases ha

theorem Lift.isAtomic_eq (h : Lift F i j) : i.isAtomic = j.isAtomic := by cases h <;> rfl

theorem Lift.isNumeric_eq (h : Lift F i j) : i.isNumeric = j.isNumeric := by cases h <;> rfl

theorem Lift.isObject_eq (h : Lift F i j) : i.isObject = j.isObject := by cases h <;> rfl

theorem Lift.typeName_eq (h : Lift F i j) : i.typeName = j.typeName := by cases h <;> rfl

theorem isAtomic_of_isNumeric (h : i.isNumeric = true) : i.isAtomic = true := by
  cases i <;> first | rfl | cases h

theorem Lift.truth_eq (h : Lift F i j) : i.truth = j.truth := by cases h <;> rfl

theorem Lift.keyText?_eq (h : Lift F i j) : i.keyText? = j.keyText? := by cases h <;> rfl

theorem Lift.keys_eq (h : Lift F i j) : i.keys = j.keys := by
  cases h with
  | atomic | array | function => rfl
  | object h =>
    simp only [keys]
    induction h with
    | nil => rfl
    | cons hp _ ih =>
      cases hp
      simp only [List.map_cons, ih]

mutual
theorem Lift.toJson_eq (hF : ∀ f g, F f g → f.identifier = g.identifier) {i j : Item}
    (h : Lift F i j) : i.toJson = j.toJson := by
  cases h with
  | atomic => rfl
  | object h => rw [toJson, toJson, pairsToJson_eq hF h]
  | array h => rw [toJson, toJson, membersToJson_eq hF h]
  | function h => rw [toJson, toJson, hF _ _ h]
termination_by sizeOf i

theorem membersToJson_eq (hF : ∀ f g, F f g → f.identifier = g.identifier) {xs ys : List Item}
    (h : List.Forall₂ (Lift F) xs ys) : membersToJson xs = membersToJson ys := by
  cases h with
  | nil => rfl
  | cons h hr => rw [membersToJson, membersToJson, h.toJson_eq hF, membersToJson_eq hF hr]
termination_by sizeOf xs

theorem pairsToJson_eq (hF : ∀ f g, F f g → f.identifier = g.identifier) {ps qs : List (String × Item)}
    (h : List.Forall₂ (Keyed (Lift F)) ps qs) : pairsToJson ps = pairsToJson qs := by
  cases h with
  | nil => rfl
  | cons h hr =>
    cases h with
    | mk key h => rw [pairsToJson, pairsToJson, h.toJson_eq hF, pairsToJson_eq hF hr]
termination_by sizeOf ps
end

/-- Functions show their identifiers. -/
theorem Lift.text_eq (hF : ∀ f g, F f g → f.identifier = g.identifier) (h : Lift F i j) :
    i.text = j.text := by
  cases h with
  | atomic => rfl
  | object h => exact congrArg Json.compact (Lift.toJson_eq hF (.object h))
  | array h => exact congrArg Json.compact (Lift.toJson_eq hF (.array h))
  | function h => exact hF _ _ h

theorem Lift.member? (h : Lift F i j) (key : String) :
    Option.Rel (Lift F) (i.member? key) (j.member? key) := by
  cases h with
  | atomic h => cases i <;> first | exact .none | cases h
  | object h => exact Keyed.lookup h key
  | array | function => exact .none

theorem Lift.members (h : Lift F i j) : Sequence.Lift F i.members j.members := by
  cases h with
  | atomic h => cases i <;> first | exact .nil | cases h
  | array h => exact h
  | object | function => exact .nil

end Item

theorem PlanEvaluator.memberAt_lift {i j : Item} (h : Item.Lift F i j) (index : Int64) :
    Option.Rel (Item.Lift F) (memberAt i index) (memberAt j index) := by
  unfold memberAt
  split
  · exact getElem?_forall₂ h.members _
  · exact .none

/-! ## Sequences -/

namespace Sequence

variable {s t : Sequence}

theorem truth_lift (h : Sequence.Lift F s t) : s.truth = t.truth := by
  cases h with
  | nil => rfl
  | cons ha hr =>
    cases hr with
    | nil => exact ha.truth_eq
    | cons => simp only [truth, ha.isAtomic_eq]

theorem optional_lift (h : Sequence.Lift F s t) (what : String) (position : SourcePosition) :
    Agree (Option.Rel (Item.Lift F)) (s.optional what position) (t.optional what position) := by
  cases h with
  | nil => exact .ok .none
  | cons ha hr =>
    cases hr with
    | nil => exact .ok (.some ha)
    | cons hb hr =>
      simp only [optional, List.length_cons, hr.length_eq]
      exact .error _

theorem asItem_lift (h : Sequence.Lift F s t) : Item.Lift F s.asItem t.asItem := by
  cases h with
  | nil => exact .atomic rfl
  | cons ha hr =>
    cases hr with
    | nil => exact ha
    | cons hb hr => exact .array (.cons ha (.cons hb hr))

theorem flatMap_keys_lift (h : Sequence.Lift F s t) : s.flatMap Item.keys = t.flatMap Item.keys := by
  induction h with
  | nil => rfl
  | cons ha _ ih => simp only [List.flatMap_cons, ha.keys_eq, ih]

theorem allKeys_lift (h : Sequence.Lift F s t) : s.allKeys = t.allKeys := by
  rw [allKeys, allKeys, flatMap_keys_lift h]

theorem eq_of_isNumeric (h : Sequence.Lift F s t) (hn : ∀ i ∈ s, i.isNumeric = true) : s = t := by
  induction h with
  | nil => rfl
  | cons ha _ ih =>
    rw [ha.eq_of_isAtomic (Item.isAtomic_of_isNumeric (hn _ List.mem_cons_self)),
      ih fun i hi => hn i (List.mem_cons_of_mem _ hi)]

theorem isAtomic_of_sumIntegers {total : Int} {i : Item} (h : sumIntegers total s = .ok i) :
    i.isAtomic = true := by
  induction s generalizing total with
  | nil =>
    simp only [sumIntegers, Item.integerOf] at h
    split at h <;> cases h
    rfl
  | cons a s ih =>
    rw [sumIntegers] at h
    split at h
    · exact ih h
    · cases h

theorem isAtomic_of_sum {i : Item} (h : s.sum = .ok i) : i.isAtomic = true := by
  unfold sum at h
  split at h
  · cases h
  · split at h
    · exact isAtomic_of_sumIntegers h
    · split at h <;> cases h <;> rfl

theorem sum_lift (h : Sequence.Lift F s t) : Agree (Item.Lift F) s.sum t.sum := by
  have hfind := find?_forall₂ (p := (!·.isNumeric)) (q := (!·.isNumeric)) h fun _ _ h => by
    rw [h.isNumeric_eq]
  cases hs : s.find? (!·.isNumeric) with
  | some i =>
    rw [hs] at hfind
    cases ht : t.find? (!·.isNumeric) with
    | none => rw [ht] at hfind; cases hfind
    | some j =>
      rw [ht] at hfind
      obtain ⟨hij⟩ := hfind
      simp only [sum, hs, ht, Fault.notSummable, hij.typeName_eq]
      exact .error _
  | none =>
    rw [eq_of_isNumeric h (by simpa using hs)]
    exact .same fun i hi => .atomic (isAtomic_of_sum hi)

theorem objects_lift (h : Sequence.Lift F s t) :
    Sequence.Lift F (s.filter Item.isObject) (t.filter Item.isObject) :=
  List.rel_filter (fun _ _ hi => by simp only [hi.isObject_eq]) h

theorem commonValue_lift {vs ws : List Item} (h : Sequence.Lift F vs ws) :
    Item.Lift F (commonValue vs) (commonValue ws) := by
  cases h with
  | nil => exact .array .nil
  | cons ha hr =>
    cases hr with
    | nil => exact ha
    | cons hb hr => exact .array (.cons ha (.cons hb hr))

theorem addKey_lift {c c' : Collected} {i j : Item} (hc : List.Forall₂ (Keyed (Sequence.Lift F)) c c')
    (h : Item.Lift F i j) (key : String) :
    List.Forall₂ (Keyed (Sequence.Lift F)) (addKey i c key) (addKey j c' key) := by
  have hany : c.any (·.1 == key) = c'.any (·.1 == key) := by
    induction hc with
    | nil => rfl
    | cons hp _ ih =>
      cases hp
      simp only [List.any_cons, ih]
  have hm := h.member? key
  rw [addKey, addKey, hany]
  generalize i.member? key = v, j.member? key = w at hm
  cases hm with
  | none => exact hc
  | some hv =>
    dsimp only
    split
    · exact hc
    · exact List.rel_append hc (.cons (.mk key (.cons hv .nil)) .nil)

theorem collect_lift {i j : Item} (h : Item.Lift F i j) :
    List.Forall₂ (Keyed (Sequence.Lift F)) (collect i) (collect j) := by
  rw [collect, collect, h.keys_eq]
  refine List.rel_foldl (P := List.Forall₂ (Keyed (Sequence.Lift F))) (R := Eq) ?_ .nil
    (List.forall₂_same.mpr fun _ _ => rfl)
  rintro _ _ hc key _ rfl
  exact addKey_lift hc h key

theorem narrow_lift {c c' : Collected} {i j : Item} (hc : List.Forall₂ (Keyed (Sequence.Lift F)) c c')
    (h : Item.Lift F i j) : List.Forall₂ (Keyed (Sequence.Lift F)) (narrow c i) (narrow c' j) := by
  refine List.rel_filterMap ?_ hc
  rintro _ _ ⟨key, hvs⟩
  have hm := h.member? key
  dsimp only
  generalize i.member? key = v, j.member? key = w at hm
  cases hm with
  | none => exact .none
  | some hv => exact .some (.mk key (List.rel_append hvs (.cons hv .nil)))

theorem intersection_lift (h : Sequence.Lift F s t) :
    Item.Lift F s.intersection t.intersection := by
  have ho := objects_lift h
  unfold intersection
  generalize s.filter Item.isObject = os, t.filter Item.isObject = ps at ho
  cases ho with
  | nil => exact .object .nil
  | @cons a b rest rest' ha hr =>
    have hc : List.Forall₂ (Keyed (Sequence.Lift F)) (rest.foldl narrow (collect a))
        (rest'.foldl narrow (collect b)) :=
      List.rel_foldl (P := List.Forall₂ (Keyed (Sequence.Lift F))) (R := Item.Lift F)
        (fun _ _ hc _ _ ho => narrow_lift hc ho) (collect_lift ha) hr
    refine .object (List.rel_map ?_ hc)
    rintro _ _ ⟨key, hvs⟩
    exact .mk key (commonValue_lift hvs)

end Sequence

/-! ## Promotion -/

namespace Catalogue

variable (c : Catalogue)

theorem isAtomic_of_promoteBuiltin {i j : Item} (ha : i.isAtomic = true) {type : ItemType}
    (h : i.promoteBuiltin type = .ok j) : j.isAtomic = true := by
  cases type
  case decimal =>
    cases hd : i.decimal? <;> simp only [Item.promoteBuiltin, hd] at h <;> cases h
    rfl
  case double =>
    cases hd : i.double? <;> simp only [Item.promoteBuiltin, hd] at h <;> cases h
    rfl
  all_goals
    simp only [Item.promoteBuiltin] at h
    generalize ItemType.holds _ i = holds at h
    cases holds <;> cases h
    exact ha

theorem promoteBuiltin_lift {i j : Item} (h : Item.Lift F i j) (type : ItemType) :
    Agree (Item.Lift F) (i.promoteBuiltin type) (j.promoteBuiltin type) := by
  cases h with
  | atomic ha => exact .same fun j hj => .atomic (isAtomic_of_promoteBuiltin ha hj)
  | object h =>
    cases type
    case item | object => exact .ok (.object h)
    all_goals exact .error _
  | array h =>
    cases type
    case item | array => exact .ok (.array h)
    all_goals exact .error _
  | function h =>
    cases type
    case item | function => exact .ok (.function h)
    all_goals exact .error _

theorem isAtomic_of_ofText? {text : String} {type : ItemType} {j : Item}
    (h : Item.ofText? type text = some j) : j.isAtomic = true := by
  unfold Item.ofText? at h
  split at h
  case h_1 | h_2 | h_3 => cases h; rfl
  case h_13 => cases h
  all_goals
    obtain ⟨a, -, rfl⟩ := Option.map_eq_some_iff.mp h
    rfl

theorem isAtomic_of_cast {text : String} {type : ItemType} {j : Item}
    (h : Item.cast text type = .ok j) : j.isAtomic = true := by
  unfold Item.cast at h
  dsimp only at h
  split at h
  · next ht =>
    cases h
    exact isAtomic_of_ofText? ht
  · cases h

/-- What the value of a declared field is taken to. -/
def promoteField (field : FieldType) (value : Item) : TypeResult Item :=
  match value, field.type.occurrence.max with
  | .array members, none =>
    if field.type.isUnconstrained then pure (.array members)
    else
      field.type.checkCount members.length *>
        (Item.array <$> c.promoteEach field.type.itemType members)
  | value, _ =>
    if value.isNull && field.type.occurrence.max == some 1 && field.type.admitsCount 0 then
      pure .null
    else
      match value with
      | .string text =>
        if field.type.itemType.isLexical then Item.cast text field.type.itemType
        else (Item.string text).promoteBuiltin field.type.itemType
      | value => c.promote value field.type.itemType

theorem promoteField_array (field : FieldType) (members : List Item) :
    c.promoteField field (.array members) =
      match field.type.occurrence.max with
      | none =>
        if field.type.isUnconstrained then pure (.array members)
        else
          field.type.checkCount members.length *>
            (Item.array <$> c.promoteEach field.type.itemType members)
      | some _ => c.promote (.array members) field.type.itemType := by
  unfold promoteField
  cases field.type.occurrence.max <;> rfl

/-- What the value of a field is taken to, if it is declared. -/
def promoteValueOf (field : Option FieldType) (value : Item) : TypeResult Item :=
  match field with
  | none => pure value
  | some field => c.promoteField field value

theorem promotePairs_cons (fields : List (String × FieldType)) (key : String) (value : Item)
    (rest : List (String × Item)) :
    c.promotePairs fields ((key, value) :: rest) = (do
      let promoted ← c.promoteValueOf (fields.lookup key) value
      return (key, promoted) :: (← c.promotePairs fields rest)) := by
  rw [promotePairs]
  cases fields.lookup key with
  | none => rfl
  | some field =>
    unfold promoteValueOf promoteField
    cases value with
    | array members =>
      cases hmax : field.type.occurrence.max <;> simp only [hmax]
      · split <;> rfl
      · rfl
    | string text =>
      dsimp only
      split
      · rfl
      · split <;> rfl
    | _ =>
      dsimp only
      split <;> rfl

theorem promote_of_not_isObject {i : Item} (hi : i.isObject = false) (type : ItemType) :
    c.promote i type = i.promoteBuiltin type := by
  rw [promote]
  rintro name pairs - rfl
  cases hi

theorem promote_of_isAtomic {i : Item} (ha : i.isAtomic = true) (type : ItemType) :
    c.promote i type = i.promoteBuiltin type :=
  promote_of_not_isObject c (by cases i <;> first | rfl | cases ha) type

theorem isAtomic_of_promoteField {field : FieldType} {i j : Item} (ha : i.isAtomic = true)
    (h : c.promoteField field i = .ok j) : j.isAtomic = true := by
  unfold promoteField at h
  split at h
  · cases ha
  · split at h
    · cases h
      rfl
    · split at h
      · split at h
        · exact isAtomic_of_cast h
        · exact isAtomic_of_promoteBuiltin ha h
      · rw [promote_of_isAtomic c ha] at h
        exact isAtomic_of_promoteBuiltin ha h

theorem missing?_lift (type : ObjectType) {ps qs : List (String × Item)}
    (h : List.Forall₂ (Keyed (Item.Lift F)) ps qs) : type.missing? ps = type.missing? qs := by
  have hany (key : String) := Keyed.any_eq h (· == key)
  simp only [ObjectType.missing?, hany]

mutual
theorem promote_lift {i j : Item} (h : Item.Lift F i j) (type : ItemType) :
    Agree (Item.Lift F) (c.promote i type) (c.promote j type) := by
  cases h with
  | @object ps qs hp =>
    cases type with
    | declared name =>
      simp only [promote]
      cases c.find? name with
      | none => exact .error _
      | some definition =>
        simp only [missing?_lift definition hp]
        cases definition.missing? qs with
        | some field => exact .error _
        | none => exact (promotePairs_lift hp definition.fields).bind fun _ _ h => .ok (.object h)
    | _ =>
      simp only [promote]
      exact promoteBuiltin_lift (.object hp) _
  | atomic ha =>
    rw [promote_of_isAtomic c ha]
    exact promoteBuiltin_lift (.atomic ha) type
  | array hm =>
    rw [promote_of_not_isObject c rfl, promote_of_not_isObject c rfl]
    exact promoteBuiltin_lift (.array hm) type
  | function hf =>
    rw [promote_of_not_isObject c rfl, promote_of_not_isObject c rfl]
    exact promoteBuiltin_lift (.function hf) type
termination_by sizeOf i

theorem promoteEach_lift {xs ys : List Item} (h : List.Forall₂ (Item.Lift F) xs ys)
    (type : ItemType) :
    Agree (List.Forall₂ (Item.Lift F)) (c.promoteEach type xs) (c.promoteEach type ys) := by
  cases h with
  | nil => exact .ok .nil
  | cons ha hr =>
    rw [promoteEach, promoteEach]
    refine (promote_lift ha type).bind fun _ _ hb => ?_
    exact (promoteEach_lift hr type).bind fun _ _ hbs => .ok (.cons hb hbs)
termination_by sizeOf xs

theorem promotePairs_lift {ps qs : List (String × Item)}
    (h : List.Forall₂ (Keyed (Item.Lift F)) ps qs) (fields : List (String × FieldType)) :
    Agree (List.Forall₂ (Keyed (Item.Lift F))) (c.promotePairs fields ps)
      (c.promotePairs fields qs) := by
  cases h with
  | nil => exact .ok .nil
  | cons hp hr =>
    cases hp with
    | @mk v w key hv =>
      rw [promotePairs_cons, promotePairs_cons]
      refine Agree.bind (R := Item.Lift F) ?_ fun _ _ hb =>
        (promotePairs_lift hr fields).bind fun _ _ hbs => .ok (List.Forall₂.cons (.mk key hb) hbs)
      cases fields.lookup key with
      | none => exact .ok hv
      | some field =>
        unfold promoteValueOf
        cases hv with
        | atomic ha => exact .same fun j hj => .atomic (isAtomic_of_promoteField c ha hj)
        | object ho => exact promote_lift (.object ho) _
        | @array xs ys hm =>
          dsimp only
          rw [promoteField_array, promoteField_array]
          cases field.type.occurrence.max with
          | some n => exact promote_lift (.array hm) _
          | none =>
            dsimp only
            rw [hm.length_eq]
            split
            · exact .ok (.array hm)
            · cases field.type.checkCount ys.length with
              | error e => exact .error e
              | ok => exact (promoteEach_lift hm _).map fun _ _ => .array
        | function hf => exact promote_lift (.function hf) _
termination_by sizeOf ps
end

theorem promoteSequence_lift {s t : Sequence} (h : Sequence.Lift F s t) (type : SequenceType) :
    Agree (Sequence.Lift F) (c.promoteSequence s type) (c.promoteSequence t type) := by
  unfold promoteSequence
  split
  · exact .ok h
  · rw [h.length_eq]
    exact (Agree.refl (type.checkCount t.length)).bind fun _ _ _ => promoteEach_lift c h _

theorem promoteEach_eq_mapM (type : ItemType) (items : List Item) :
    c.promoteEach type items = items.mapM fun i => c.promote i type := by
  induction items with
  | nil => rfl
  | cons i items ih => rw [promoteEach, ih, List.mapM_cons]

end Catalogue
end HybridQuery
