import Mathlib.Data.List.Nodup
import HybridQuery.Proofs.Lifting.Items

/-!
# Declared types

What holds of a catalogue that was built by declarations, some of which were refused. A declaration is
accepted only if it names types that are known then, and nothing is ever taken out, so that the catalogue
is closed: every type that a field names is declared. In a closed catalogue promotion fails on account
of the value only, never because a name stands for no type.

* `Catalogue.Closed`: no declaration hides a built-in type, and fields name declared types.
* `Catalogue.declareEach_induct`: what one accepted declaration keeps, all of them keep.
* `Catalogue.promote_blamesValue`: promotion in a closed catalogue, over all items.
* `Catalogue.closed_after_calls`: all this together, after any calls on a new catalogue.
-/

namespace HybridQuery

/-! ## Faults of values -/

/-- A failure that lies in a value, and not in the types. -/
def TypeResult.BlamesValue {α : Type} (r : TypeResult α) : Prop :=
  ∀ fault, r = .error fault → fault.isSchemaFault = false

namespace TypeResult.BlamesValue

variable {α β : Type}

theorem ok (a : α) : BlamesValue (.ok a : TypeResult α) := fun _ h => nomatch h

theorem error {fault : TypeFault} (h : fault.isSchemaFault = false) :
    BlamesValue (.error fault : TypeResult α) := fun _ he => by
  cases he
  exact h

theorem bind {r : TypeResult α} {f : α → TypeResult β} (hr : BlamesValue r)
    (hf : ∀ a, BlamesValue (f a)) : BlamesValue (r >>= f) := by
  cases r with
  | error fault => exact error (hr fault rfl)
  | ok a => exact hf a

theorem map {r : TypeResult α} (f : α → β) (hr : BlamesValue r) : BlamesValue (f <$> r) := by
  cases r with
  | error fault => exact error (hr fault rfl)
  | ok a => exact ok (f a)

theorem checkCount (type : SequenceType) (count : Nat) : BlamesValue (type.checkCount count) := by
  unfold SequenceType.checkCount
  split
  · exact ok ()
  · exact error rfl

theorem cast (text : String) (type : ItemType) : BlamesValue (Item.cast text type) := by
  unfold Item.cast
  dsimp only
  split
  · exact ok _
  · exact error rfl

theorem promoteBuiltin (i : Item) (type : ItemType) : BlamesValue (i.promoteBuiltin type) := by
  unfold Item.promoteBuiltin
  dsimp only
  split
  · exact ok _
  · exact error rfl

end TypeResult.BlamesValue

namespace Catalogue

variable {c d : Catalogue}

/-! ## Calls -/

/-- A call that adds declarations: one, or several in order. -/
inductive Call where
  | declare (type : ObjectType)
  | declareAll (types : List ObjectType)

/-- What a call declares. -/
def Call.types : Call → List ObjectType
  | declare type => [type]
  | declareAll types => types

/-- The catalogue that a call leaves. -/
def after (c : Catalogue) (call : Call) : Catalogue := (c.declareEach call.types).1

/-- Why a call fails, if it does. -/
def refusal? (c : Catalogue) (call : Call) : Option TypeFault := (c.declareEach call.types).2

/-- The catalogue that calls leave that are made one after the other. -/
def afterAll (c : Catalogue) (calls : List Call) : Catalogue := calls.foldl after c

theorem declare_eq_error_iff {type : ObjectType} {fault : TypeFault} :
    c.declare type = .error fault ↔ c.refusal? (.declare type) = some fault := by
  unfold refusal? Call.types declareEach
  cases h : c.declare type with
  | error e => simp
  | ok next => simp [declareEach]

theorem after_declare_of_refused {type : ObjectType} {fault : TypeFault}
    (h : c.refusal? (.declare type) = some fault) : c.after (.declare type) = c := by
  have hd := declare_eq_error_iff.mpr h
  simp only [after, Call.types, declareEach, hd]

/-! ## What a declaration needs -/

/-- A type that is built in or declared. -/
def Knows (c : Catalogue) (type : ItemType) : Prop :=
  ∀ name, type = .declared name → c.declares name = true

theorem check_eq_ok_iff {type : SequenceType} : c.check type = .ok () ↔ c.Knows type.itemType := by
  unfold check Knows
  cases type.itemType with
  | declared name => cases h : c.declares name <;> simp [h]
  | _ => simp

theorem unknownField?_eq_none_iff {type : ObjectType} :
    c.unknownField? type = none ↔
      ∀ field ∈ type.fields, ∀ name, field.2.type.itemType = .declared name →
        name = type.name ∨ c.declares name = true := by
  unfold unknownField?
  simp only [List.findSome?_eq_none_iff]
  refine forall₂_congr fun field _ => ?_
  cases field.2.type.itemType with
  | declared name => by_cases hn : name = type.name <;> simp [hn]
  | _ => simp

/-- What an accepted declaration does: its name is new, its fields name known types, and it comes last. -/
theorem declare_eq_ok_iff {type : ObjectType} :
    c.declare type = .ok d ↔
      ItemType.builtin? type.name = none ∧ c.declares type.name = false ∧
        (∀ field ∈ type.fields, ∀ name, field.2.type.itemType = .declared name →
          name = type.name ∨ c.declares name = true) ∧
        d = ⟨c.declarations ++ [type]⟩ := by
  rw [← unknownField?_eq_none_iff]
  unfold declare
  cases ItemType.builtin? type.name with
  | some _ => simp
  | none =>
    cases c.declares type.name with
    | true => simp
    | false =>
      cases c.unknownField? type with
      | some _ => simp
      | none => simp [eq_comm]

/-! ## What all declarations keep -/

/-- What an accepted declaration keeps holds of the catalogue that is reached, be it at the end or at a
declaration that is refused. -/
theorem declareEach_induct {P : Catalogue → Prop}
    (step : ∀ {c d : Catalogue} {type : ObjectType}, P c → c.declare type = .ok d → P d)
    (types : List ObjectType) (hc : P c) : P (c.declareEach types).1 := by
  induction types generalizing c with
  | nil => exact hc
  | cons type rest ih =>
    unfold declareEach
    cases h : c.declare type with
    | ok d => exact ih (step hc h)
    | error fault => exact hc

theorem afterAll_induct {P : Catalogue → Prop}
    (step : ∀ {c d : Catalogue} {type : ObjectType}, P c → c.declare type = .ok d → P d)
    (calls : List Call) (hc : P c) : P (c.afterAll calls) := by
  induction calls generalizing c with
  | nil => exact hc
  | cons call rest ih => exact ih (declareEach_induct step call.types hc)

/-- Declarations are only added, at the end. -/
theorem declarations_afterAll (calls : List Call) :
    c.declarations <+: (c.afterAll calls).declarations :=
  afterAll_induct (P := fun d => c.declarations <+: d.declarations)
    (fun hc h => by
      obtain ⟨-, -, -, rfl⟩ := declare_eq_ok_iff.mp h
      exact hc.trans (List.prefix_append _ _))
    calls (List.prefix_refl _)

theorem find?_of_prefix (h : c.declarations <+: d.declarations) {name : String} {type : ObjectType}
    (hf : c.find? name = some type) : d.find? name = some type := by
  obtain ⟨later, hd⟩ := h
  unfold find? at hf ⊢
  rw [← hd, List.find?_append, hf]
  rfl

theorem declares_of_prefix (h : c.declarations <+: d.declarations) {name : String}
    (hn : c.declares name = true) : d.declares name = true := by
  obtain ⟨type, hf⟩ := Option.isSome_iff_exists.mp hn
  exact Option.isSome_iff_exists.mpr ⟨type, find?_of_prefix h hf⟩

theorem declares_of_mem {type : ObjectType} (h : type ∈ c.declarations) :
    c.declares type.name = true := by
  simp only [declares, find?, List.find?_isSome]
  exact ⟨type, h, by simp⟩

theorem mem_of_find? {name : String} {type : ObjectType} (h : c.find? name = some type) :
    type ∈ c.declarations := List.mem_of_find?_eq_some h

/-! ## Closed catalogues -/

/-- A catalogue whose names all stand for something, each for one type. -/
structure Closed (c : Catalogue) : Prop where
  not_builtin : ∀ type ∈ c.declarations, ItemType.builtin? type.name = none
  names_nodup : (c.declarations.map (·.name)).Nodup
  knows_fields : ∀ type ∈ c.declarations, ∀ field ∈ type.fields, c.Knows field.2.type.itemType

theorem Closed.empty : Closed empty where
  not_builtin := by simp [Catalogue.empty]
  names_nodup := List.nodup_nil
  knows_fields := by simp [Catalogue.empty]

/-- An accepted declaration keeps a catalogue closed. Its fields may name the type itself, which is known
from then on. -/
theorem Closed.declare (hc : c.Closed) {type : ObjectType} (h : c.declare type = .ok d) :
    d.Closed := by
  obtain ⟨hbuiltin, hnew, hfields, rfl⟩ := declare_eq_ok_iff.mp h
  have hprefix : c.declarations <+: c.declarations ++ [type] := List.prefix_append _ _
  refine ⟨fun t ht => ?_, ?_, fun t ht field hf name hname => ?_⟩
  · rcases List.mem_append.mp ht with ht | ht
    · exact hc.not_builtin t ht
    · rwa [List.mem_singleton.mp ht]
  · rw [List.map_append, List.map_singleton]
    refine List.nodup_append.mpr ⟨hc.names_nodup, by simp, fun name hm last hl => ?_⟩
    obtain ⟨t, ht, rfl⟩ := List.mem_map.mp hm
    rintro rfl
    rw [← List.mem_singleton.mp hl, declares_of_mem ht] at hnew
    cases hnew
  · rcases List.mem_append.mp ht with ht | ht
    · exact declares_of_prefix hprefix (hc.knows_fields t ht field hf name hname)
    · rw [List.mem_singleton.mp ht] at hf
      rcases hfields field hf name hname with rfl | hd
      · exact declares_of_mem (by simp)
      · exact declares_of_prefix hprefix hd

theorem Closed.afterAll (hc : c.Closed) (calls : List Call) : (c.afterAll calls).Closed :=
  afterAll_induct (fun hc h => hc.declare h) calls hc

/-- In a closed catalogue every declaration is found under its name. -/
theorem Closed.find?_eq (hc : c.Closed) {definition : ObjectType} (h : definition ∈ c.declarations) :
    c.find? definition.name = some definition := by
  obtain ⟨d, hd⟩ := Option.isSome_iff_exists.mp (declares_of_mem h)
  have hname : d.name = definition.name := by simpa using List.find?_some hd
  rw [hd, List.inj_on_of_nodup_map hc.names_nodup (mem_of_find? hd) h hname]

/-! ## Promotion in a closed catalogue -/

/- The recursion is on the item: a type may name itself in its fields, so that only the nesting of the
value bounds how deep promotion goes. -/
mutual
theorem promote_blamesValue (hc : c.Closed) (i : Item) {type : ItemType} (ht : c.Knows type) :
    TypeResult.BlamesValue (c.promote i type) := by
  cases i with
  | object pairs =>
    cases type with
    | declared name =>
      obtain ⟨definition, hd⟩ := Option.isSome_iff_exists.mp (ht name rfl)
      simp only [promote, hd]
      cases definition.missing? pairs with
      | some field => exact .error rfl
      | none =>
        have hfields := hc.knows_fields definition (mem_of_find? hd)
        exact (promotePairs_blamesValue hc pairs hfields).bind fun _ => .ok _
    | _ =>
      simp only [promote]
      exact .promoteBuiltin _ _
  | _ =>
    rw [promote_of_not_isObject c rfl]
    exact .promoteBuiltin _ _
termination_by sizeOf i

theorem promoteEach_blamesValue (hc : c.Closed) (items : List Item) {type : ItemType} (ht : c.Knows type) :
    TypeResult.BlamesValue (c.promoteEach type items) := by
  cases items with
  | nil => exact .ok _
  | cons i rest =>
    rw [promoteEach]
    refine (promote_blamesValue hc i ht).bind fun _ => ?_
    exact (promoteEach_blamesValue hc rest ht).bind fun _ => .ok _
termination_by sizeOf items

theorem promotePairs_blamesValue (hc : c.Closed) (pairs : List (String × Item))
    {fields : List (String × FieldType)}
    (hf : ∀ field ∈ fields, c.Knows field.2.type.itemType) :
    TypeResult.BlamesValue (c.promotePairs fields pairs) := by
  match pairs with
  | [] => exact .ok _
  | (key, value) :: rest =>
    rw [promotePairs_cons]
    refine .bind ?_ fun _ => (promotePairs_blamesValue hc rest hf).bind fun _ => .ok _
    cases hl : fields.lookup key with
    | none => exact .ok value
    | some field =>
      obtain ⟨before, after, rfl, -⟩ := List.lookup_eq_some_iff.mp hl
      have ht : c.Knows field.type.itemType := hf (key, field) (by simp)
      cases value with
      | array members =>
        simp only [promoteValueOf, promoteField_array]
        cases field.type.occurrence.max with
        | some n => exact promote_blamesValue hc (.array members) ht
        | none =>
          dsimp only
          split
          · exact .ok _
          · exact .bind (.checkCount _ _) fun _ => .map _ (promoteEach_blamesValue hc members ht)
      | string text =>
        simp only [promoteValueOf, promoteField]
        split
        · exact .ok _
        · split
          · exact .cast _ _
          · exact .promoteBuiltin _ _
      | _ =>
        simp only [promoteValueOf, promoteField]
        split
        · exact .ok _
        · exact promote_blamesValue hc _ ht
termination_by sizeOf pairs
end

theorem promoteSequence_blamesValue (hc : c.Closed) (items : Sequence) {type : SequenceType}
    (ht : c.Knows type.itemType) : TypeResult.BlamesValue (c.promoteSequence items type) := by
  unfold promoteSequence
  split
  · exact .ok _
  · exact (TypeResult.BlamesValue.checkCount _ _).bind fun _ => promoteEach_blamesValue hc items ht

/-! ## After any calls -/

/-- **Declarations stay closed.** Let any calls be made on a new catalogue, accepted or not. Then no
declared name is built in, no name is declared twice, and every declared type that a field names is
declared. A single declaration that is refused changes nothing; later calls keep every declaration under
its name and in its place. So an item, or a sequence, is never refused by a type that passes the check
for the sake of a name that stands for no type: what fails is a value. -/
theorem closed_after_calls (calls : List Call) :
    let c := empty.afterAll calls
    (∀ type ∈ c.declarations, ItemType.builtin? type.name = none) ∧
    (c.declarations.map (·.name)).Nodup ∧
    (∀ type ∈ c.declarations, ∀ field ∈ type.fields, ∀ name,
      field.2.type.itemType = .declared name → c.declares name = true) ∧
    (∀ type fault, c.declare type = .error fault → c.after (.declare type) = c) ∧
    (∀ later : List Call,
      c.declarations <+: (c.afterAll later).declarations ∧
      ∀ name type, c.find? name = some type → (c.afterAll later).find? name = some type) ∧
    (∀ type : SequenceType, c.check type = .ok () →
      (∀ item fault, c.promote item type.itemType = .error fault → fault.isSchemaFault = false) ∧
      ∀ items fault, c.promoteSequence items type = .error fault → fault.isSchemaFault = false) := by
  intro c
  have hc : c.Closed := Closed.empty.afterAll calls
  refine ⟨hc.not_builtin, hc.names_nodup, hc.knows_fields, fun type fault h => ?_, fun later => ?_,
    fun type ht => ?_⟩
  · exact after_declare_of_refused (declare_eq_error_iff.mp h)
  · exact ⟨declarations_afterAll later, fun _ _ => find?_of_prefix (declarations_afterAll later)⟩
  · have hknown := check_eq_ok_iff.mp ht
    exact ⟨fun item => promote_blamesValue hc item hknown,
      fun items => promoteSequence_blamesValue hc items hknown⟩

/-- A type of chained nodes is accepted; its repetition, a built-in name and a field of an unknown type are
not. A chain that ends in a number is refused for that number. -/
theorem closed_after_refused_calls :
    let node : ObjectType := ⟨"Node", [("next", ⟨.of (.declared "Node") .zeroOrOne, true⟩)]⟩
    let calls : List Call :=
      [.declareAll [node, node, ⟨"Late", []⟩], .declare ⟨"integer", []⟩,
        .declare ⟨"Leaf", [("of", ⟨.of (.declared "Branch") .one, true⟩)]⟩]
    let chain : Item := .object [("next", .object [("next", .integer 1)])]
    empty.afterAll calls = ⟨[node]⟩ ∧
      promote ⟨[node]⟩ chain (.declared "Node") = .error (.promotion "integer" "Node") ∧
      (TypeFault.promotion "integer" "Node").isSchemaFault = false := by
  intro node calls chain
  have hc : empty.afterAll calls = ⟨[node]⟩ := by decide +kernel
  have hp : promote ⟨[node]⟩ chain (.declared "Node") = .error (.promotion "integer" "Node") := by
    with_unfolding_all rfl
  have h := closed_after_calls calls
  rw [hc] at h
  exact ⟨hc, hp, (h.2.2.2.2.2 (.of (.declared "Node") .one) (by decide +kernel)).1 chain _ hp⟩

end Catalogue
end HybridQuery
