import Mathlib.Data.List.Nodup
import HybridQuery.Proofs.Declarations
import HybridQuery.Proofs.Promotion
import HybridQuery.Proofs.Results

/-!
# Fields of declared types

The value of a field stands for a sequence: an array for its members where the type of the field has no
upper bound, null for nothing at all where the field may be left empty, any other value for itself. A field
accepts what its type says of that sequence, with two exceptions. A field of the empty sequence accepts
anything and keeps it as it is. Text is cast where it is the value of a field, not where it is a member of an
array.

* `Catalogue.promotePairs_eq_ok_iff`, `Catalogue.promoteSequence_eq_ok_iff`: what promotion makes of lists.
* `Catalogue.promote_declared_eq_ok_iff`: an object is promoted field by field.
* `SequenceType.standsFor`, `Catalogue.Describes`: what the type of a field says of a value.
* `Catalogue.fields_accept_described`: which values the fields of a declared type accept.
-/

namespace HybridQuery

/-! ## Kinds of items -/

theorem Item.decimal?_isSome (i : Item) : i.decimal?.isSome = true → i.isNumeric = true := by
  cases i <;> simp [decimal?, isNumeric]

theorem Item.double?_isSome (i : Item) : i.double?.isSome = true → i.isNumeric = true := by
  cases i <;> simp [double?, isNumeric]

/-- What an item is taken to by a type that is built in: itself, or another number. -/
theorem Item.eq_or_isNumeric_of_promoteBuiltin {i j : Item} {type : ItemType}
    (h : i.promoteBuiltin type = .ok j) : j = i ∨ i.isNumeric = true ∧ j.isNumeric = true := by
  cases type
  case decimal =>
    cases hd : i.decimal? <;> simp only [promoteBuiltin, hd] at h <;> cases h
    exact .inr ⟨i.decimal?_isSome (by rw [hd]; rfl), rfl⟩
  case double =>
    cases hd : i.double? <;> simp only [promoteBuiltin, hd] at h <;> cases h
    exact .inr ⟨i.double?_isSome (by rw [hd]; rfl), rfl⟩
  all_goals
    simp only [promoteBuiltin] at h
    generalize ItemType.holds _ i = holds at h
    cases holds <;> cases h
    exact .inl rfl

/-- Text is cast to an item of its type. -/
theorem Item.holds_of_cast {text : String} {type : ItemType} {i : Item} (htype : type.isLexical = true)
    (h : Item.cast text type = .ok i) : type.holds i = true := by
  unfold Item.cast at h
  dsimp only at h
  split at h
  · next ht =>
    cases h
    cases type
    case date | dateTime | time | duration | base64Binary =>
      simp only [Item.ofText?, Option.map_eq_some_iff] at ht
      obtain ⟨a, -, rfl⟩ := ht
      rfl
    all_goals cases htype
  · cases h

namespace Catalogue

variable {c : Catalogue}

/-! ## Promotion of parts -/

theorem promotePairs_eq_mapM (fields : List (String × FieldType)) (pairs : List (String × Item)) :
    c.promotePairs fields pairs =
      pairs.mapM fun p => (p.1, ·) <$> c.promoteValueOf (fields.lookup p.1) p.2 := by
  induction pairs with
  | nil => rfl
  | cons p pairs ih =>
    obtain ⟨key, value⟩ := p
    rw [promotePairs_cons, ih, List.mapM_cons]
    cases c.promoteValueOf (fields.lookup key) value <;> rfl

theorem promotePairs_eq_ok_iff {fields : List (String × FieldType)}
    {pairs results : List (String × Item)} :
    c.promotePairs fields pairs = .ok results ↔
      List.Forall₂ (fun p q => q.1 = p.1 ∧ c.promoteValueOf (fields.lookup p.1) p.2 = .ok q.2) pairs
        results := by
  rw [promotePairs_eq_mapM, mapM_eq_ok_iff]
  refine iff_of_eq (congrArg (List.Forall₂ · pairs results) ?_)
  funext ⟨key, value⟩ ⟨key', value'⟩
  cases c.promoteValueOf (fields.lookup key) value <;> simp [Functor.map, Except.map, and_comm, eq_comm]

theorem promoteSequence_eq_ok_iff {type : SequenceType} {items results : Sequence} :
    c.promoteSequence items type = .ok results ↔
      type.admitsCount items.length = true ∧
        List.Forall₂ (fun i j => c.promote i type.itemType = .ok j) items results := by
  rw [promoteSequence_eq, SequenceType.checkCount]
  cases type.admitsCount items.length with
  | false => simp [bind, Except.bind]
  | true => simpa [bind, Except.bind] using mapM_eq_ok_iff

/-- An object is promoted to a declared type field by field, if it has the required ones. -/
theorem promote_declared_eq_ok_iff {i j : Item} {name : String} :
    c.promote i (.declared name) = .ok j ↔
      ∃ definition pairs results, c.find? name = some definition ∧ i = .object pairs ∧
        definition.missing? pairs = none ∧
        c.promotePairs definition.fields pairs = .ok results ∧ j = .object results := by
  cases i with
  | object pairs =>
    rw [promote]
    cases c.find? name with
    | none => simp
    | some definition =>
      dsimp only
      cases hmissing : definition.missing? pairs with
      | some field => simp [hmissing]
      | none =>
        cases hpairs : c.promotePairs definition.fields pairs <;>
          simp [hmissing, hpairs, bind, Except.bind, pure, Except.pure, eq_comm]
  | _ =>
    rw [promote_of_not_isObject c rfl]
    simp [Item.promoteBuiltin, ItemType.holds]

theorem promote_of_not_declared (i : Item) {type : ItemType} (h : ∀ name, type ≠ .declared name) :
    c.promote i type = i.promoteBuiltin type := by
  rw [promote]
  exact fun name _ htype => absurd htype (h name)

/-! ## Values of fields -/

/-- An array stands for many items. -/
theorem promoteField_of_unbounded {field : FieldType} (h : field.type.occurrence.max = none)
    (members : List Item) :
    c.promoteField field (.array members) = Item.array <$> c.promoteSequence members field.type := by
  rw [promoteField_array, h, promoteSequence]
  dsimp only
  split
  · rfl
  · cases field.type.checkCount members.length <;> rfl

/-- Null stands for nothing. -/
theorem promoteField_null {field : FieldType} (hmax : field.type.occurrence.max = some 1)
    (hempty : field.type.admitsCount 0 = true) : c.promoteField field .null = .ok .null := by
  simp [promoteField, hmax, hempty, Item.isNull, pure, Except.pure]

/-- Text is cast to a type that JSON data carries as text. -/
theorem promoteField_string {field : FieldType} (h : field.type.itemType.isLexical = true)
    (text : String) : c.promoteField field (.string text) = Item.cast text field.type.itemType := by
  simp [promoteField, Item.isNull, h]

/-- The value of a field that is neither cast nor stands for another number of items. -/
structure Plain (field : FieldType) (value : Item) : Prop where
  single : value.isArray = true → field.type.occurrence.max ≠ none
  given : value.isNull = true → ¬(field.type.occurrence.max = some 1 ∧ field.type.admitsCount 0 = true)
  uncast : value.isString = true → field.type.itemType.isLexical = false

/-- Any other value is promoted like an item. -/
theorem promoteField_of_plain {field : FieldType} {value : Item} (h : Plain field value) :
    c.promoteField field value = c.promote value field.type.itemType := by
  cases value with
  | array members =>
    rw [promoteField_array]
    cases hmax : field.type.occurrence.max with
    | none => exact absurd hmax (h.single rfl)
    | some n => rfl
  | null =>
    have hgiven := h.given rfl
    rw [promoteField, if_neg (by simpa [Item.isNull] using hgiven)]
    all_goals exact nofun
  | string text =>
    simp [promoteField, Item.isNull, h.uncast rfl, promote_of_not_isObject c (i := .string text) rfl]
  | _ => rfl

end Catalogue

/-! ## What a type says of a value -/

namespace SequenceType

/-- The sequence that the value of a field of this type stands for. -/
def standsFor (type : SequenceType) : Item → Sequence
  | .array members => if type.occurrence.max = none then members else [.array members]
  | .null => if type.occurrence.max = some 1 ∧ type.admitsCount 0 = true then [] else [.null]
  | value => [value]

theorem standsFor_array {type : SequenceType} (h : type.occurrence.max = none) (members : List Item) :
    type.standsFor (.array members) = members := if_pos h

theorem standsFor_null {type : SequenceType} (hmax : type.occurrence.max = some 1)
    (hempty : type.admitsCount 0 = true) : type.standsFor .null = [] := if_pos ⟨hmax, hempty⟩

/-- The values that a field of this type does not take for what they stand for: anything but null where
nothing is admitted, and text that is a member of an array. -/
def Overlooks (type : SequenceType) (value : Item) : Prop :=
  type = .empty ∧ value ≠ .null ∨
    type.occurrence.max = none ∧ type.itemType.isLexical = true ∧
      ∃ members text, value = .array members ∧ .string text ∈ members

theorem admitsCount_one {type : SequenceType} (h : type ≠ .empty) : type.admitsCount 1 = true := by
  cases type with
  | empty => exact absurd rfl h
  | of itemType occurrence => cases occurrence <;> rfl

end SequenceType

namespace Catalogue

variable {c : Catalogue} {field : FieldType} {value : Item}

/-- An item belongs in a field of items of a type: it is promoted to the type, or it is text that is cast
to it. -/
def Belongs (c : Catalogue) (type : ItemType) (i : Item) : Prop :=
  (∃ j, c.promote i type = .ok j) ∨
    ∃ text j, i = .string text ∧ type.isLexical = true ∧ Item.cast text type = .ok j

/-- The value of a field stands for a sequence of the type. -/
structure Describes (c : Catalogue) (type : SequenceType) (value : Item) : Prop where
  count : type.admitsCount (type.standsFor value).length = true
  belong : ∀ i ∈ type.standsFor value, c.Belongs type.itemType i

/-- Text is no item of a type that JSON data carries as text. -/
theorem promote_string_of_isLexical {type : ItemType} (h : type.isLexical = true) (text : String) (j : Item) :
    c.promote (.string text) type ≠ .ok j := by
  rw [promote_of_not_isObject c rfl]
  cases type
  case date | dateTime | time | duration | base64Binary => exact nofun
  all_goals cases h

theorem belongs_iff {type : ItemType} {i : Item} (h : ∀ text, i = .string text → type.isLexical = false) :
    c.Belongs type i ↔ ∃ j, c.promote i type = .ok j := by
  refine ⟨fun hi => hi.resolve_right ?_, .inl⟩
  rintro ⟨text, -, rfl, htype, -⟩
  rw [h text rfl] at htype
  cases htype

theorem belongs_string_iff {type : ItemType} (h : type.isLexical = true) (text : String) :
    c.Belongs type (.string text) ↔ ∃ j, Item.cast text type = .ok j := by
  refine ⟨?_, fun ⟨j, hj⟩ => .inr ⟨text, j, rfl, h, hj⟩⟩
  rintro (⟨j, hj⟩ | ⟨_, j, ⟨⟩, -, hj⟩)
  · exact absurd hj (promote_string_of_isLexical h text j)
  · exact ⟨j, hj⟩

theorem describes_iff {type : SequenceType} {items : Sequence} (h : type.standsFor value = items) :
    c.Describes type value ↔
      type.admitsCount items.length = true ∧ ∀ i ∈ items, c.Belongs type.itemType i := by
  subst h
  exact ⟨fun hd => ⟨hd.count, hd.belong⟩, fun ⟨hcount, hbelong⟩ => ⟨hcount, hbelong⟩⟩

theorem describes_singleton_iff {type : SequenceType} (hempty : type ≠ .empty)
    (h : type.standsFor value = [value]) : c.Describes type value ↔ c.Belongs type.itemType value := by
  rw [describes_iff h, List.forall_mem_singleton]
  exact and_iff_right (SequenceType.admitsCount_one hempty)

/-! ## What a field accepts -/

theorem Plain.standsFor (h : Plain field value) : field.type.standsFor value = [value] := by
  cases value with
  | array members => exact if_neg (h.single rfl)
  | null => exact if_neg (h.given rfl)
  | _ => rfl

theorem accepts_of_plain (hempty : field.type ≠ .empty) (h : Plain field value) :
    (∃ w, c.promoteField field value = .ok w) ↔ c.Describes field.type value := by
  rw [promoteField_of_plain h, describes_singleton_iff hempty h.standsFor, belongs_iff]
  rintro text rfl
  exact h.uncast rfl

/-- An array for many items, if none of them is text that would have to be cast. -/
theorem accepts_of_unbounded {members : List Item} (hmax : field.type.occurrence.max = none)
    (h : ∀ text, .string text ∈ members → field.type.itemType.isLexical = false) :
    (∃ w, c.promoteField field (.array members) = .ok w) ↔ c.Describes field.type (.array members) := by
  have haccepts : (∃ w, c.promoteField field (.array members) = .ok w) ↔
      ∃ results, c.promoteSequence members field.type = .ok results := by
    rw [promoteField_of_unbounded hmax]
    cases c.promoteSequence members field.type <;> simp [Functor.map, Except.map]
  rw [haccepts, describes_iff (SequenceType.standsFor_array hmax members)]
  simp only [promoteSequence_eq_ok_iff, exists_and_left, exists_forall₂_iff]
  refine and_congr_right fun _ => forall₂_congr fun i hi => (belongs_iff ?_).symm
  rintro text rfl
  exact h text hi

/-- Null for nothing. -/
theorem accepts_null (hmax : field.type.occurrence.max = some 1)
    (hempty : field.type.admitsCount 0 = true) :
    (∃ w, c.promoteField field .null = .ok w) ↔ c.Describes field.type .null := by
  rw [describes_iff (SequenceType.standsFor_null hmax hempty)]
  exact iff_of_true ⟨.null, promoteField_null hmax hempty⟩ ⟨hempty, List.forall_mem_nil _⟩

/-- A field accepts what its type describes, except where it does not look. -/
theorem accepts_iff_describes (h : ¬field.type.Overlooks value) :
    (∃ w, c.promoteField field value = .ok w) ↔ c.Describes field.type value := by
  have hempty : value ≠ .null → field.type ≠ .empty := fun hvalue htype => h (.inl ⟨htype, hvalue⟩)
  cases value with
  | array members =>
    by_cases hmax : field.type.occurrence.max = none
    case pos =>
      exact accepts_of_unbounded hmax fun text hmem =>
        Bool.eq_false_iff.mpr fun htype => h (.inr ⟨hmax, htype, members, text, rfl, hmem⟩)
    case neg => exact accepts_of_plain (hempty nofun) ⟨fun _ => hmax, nofun, nofun⟩
  | null =>
    by_cases hnone : field.type.occurrence.max = some 1 ∧ field.type.admitsCount 0 = true
    case pos => exact accepts_null hnone.1 hnone.2
    case neg =>
      refine accepts_of_plain (fun htype => hnone ?_) ⟨nofun, fun _ => hnone, nofun⟩
      rw [htype]
      exact ⟨rfl, rfl⟩
  | string text =>
    by_cases htype : field.type.itemType.isLexical = true
    case pos =>
      rw [promoteField_string htype, describes_singleton_iff (hempty nofun) rfl, belongs_string_iff htype]
    case neg => exact accepts_of_plain (hempty nofun) ⟨nofun, nofun, fun _ => Bool.eq_false_iff.mpr htype⟩
  | _ => exact accepts_of_plain (hempty nofun) ⟨nofun, nofun, nofun⟩

/-- A field of the empty sequence keeps whatever it is given. -/
theorem promoteField_empty (h : field.type = .empty) (value : Item) :
    c.promoteField field value = .ok value := by
  by_cases hnull : value = .null
  · rw [hnull]
    exact promoteField_null (by rw [h]; rfl) (by rw [h]; rfl)
  · rw [promoteField_of_plain ⟨fun _ => by rw [h]; exact nofun, fun hvalue => ?_, fun _ => by rw [h]; rfl⟩, h]
    · exact c.promote_item value
    · cases value <;> first | exact absurd rfl hnull | cases hvalue

/-- An array with text in it is refused by a field of many items that JSON data carries as text. -/
theorem promoteField_array_string {members : List Item} {text : String}
    (hmax : field.type.occurrence.max = none) (htype : field.type.itemType.isLexical = true)
    (hmem : .string text ∈ members) (w : Item) : c.promoteField field (.array members) ≠ .ok w := by
  rw [promoteField_of_unbounded hmax]
  intro hw
  cases hs : c.promoteSequence members field.type with
  | error fault =>
    rw [hs] at hw
    cases hw
  | ok results =>
    obtain ⟨-, hall⟩ := promoteSequence_eq_ok_iff.mp hs
    obtain ⟨j, hj⟩ := exists_forall₂_iff.mp ⟨results, hall⟩ _ hmem
    exact promote_string_of_isLexical htype text j hj

/-! ## Objects -/

/-- An object passes for a declared type if it has the required fields and every declared field accepts its
value. -/
theorem accepts_object_iff {definition : ObjectType} (h : c.find? definition.name = some definition)
    (pairs : List (String × Item)) :
    (∃ w, c.promote (.object pairs) (.declared definition.name) = .ok w) ↔
      definition.missing? pairs = none ∧
        ∀ p ∈ pairs, ∀ field, definition.fields.lookup p.1 = some field →
          ∃ w, c.promoteField field p.2 = .ok w := by
  have hpairs : (∃ results, c.promotePairs definition.fields pairs = .ok results) ↔
      ∀ p ∈ pairs, ∀ field, definition.fields.lookup p.1 = some field →
        ∃ w, c.promoteField field p.2 = .ok w := by
    simp only [promotePairs_eq_ok_iff, exists_forall₂_iff]
    refine forall₂_congr fun p _ => ?_
    cases hl : definition.fields.lookup p.1 with
    | none => exact ⟨fun _ => nofun, fun _ => ⟨p, rfl, rfl⟩⟩
    | some field =>
      refine ⟨fun ⟨q, _, hq⟩ _ hfield => ?_, fun hall => ?_⟩
      · cases hfield
        exact ⟨q.2, hq⟩
      · obtain ⟨w, hw⟩ := hall field rfl
        exact ⟨(p.1, w), rfl, hw⟩
  rw [← hpairs]
  constructor
  · rintro ⟨w, hw⟩
    obtain ⟨_, _, results, hd, ⟨⟩, hmissing, hresults, -⟩ := promote_declared_eq_ok_iff.mp hw
    cases h.symm.trans hd
    exact ⟨hmissing, results, hresults⟩
  · rintro ⟨hmissing, results, hresults⟩
    exact ⟨.object results,
      promote_declared_eq_ok_iff.mpr ⟨definition, pairs, results, h, rfl, hmissing, hresults, rfl⟩⟩

/-- **What fields accept.** Let any calls be made on a new catalogue, and take any field of a declared type
and any value. Unless the field overlooks what the value stands for, it accepts the value exactly if its
type describes it: the number of items is admitted, and every item is promoted to the type of the items, or
is text that is cast to it. A field of the empty sequence keeps any value; a field of many dates, times,
durations or bytes refuses every array with text in it. An object passes for the type if it has the
required fields and its declared fields accept their values. -/
theorem fields_accept_described (calls : List Call) :
    let c := empty.afterAll calls
    ∀ definition ∈ c.declarations,
      (∀ key field value, definition.fields.lookup key = some field →
        (¬field.type.Overlooks value →
          ((∃ w, c.promoteField field value = .ok w) ↔ c.Describes field.type value)) ∧
        (field.type = .empty → c.promoteField field value = .ok value) ∧
        (field.type ≠ .empty → field.type.Overlooks value → ∀ w, c.promoteField field value ≠ .ok w)) ∧
      ∀ pairs,
        (∃ w, c.promote (.object pairs) (.declared definition.name) = .ok w) ↔
          definition.missing? pairs = none ∧
            ∀ p ∈ pairs, ∀ field, definition.fields.lookup p.1 = some field →
              ∃ w, c.promoteField field p.2 = .ok w := by
  intro c definition hdefinition
  have hc : c.Closed := Closed.empty.afterAll calls
  refine ⟨fun key field value _ => ⟨accepts_iff_describes, fun h => promoteField_empty h value, ?_⟩,
    accepts_object_iff (hc.find?_eq hdefinition)⟩
  rintro hempty (⟨h, -⟩ | ⟨hmax, htype, members, text, rfl, hmem⟩)
  · exact absurd h hempty
  · exact promoteField_array_string hmax htype hmem

/-- A chain of spans whose lengths are text: accepted, so described. -/
theorem fields_accept_described_spans :
    let span : ObjectType :=
      ⟨"Span", [("length", ⟨.of .duration .zeroOrOne, true⟩),
        ("parts", ⟨.of (.declared "Span") .oneOrMore, false⟩)]⟩
    let c := empty.afterAll [.declare span]
    let parts : FieldType := ⟨.of (.declared "Span") .oneOrMore, false⟩
    let value : Item := .array [.object [("length", .string "PT1S")], .object [("length", .null)]]
    span ∈ c.declarations ∧ span.fields.lookup "parts" = some parts ∧ ¬parts.type.Overlooks value ∧
      c.Describes parts.type value := by
  intro span c parts value
  have hc : c = ⟨[span]⟩ := by decide +kernel
  have hmem : span ∈ c.declarations := by rw [hc]; exact List.mem_singleton_self span
  have hfield : span.fields.lookup "parts" = some parts := by decide +kernel
  have hlooks : ¬parts.type.Overlooks value := by
    rintro (⟨⟨⟩, -⟩ | ⟨-, ⟨⟩, -⟩)
  have haccepts : ∃ w, c.promoteField parts value = .ok w := by
    rw [hc]
    exact ⟨.array [.object [("length", .duration ⟨1000000000⟩)], .object [("length", .null)]],
      by with_unfolding_all rfl⟩
  exact ⟨hmem, hfield, hlooks,
    (((fields_accept_described [.declare span] span hmem).1 "parts" parts value hfield).1 hlooks).mp haccepts⟩

/-- A number in a field of the empty sequence is accepted, text in an array of dates is not; their types say
the opposite. -/
theorem fields_overlook :
    let log : ObjectType := ⟨"Log", [("none", ⟨.empty, false⟩), ("days", ⟨.of .date .zeroOrMore, false⟩)]⟩
    let c := empty.afterAll [.declare log]
    let days : Item := .array [.string "2024-03-01"]
    (∃ w, c.promote (.object [("none", .integer 1)]) (.declared "Log") = .ok w) ∧
      ¬c.Describes .empty (.integer 1) ∧
      (∀ w, c.promote (.object [("days", days)]) (.declared "Log") ≠ .ok w) ∧
      c.Describes (.of .date .zeroOrMore) days := by
  intro log c days
  have hc : c = ⟨[log]⟩ := by decide +kernel
  refine ⟨?_, fun h => ?_, fun w hw => ?_, ?_⟩
  · rw [hc]
    exact ⟨.object [("none", .integer 1)], by with_unfolding_all rfl⟩
  · cases h.count
  · have hlog : c.find? log.name = some log := by rw [hc]; decide +kernel
    obtain ⟨-, hfields⟩ := (accepts_object_iff hlog _).mp ⟨w, hw⟩
    obtain ⟨v, hv⟩ := hfields _ (List.mem_singleton_self _) ⟨.of .date .zeroOrMore, false⟩ (by decide +kernel)
    exact promoteField_array_string rfl rfl (List.mem_singleton_self _) v hv
  · refine ⟨rfl, List.forall_mem_singleton.mpr ((belongs_string_iff rfl _).mpr ?_)⟩
    exact ⟨.date ⟨2024, 3, 1⟩, by with_unfolding_all rfl⟩

end Catalogue
end HybridQuery
