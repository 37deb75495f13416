import HybridQuery.Proofs.Groups.Keys
import HybridQuery.Proofs.Guarding.Basic
import HybridQuery.Proofs.Promotion

/-!
# The tuples of groups

The tuple of a group binds each variable of the first member that is no key to all its values in the
group, and the keys to their components. It is made unless one of these values is distributed and holds
more items than may be pulled to the host.

* `Value.Fits`: a value may be pulled to the host; `settlesIf_items` says that it is then, and only then.
* `GroupTuple`: what the tuple of a group binds. `GroupFits` says when there is one.
* `settlesIf_linearize`: the tuple of a group is made on that condition.
-/

namespace HybridQuery

variable {env : Environment} {position : SourcePosition}

/-! ## Values on the host -/

/-- A value is on the host, or a cap lets its items through. -/
def Value.Fits (cap : Option Nat) : Value Item → Prop
  | .items _ => True
  | value => ∀ c, cap = some c → value.read.length ≤ c

theorem Value.fits_none : ∀ value : Value Item, value.Fits none
  | .items _ => trivial
  | .rows _ | .columns _ => nofun

theorem Collection.capped_eq_ok {α : Type} {rows : Collection α} {cap : Option Nat}
    (h : ∀ c, cap = some c → rows.records.length ≤ c ∧ c + 1 < wordBound) :
    rows.capped cap = .ok rows.records := by
  cases cap with
  | none => rfl
  | some c =>
    obtain ⟨hfits, hword⟩ := h c rfl
    rw [rows.capped_eq hword, if_neg (by omega)]

section
variable (hcap : ∀ c, env.materializationCap = some c → c + 1 < wordBound)
include hcap

/-- A collection is pulled to the host unless it holds more than the cap lets through. -/
theorem settlesIf_materialize {α : Type} (rows : Collection α) :
    SettlesIf env (fun _ => Engine.materialize rows position)
      (∀ c, env.materializationCap = some c → rows.records.length ≤ c) rows.records := by
  have hsteady : (Engine.materialize rows position).Steady env :=
    (Tends.materialize (F := ⊥) (L := True) rows position).1
  constructor
  · intro hfits
    rw [settles_steady_iff hsteady, Engine.result_materialize,
      Collection.capped_eq_ok fun c hc => ⟨hfits c hc, hcap c hc⟩]
    rfl
  · intro hlong
    push Not at hlong
    obtain ⟨c, hc, hlong⟩ := hlong
    refine ⟨(EngineError.of (.materializationLimit c)).locate position, ?_⟩
    rw [settles_steady_iff hsteady, Engine.result_materialize, hc, rows.capped_eq (hcap c hc),
      if_pos hlong]
    rfl

/-- A value is pulled to the host if it fits. -/
theorem settlesIf_items (value : Value Item) :
    SettlesIf env (fun _ => Engine.items value position) (value.Fits env.materializationCap)
      value.read := by
  cases value with
  | items items => exact .pure items
  | rows rows => exact settlesIf_materialize hcap rows
  | columns frame => exact settlesIf_materialize hcap frame.toRows

end

/-! ## Bindings -/

namespace Tuple

/-- The last of several bindings of a variable counts. -/
theorem get?_foldl_bind {β : Type} (name : β → String) (value : β → Value Item) (l : List β) (t : Tuple)
    (other : String) :
    (l.foldl (fun t b => t.bind (name b) (value b)) t).get? other =
      ((l.reverse.find? (name · == other)).map value).or (t.get? other) := by
  induction l generalizing t with
  | nil => rfl
  | cons b l ih =>
    rw [List.foldl_cons, ih, get?_bind, List.reverse_cons, List.find?_append, List.find?_singleton]
    cases l.reverse.find? (name · == other) with
    | some c => rfl
    | none =>
      by_cases h : name b = other
      · simp [h]
      · simp [h, Ne.symm h]

/-- The items that a variable reads back as; there are none if it is not bound. -/
def readAt (t : Tuple) (name : String) : Sequence :=
  match t.get? name with
  | some value => value.read
  | none => []

theorem mem_names {t : Tuple} {name : String} : name ∈ t.names ↔ (t.get? name).isSome = true := by
  rw [names, get?]
  induction t.pairs with
  | nil => simp
  | cons p pairs ih =>
    rw [List.map_cons, List.mem_cons, ih, List.lookup_cons]
    by_cases h : name = p.1
    · simp [h]
    · simp [h, beq_eq_false_iff_ne.mpr h]

end Tuple

/-! ## Groups -/

/-- A variable is none of the keys. -/
def IsOther (keys : List (GroupKey Plan)) (name : String) : Prop :=
  ∀ key ∈ keys, key.variableName ≠ name

/-- The component of a variable that is a key; of several keys with one name the last counts. -/
def componentOf? (keys : List (GroupKey Plan)) (k : GroupingKey) (name : String) :
    Option (Option Item) :=
  ((keys.zip k).reverse.find? (·.1.variableName == name)).map (·.2)

/-- What the tuple of a group binds. -/
structure GroupTuple (keys : List (GroupKey Plan)) (k : GroupingKey) (members : List Tuple)
    (t : Tuple) : Prop where
  /-- A key is bound to its component. -/
  grouping : ∀ key ∈ keys, ∃ component, componentOf? keys k key.variableName = some component ∧
    t.get? key.variableName = some (keyValue component)
  /-- The other variables of the first member are bound to all their values, one member after the
  other. -/
  others : ∀ name, IsOther keys name → t.get? name =
    (members.head?.bind (·.get? name)).map fun _ => .items (members.flatMap (·.readAt name))

/-- The values of a variable in a group may be pulled to the host. -/
def ValuesFit (cap : Option Nat) (members : List Tuple) (name : String) : Prop :=
  ∀ member ∈ members, ∀ value, member.get? name = some value → value.Fits cap

/-- The values that the tuple of a group binds may be pulled to the host. -/
def GroupFits (cap : Option Nat) (keys : List (GroupKey Plan)) (members : List Tuple) : Prop :=
  ∀ first, members.head? = some first → ∀ name, IsOther keys name →
    (first.get? name).isSome = true → ValuesFit cap members name

namespace Tuple

variable {keys : List (GroupKey Plan)} {k : GroupingKey}

theorem get?_bindKeys (t : Tuple) (name : String) :
    (t.bindKeys keys k).get? name = ((componentOf? keys k name).map keyValue).or (t.get? name) := by
  rw [bindKeys, get?_foldl_bind (fun p : GroupKey Plan × Option Item => p.1.variableName)
    (fun p => keyValue p.2), componentOf?, Option.map_map]
  rfl

theorem componentOf?_of_isOther {name : String} (h : IsOther keys name) :
    componentOf? keys k name = none := by
  rw [componentOf?, Option.map_eq_none_iff, List.find?_eq_none]
  intro p hp
  have hkey : p.1 ∈ keys := (List.of_mem_zip (List.mem_reverse.mp hp)).1
  simpa using h p.1 hkey

theorem exists_componentOf? (hlength : k.length = keys.length) {key : GroupKey Plan} (h : key ∈ keys) :
    ∃ component, componentOf? keys k key.variableName = some component := by
  have hzip : key ∈ (keys.zip k).map (·.1) := by
    rwa [← List.unzip_fst, List.unzip_zip_left hlength.ge]
  obtain ⟨p, hp, rfl⟩ := List.mem_map.mp hzip
  rw [← Option.isSome_iff_exists, componentOf?, Option.isSome_map, List.find?_isSome]
  exact ⟨p, List.mem_reverse.mpr hp, beq_self_eq_true _⟩

/-- To bind keys leaves the other variables alone. -/
theorem get?_bindKeys_of_isOther (t : Tuple) {name : String} (h : IsOther keys name) :
    (t.bindKeys keys k).get? name = t.get? name := by
  rw [get?_bindKeys, componentOf?_of_isOther h]
  rfl

/-- The variables of a tuple that are no keys. -/
def others (keys : List (GroupKey Plan)) (t : Tuple) : List String :=
  t.names.filter fun name => !keys.any (·.variableName == name)

theorem mem_others {t : Tuple} {name : String} :
    name ∈ t.others keys ↔ (t.get? name).isSome = true ∧ IsOther keys name := by
  rw [others, List.mem_filter, mem_names]
  simp [IsOther]

/-- Binds variables to all their values in a group. -/
def gather (members : List Tuple) (names : List String) (t : Tuple) : Tuple :=
  names.foldl (fun t name => t.bind name (.items (members.flatMap (·.readAt name)))) t

theorem get?_gather (members : List Tuple) (names : List String) (name : String) :
    (empty.gather members names).get? name =
      if name ∈ names then some (.items (members.flatMap (·.readAt name))) else none := by
  refine (get?_foldl_bind id (fun name => .items (members.flatMap (·.readAt name))) names empty
    name).trans ?_
  by_cases h : name ∈ names
  · have hfind : (names.reverse.find? (id · == name)).isSome = true := by
      rw [List.find?_isSome]
      exact ⟨name, List.mem_reverse.mpr h, beq_self_eq_true name⟩
    obtain ⟨other, hother⟩ := Option.isSome_iff_exists.mp hfind
    obtain rfl : other = name := by simpa using List.find?_some hother
    rw [hother, if_pos h]
    rfl
  · have hfind : names.reverse.find? (id · == name) = none := by
      rw [List.find?_eq_none]
      intro other hmem heq
      obtain rfl : other = name := by simpa using heq
      exact h (List.mem_reverse.mp hmem)
    rw [hfind, if_neg h]
    rfl

/-- The tuple of a group: its variables that are no keys, then the keys. -/
def ofMembers (keys : List (GroupKey Plan)) (k : GroupingKey) : List Tuple → Tuple
  | [] => .empty
  | first :: rest => (empty.gather (first :: rest) (first.others keys)).bindKeys keys k

theorem groupTuple_ofMembers (hlength : k.length = keys.length) {members : List Tuple}
    (hmembers : members ≠ []) : GroupTuple keys k members (ofMembers keys k members) := by
  obtain ⟨first, rest, rfl⟩ := List.exists_cons_of_ne_nil hmembers
  refine ⟨fun key hkey => ?_, fun name hname => ?_⟩
  · obtain ⟨component, hcomponent⟩ := exists_componentOf? hlength hkey
    refine ⟨component, hcomponent, ?_⟩
    rw [ofMembers, get?_bindKeys, hcomponent]
    rfl
  · rw [ofMembers, get?_bindKeys_of_isOther _ hname, get?_gather, List.head?_cons, Option.bind_some]
    cases hv : first.get? name with
    | none =>
      refine if_neg fun h => ?_
      have hbound := (mem_others.mp h).1
      rw [hv] at hbound
      cases hbound
    | some value => exact if_pos (mem_others.mpr ⟨by rw [hv]; rfl, hname⟩)

end Tuple

/-! ## Making the tuples of groups -/

namespace PlanEvaluator

variable (hcap : ∀ c, env.materializationCap = some c → c + 1 < wordBound)
include hcap

theorem settlesIf_groupValues (name : String) (members : List Tuple) :
    SettlesIf env (fun _ => groupValues position name members)
      (ValuesFit env.materializationCap members name) (members.flatMap (·.readAt name)) := by
  have hmember (member : Tuple) : SettlesIf env
      (fun _ => match member.get? name with
        | some value => Engine.items value position
        | none => pure [])
      (∀ value, member.get? name = some value → value.Fits env.materializationCap)
      (member.readAt name) := by
    rw [Tuple.readAt]
    cases member.get? name with
    | none => exact (SettlesIf.pure []).congr ⟨fun _ => nofun, fun _ => trivial⟩ rfl
    | some value => exact (settlesIf_items hcap value).congr (by simp) rfl
  simp only [groupValues, bind_pure_comp]
  exact ((SettlesIf.listMapM fun member _ => hmember member).map List.flatten).congr Iff.rfl
    List.flatMap_def.symm

theorem settlesIf_bindGroupValues (members : List Tuple) (names : List String) (t : Tuple) :
    SettlesIf env (fun _ => bindGroupValues position members names t)
      (∀ name ∈ names, ValuesFit env.materializationCap members name)
      (t.gather members names) := by
  induction names generalizing t with
  | nil => exact (SettlesIf.pure t).congr ⟨fun _ => nofun, fun _ => trivial⟩ rfl
  | cons name names ih =>
    rw [bindGroupValues]
    exact ((settlesIf_groupValues hcap name members).bind (ih _)).congr
      List.forall_mem_cons.symm rfl

/-- The tuple of a group is made if its values may be pulled to the host. -/
theorem settlesIf_linearize (keys : List (GroupKey Plan)) (k : GroupingKey) (members : List Tuple) :
    SettlesIf env (fun _ => linearize keys position (k, members))
      (GroupFits env.materializationCap keys members) (Tuple.ofMembers keys k members) := by
  cases members with
  | nil => exact (SettlesIf.pure _).congr ⟨fun _ _ h => (nomatch h), fun _ => trivial⟩ rfl
  | cons first rest =>
    have hgather := @settlesIf_bindGroupValues env position hcap (first :: rest)
      (first.others keys) .empty
    refine (hgather.map (Tuple.bindKeys keys k)).congr ?_ rfl
    constructor
    · rintro h _ ⟨⟩ name hother hbound
      exact h name (Tuple.mem_others.mpr ⟨hbound, hother⟩)
    · intro h name hname
      obtain ⟨hbound, hother⟩ := Tuple.mem_others.mp hname
      exact h first rfl name hother hbound

end PlanEvaluator
end HybridQuery
