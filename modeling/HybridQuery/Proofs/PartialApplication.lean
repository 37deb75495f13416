import Mathlib.Data.List.Basic
import Mathlib.Data.List.Nodup
import Mathlib.Data.List.Sublists
import HybridQuery.Function.Invocation
import HybridQuery.Function.Registry

/-!
# Partial application

A function may get its arguments in stages: each call but the last leaves some of them out and gives a
function of the parameters that are left. Here the calls in stages are compared with the one call that
gives all arguments.

* `Stage`: which of the arguments that are left a call gives; `FunctionOf.applyInStages`: the calls.
* `Catalogue.Accepts`: the arguments have the types of the parameters, and what they are taken to.
* `FunctionOf.of_all_after_stage`: one stage in front of a full call changes neither whether the call is
  accepted nor what the names are bound to.
* `FunctionOf.applyInStages_agrees`: nor does any number of stages, if no two parameters share a name.
* `FunctionOf.stages_see_other_argument`: with a repeated name the last argument *given* wins, not the
  last one *written*.
-/

namespace HybridQuery

/-! ## Stages -/

/-- Which of the arguments that are left a call gives, by position. -/
abbrev Stage := Nat → Bool

namespace Stage

variable {α β : Type}

/-- The stage seen from the second position. -/
def tail (s : Stage) : Stage := fun i => s (i + 1)

/-- The arguments of a call: placeholders stand for those that it leaves out. -/
def supplied (s : Stage) : List α → List (Option α)
  | [] => []
  | a :: l => (if s 0 then some a else none) :: supplied s.tail l

/-- Those at the positions that a call gives. -/
def given (s : Stage) : List α → List α
  | [] => []
  | a :: l => if s 0 then a :: given s.tail l else given s.tail l

/-- Those at the positions that a call leaves out. -/
def left (s : Stage) : List α → List α
  | [] => []
  | a :: l => if s 0 then left s.tail l else a :: left s.tail l

@[simp] theorem length_supplied (s : Stage) (l : List α) : (s.supplied l).length = l.length := by
  induction l generalizing s with
  | nil => rfl
  | cons a l ih => simp [supplied, ih]

theorem left_map (s : Stage) (f : α → β) (l : List α) : s.left (l.map f) = (s.left l).map f := by
  induction l generalizing s with
  | nil => rfl
  | cons a l ih =>
    simp only [List.map_cons, left, ih]
    split <;> rfl

theorem left_zip (s : Stage) (l : List α) (k : List β) (h : l.length = k.length) :
    s.left (l.zip k) = (s.left l).zip (s.left k) := by
  induction l generalizing s k with
  | nil => rfl
  | cons a l ih =>
    cases k with
    | nil => simp at h
    | cons b k =>
      simp only [List.zip_cons_cons, left]
      split <;> simp [ih s.tail k (by simpa using h)]

theorem length_left_congr (s : Stage) {l : List α} {k : List β} (h : l.length = k.length) :
    (s.left l).length = (s.left k).length := by
  have hlk : l.map (fun _ => ()) = k.map fun _ => () := by simp only [List.map_const', h]
  calc (s.left l).length = (s.left (l.map fun _ => ())).length := by rw [left_map, List.length_map]
    _ = (s.left k).length := by rw [hlk, left_map, List.length_map]

theorem given_append_left_perm (s : Stage) (l : List α) : (s.given l ++ s.left l).Perm l := by
  induction l generalizing s with
  | nil => exact .nil
  | cons a l ih =>
    simp only [given, left]
    split
    · exact (ih s.tail).cons a
    · exact List.perm_middle.trans ((ih s.tail).cons a)

theorem left_sublist (s : Stage) (l : List α) : List.Sublist (s.left l) l := by
  induction l generalizing s with
  | nil => exact .slnil
  | cons a l ih =>
    simp only [left]
    split
    · exact (ih s.tail).cons a
    · exact (ih s.tail).cons_cons a

/-- A call without placeholders gives all arguments. -/
theorem complete_of_no_placeholder {s : Stage} {l : List α}
    (h : (s.supplied l).any Option.isNone = false) : s.supplied l = l.map some ∧ s.left l = [] := by
  induction l generalizing s with
  | nil => exact ⟨rfl, rfl⟩
  | cons a l ih =>
    simp only [supplied, List.any_cons, Bool.or_eq_false_iff] at h
    obtain ⟨ha, hl⟩ := h
    obtain ⟨hs, hn⟩ := ih hl
    have h0 : s 0 = true := by
      by_contra h0
      simp [h0] at ha
    exact ⟨by simp [supplied, h0, hs], by simp [left, h0, hn]⟩

/-- Whether a call has placeholders does not depend on its arguments. -/
theorem any_isNone_congr (s : Stage) {l : List α} {k : List β} (h : l.length = k.length) :
    (s.supplied l).any Option.isNone = (s.supplied k).any Option.isNone := by
  induction l generalizing s k with
  | nil =>
    cases k with
    | nil => rfl
    | cons b k => simp at h
  | cons a l ih =>
    cases k with
    | nil => simp at h
    | cons b k =>
      have hr := ih s.tail (k := k) (by simpa using h)
      by_cases h0 : s 0 <;> simp [supplied, h0, hr]

/-- The stage that gives everything. -/
def all : Stage := fun _ => true

@[simp] theorem supplied_all (l : List α) : all.supplied l = l.map some := by
  induction l with
  | nil => rfl
  | cons a l ih => exact congrArg (some a :: ·) ih

@[simp] theorem left_all (l : List α) : all.left l = [] := by
  induction l with
  | nil => rfl
  | cons a l ih => exact ih

/-- Of the slots of a call, those without an argument are the ones that are left. -/
theorem left_of_slots (s : Stage) {l : List α} {values : List β} (h : l.length = values.length) :
    ((l.zip (s.supplied values)).filter (·.2.isNone)).map (·.1) = s.left l := by
  induction l generalizing s values with
  | nil => rfl
  | cons a l ih =>
    cases values with
    | nil => simp at h
    | cons v values =>
      have hlen : l.length = values.length := by simpa using h
      have hr := ih s.tail hlen
      by_cases h0 : s 0 <;> simpa [supplied, left, h0] using hr

end Stage

/-! ## Binding several names -/

namespace BindingsOf

variable {α : Type}

/-- Binds names in order. -/
def bindAll (b : BindingsOf α) (pairs : List (String × Value α)) : BindingsOf α :=
  pairs.foldl (fun b p => b.bind p.1 p.2) b

theorem bindAll_append (b : BindingsOf α) (l k : List (String × Value α)) :
    b.bindAll (l ++ k) = (b.bindAll l).bindAll k := List.foldl_append

theorem get?_bind (b : BindingsOf α) (name other : String) (value : Value α) :
    (b.bind name value).get? other = if other = name then some value else b.get? other := by
  simp only [get?, bind, List.lookup_cons]
  by_cases h : other = name
  · simp [h]
  · simp only [beq_eq_false_iff_ne.mpr h, if_neg h]
    induction b.pairs with
    | nil => rfl
    | cons p pairs ih =>
      by_cases hp : p.1 = name
      · have hne : (other == p.1) = false := by simpa [hp] using h
        rw [List.filter_cons_of_neg (by simp [hp]), ih, List.lookup_cons, hne]
      · rw [List.filter_cons_of_pos (by simp [hp]), List.lookup_cons, List.lookup_cons, ih]

theorem get?_bindAll_of_not_mem {pairs : List (String × Value α)} {name : String}
    (h : name ∉ pairs.map (·.1)) (b : BindingsOf α) : (b.bindAll pairs).get? name = b.get? name := by
  induction pairs generalizing b with
  | nil => rfl
  | cons p pairs ih =>
    simp only [List.map_cons, List.mem_cons, not_or] at h
    calc ((b.bind p.1 p.2).bindAll pairs).get? name = (b.bind p.1 p.2).get? name := ih h.2 _
      _ = b.get? name := by rw [get?_bind, if_neg h.1]

theorem get?_bindAll_of_mem {pairs : List (String × Value α)} {name : String} {value : Value α}
    (hn : (pairs.map (·.1)).Nodup) (h : (name, value) ∈ pairs) (b : BindingsOf α) :
    (b.bindAll pairs).get? name = some value := by
  induction pairs generalizing b with
  | nil => simp at h
  | cons p pairs ih =>
    simp only [List.map_cons, List.nodup_cons] at hn
    rcases List.mem_cons.mp h with rfl | hm
    · calc ((b.bind name value).bindAll pairs).get? name = (b.bind name value).get? name :=
            get?_bindAll_of_not_mem hn.1 _
        _ = some value := by rw [get?_bind, if_pos rfl]
    · exact ih hn.2 hm _

/-- The order in which different names are bound does not matter. -/
theorem get?_bindAll_perm {l k : List (String × Value α)} (hp : l.Perm k) (hn : (l.map (·.1)).Nodup)
    (b : BindingsOf α) (name : String) : (b.bindAll l).get? name = (b.bindAll k).get? name := by
  have hk : (k.map (·.1)).Nodup := (hp.map _).nodup_iff.mp hn
  by_cases h : name ∈ l.map (·.1)
  · obtain ⟨p, hm, rfl⟩ := List.mem_map.mp h
    rw [get?_bindAll_of_mem hn hm, get?_bindAll_of_mem hk (hp.mem_iff.mp hm)]
  · have h' : name ∉ k.map (·.1) := fun hm => h ((hp.map _).mem_iff.mpr hm)
    rw [get?_bindAll_of_not_mem h, get?_bindAll_of_not_mem h']

end BindingsOf

/-! ## Arguments of the right types -/

namespace Catalogue

variable {c : Catalogue}

/-- Takes one argument to the type of its parameter. -/
def accept (c : Catalogue) (type : SequenceType) (value : Value Item) : TypeResult (Value Item) :=
  if type.isUnconstrained then .ok value else c.promoteValue value type

/-- The arguments are accepted for parameters of the types, and what they are taken to. -/
inductive Accepts (c : Catalogue) :
    List SequenceType → List (Value Item) → List (Value Item) → Prop
  | nil : Accepts c [] [] []
  | cons {type types argument arguments value values} :
      c.accept type argument = .ok value → Accepts c types arguments values →
      Accepts c (type :: types) (argument :: arguments) (value :: values)

/-- Of the first argument and the others each is promoted on its own. -/
theorem promoteArguments_cons_eq_ok {argument : Option (Value Item)} {type : SequenceType}
    {arguments prepared : List (Option (Value Item))} {types : List SequenceType} :
    c.promoteArguments (argument :: arguments) (type :: types) = .ok prepared ↔
      ∃ first rest, argument.mapM (c.accept type) = .ok first ∧
        c.promoteArguments arguments types = .ok rest ∧ prepared = first :: rest := by
  have hcons : c.promoteArguments (argument :: arguments) (type :: types) =
      (argument.mapM (c.accept type) >>= fun first =>
        c.promoteArguments arguments types >>= fun rest => .ok (first :: rest)) := by
    cases argument with
    | none => rfl
    | some value =>
      simp only [promoteArguments, accept, Option.mapM_some]
      split <;> rfl
  rw [hcons]
  cases argument.mapM (c.accept type) with
  | error e => simp [bind, Except.bind]
  | ok first =>
    cases c.promoteArguments arguments types with
    | error e => simp [bind, Except.bind]
    | ok rest => simp [bind, Except.bind, eq_comm]

theorem mapM_some_eq_ok {f : Value Item → TypeResult (Value Item)} {argument : Value Item}
    {first : Option (Value Item)} :
    (some argument).mapM f = .ok first ↔ ∃ value, f argument = .ok value ∧ first = some value := by
  simp only [Option.mapM_some]
  cases f argument <;> simp [Functor.map, Except.map, eq_comm]

theorem mapM_none_eq_ok {f : Value Item → TypeResult (Value Item)} {first : Option (Value Item)} :
    (none : Option (Value Item)).mapM f = .ok first ↔ first = none := by
  simp [pure, Except.pure, eq_comm]

/-- Promotion leaves the placeholders of a stage where they are. -/
theorem supplied_of_promoteArguments {arguments : List (Value Item)} {types : List SequenceType}
    {prepared : List (Option (Value Item))} (s : Stage) (hlen : arguments.length = types.length)
    (h : c.promoteArguments (s.supplied arguments) types = .ok prepared) :
    ∃ values : List (Value Item), values.length = arguments.length ∧ prepared = s.supplied values := by
  induction arguments generalizing s types prepared with
  | nil => exact ⟨[], rfl, (Except.ok.inj h).symm⟩
  | cons argument arguments ih =>
    cases types with
    | nil => simp at hlen
    | cons type types =>
      obtain ⟨first, rest, hf, hr, rfl⟩ := promoteArguments_cons_eq_ok.mp h
      obtain ⟨values, hl, rfl⟩ := ih s.tail (by simpa using hlen) hr
      by_cases h0 : s 0
      · rw [if_pos h0, mapM_some_eq_ok] at hf
        obtain ⟨value, -, rfl⟩ := hf
        exact ⟨value :: values, by simp [hl], by rw [Stage.supplied, if_pos h0]⟩
      · rw [if_neg h0, mapM_none_eq_ok] at hf
        subst hf
        exact ⟨argument :: values, by simp [hl], by rw [Stage.supplied, if_neg h0]⟩

namespace Accepts

variable {types : List SequenceType} {arguments values : List (Value Item)}

theorem length_eq (h : Accepts c types arguments values) :
    types.length = values.length ∧ arguments.length = values.length := by
  induction h with
  | nil => exact ⟨rfl, rfl⟩
  | cons _ _ ih => exact ⟨by simp [ih.1], by simp [ih.2]⟩

theorem unique {others : List (Value Item)} (h : Accepts c types arguments values)
    (h' : Accepts c types arguments others) : values = others := by
  induction h generalizing others with
  | nil => cases h'; rfl
  | cons ha _ ih =>
    cases h' with
    | cons hb h' => rw [Except.ok.inj (ha.symm.trans hb), ih h']

/-- A stage gives part of the accepted arguments, and the others remain accepted. -/
theorem split (h : Accepts c types arguments values) (s : Stage) :
    c.promoteArguments (s.supplied arguments) types = .ok (s.supplied values) ∧
      Accepts c (s.left types) (s.left arguments) (s.left values) := by
  induction h generalizing s with
  | nil => exact ⟨rfl, .nil⟩
  | cons ha _ ih =>
    obtain ⟨hp, hl⟩ := ih s.tail
    simp only [Stage.supplied, Stage.left, promoteArguments_cons_eq_ok]
    by_cases h0 : s 0
    · simp only [h0, if_true]
      exact ⟨⟨_, _, mapM_some_eq_ok.mpr ⟨_, ha, rfl⟩, hp, rfl⟩, hl⟩
    · simp only [h0]
      exact ⟨⟨_, _, mapM_none_eq_ok.mpr rfl, hp, rfl⟩, .cons ha hl⟩

/-- The arguments that a stage gives and those it leaves out are accepted only if all of them are. -/
theorem join {prepared : List (Option (Value Item))} {rest : List (Value Item)} (s : Stage)
    (hlen : arguments.length = types.length)
    (hp : c.promoteArguments (s.supplied arguments) types = .ok prepared)
    (hl : Accepts c (s.left types) (s.left arguments) rest) :
    ∃ values, Accepts c types arguments values := by
  induction arguments generalizing s types prepared rest with
  | nil =>
    cases types with
    | nil => exact ⟨[], .nil⟩
    | cons type types => simp at hlen
  | cons argument arguments ih =>
    cases types with
    | nil => simp at hlen
    | cons type types =>
      have hlen' : arguments.length = types.length := by simpa using hlen
      obtain ⟨first, prepared, hf, hr, -⟩ := promoteArguments_cons_eq_ok.mp hp
      by_cases h0 : s 0
      · simp only [Stage.left, h0, if_true] at hl
        rw [if_pos h0, mapM_some_eq_ok] at hf
        obtain ⟨value, ha, -⟩ := hf
        obtain ⟨values, h⟩ := ih s.tail hlen' hr hl
        exact ⟨value :: values, .cons ha h⟩
      · simp only [Stage.left, h0] at hl
        cases hl with
        | cons ha hl =>
          obtain ⟨values, h⟩ := ih s.tail hlen' hr hl
          exact ⟨_, .cons ha h⟩

end Accepts
end Catalogue

/-! ## Calls in stages -/

namespace FunctionOf

variable {f g : FunctionItem} {c : Catalogue} {arguments values : List (Value Item)}

/-- Gives the arguments stage by stage, and in a last call those that are left. The result is the
function that the last call is of, and what that call comes to. -/
def applyInStages (c : Catalogue) :
    List Stage → FunctionItem → List (Value Item) → EngineResult (FunctionItem × Invocation)
  | [], f, arguments => do return (f, ← Invocation.of f c (arguments.map some))
  | s :: stages, f, arguments => do
    match ← Invocation.of f c (s.supplied arguments) with
    | .partially g => applyInStages c stages g (s.left arguments)
    | .fully context => return (f, .fully context)

/-- A function has a type for each of its parameters. -/
def Typed (f : FunctionItem) : Prop := f.parameters.length = f.signature.parameterTypes.length

theorem prepareArguments_eq_ok {given prepared : List (Option (Value Item))} :
    f.prepareArguments c given = .ok prepared ↔
      given.length = f.arity ∧ c.promoteArguments given f.signature.parameterTypes = .ok prepared := by
  rw [prepareArguments]
  split
  · rename_i h
    constructor
    · intro hf
      cases hf
    · intro hp
      exact absurd hp.1 h
  · rename_i h
    rw [not_not] at h
    rw [and_iff_right h, TypeResult.toEngine]
    cases c.promoteArguments given f.signature.parameterTypes <;> simp [Except.mapError]

theorem of_eq_ok {given : List (Option (Value Item))} {invocation : Invocation} :
    Invocation.of f c given = .ok invocation ↔
      ∃ prepared, f.prepareArguments c given = .ok prepared ∧
        invocation = if prepared.any Option.isNone then .partially (f.partiallyApply prepared)
          else .fully (f.invocationContext (prepared.filterMap id)) := by
  rw [Invocation.of]
  cases h : f.prepareArguments c given with
  | error e => simp [bind, Except.bind]
  | ok prepared =>
    simp only [bind, Except.bind, Except.ok.injEq, exists_eq_left']
    split <;> simp [pure, Except.pure, eq_comm]

/-- A call that gives all arguments is accepted exactly if each has the type of its parameter. -/
theorem of_all_eq_fully (hf : f.Typed) {context : Context} :
    Invocation.of f c (arguments.map some) = .ok (.fully context) ↔
      ∃ values, c.Accepts f.signature.parameterTypes arguments values ∧
        context = f.invocationContext values := by
  rw [of_eq_ok]
  constructor
  · rintro ⟨prepared, hp, h⟩
    obtain ⟨hlen, hp⟩ := prepareArguments_eq_ok.mp hp
    rw [← Stage.supplied_all] at hp
    obtain ⟨values, hv⟩ := Catalogue.Accepts.join Stage.all
      (by rwa [List.length_map, arity, hf] at hlen) hp
      (by
        have : Stage.all.left f.signature.parameterTypes = [] := Stage.left_all _
        rw [this, Stage.left_all]
        exact .nil)
    have hpv := Except.ok.inj (hp.symm.trans (hv.split Stage.all).1)
    refine ⟨values, hv, ?_⟩
    simpa [hpv] using h
  · rintro ⟨values, hv, rfl⟩
    refine ⟨values.map some, prepareArguments_eq_ok.mpr ⟨?_, ?_⟩, by simp⟩
    · rw [List.length_map, arity, hf, hv.length_eq.2, hv.length_eq.1]
    · have h := (hv.split Stage.all).1
      rwa [Stage.supplied_all, Stage.supplied_all] at h

/-! ### The function that is left -/

theorem slots_supplied (hf : f.Typed) (s : Stage) (hlen : f.parameters.length = values.length) :
    (((f.slots (s.supplied values)).filter (·.2.isNone)).map (·.1)) =
      s.left (f.parameters.zip f.signature.parameterTypes) := by
  refine s.left_of_slots ?_
  rw [List.length_zip, ← hf, Nat.min_self, hlen]

theorem parameters_partiallyApply (hf : f.Typed) (s : Stage)
    (hlen : f.parameters.length = values.length) :
    (f.partiallyApply (s.supplied values)).parameters = s.left f.parameters := by
  calc (f.partiallyApply (s.supplied values)).parameters
      = (((f.slots (s.supplied values)).filter (·.2.isNone)).map (·.1)).map (·.1) := by
        rw [List.map_map]; rfl
    _ = s.left ((f.parameters.zip f.signature.parameterTypes).map (·.1)) := by
        rw [slots_supplied hf s hlen, Stage.left_map]
    _ = s.left f.parameters := by rw [List.map_fst_zip (Nat.le_of_eq hf)]

theorem parameterTypes_partiallyApply (hf : f.Typed) (s : Stage)
    (hlen : f.parameters.length = values.length) :
    (f.partiallyApply (s.supplied values)).signature.parameterTypes =
      s.left f.signature.parameterTypes := by
  calc (f.partiallyApply (s.supplied values)).signature.parameterTypes
      = (((f.slots (s.supplied values)).filter (·.2.isNone)).map (·.1)).map (·.2) := by
        rw [List.map_map]; rfl
    _ = s.left ((f.parameters.zip f.signature.parameterTypes).map (·.2)) := by
        rw [slots_supplied hf s hlen, Stage.left_map]
    _ = s.left f.signature.parameterTypes := by rw [List.map_snd_zip (Nat.le_of_eq hf.symm)]

theorem bindSlots_supplied (s : Stage) (parameters : List (String × SequenceType))
    (values : List (Value Item)) (b : Bindings) :
    (parameters.zip (s.supplied values)).foldl
        (fun closure slot =>
          match slot.2 with
          | some value => closure.bind slot.1.1 value
          | none => closure) b =
      b.bindAll (s.given ((parameters.map (·.1)).zip values)) := by
  induction parameters generalizing s values b with
  | nil => rfl
  | cons p parameters ih =>
    cases values with
    | nil => rfl
    | cons value values =>
      simp only [Stage.supplied, Stage.given, List.zip_cons_cons, List.map_cons, List.foldl_cons]
      by_cases h0 : s 0
      · simp only [h0, if_true]
        exact ih s.tail values _
      · simp only [h0]
        exact ih s.tail values b

theorem closure_partiallyApply (hf : f.Typed) (s : Stage) :
    (f.partiallyApply (s.supplied values)).closure =
      f.closure.bindAll (s.given (f.parameters.zip values)) := by
  have h := bindSlots_supplied s (f.parameters.zip f.signature.parameterTypes) values f.closure
  rw [List.map_fst_zip (Nat.le_of_eq hf)] at h
  exact h

/-- The function that is left has a type for each of its parameters. -/
theorem Typed.partiallyApply (hf : f.Typed) (s : Stage) (hlen : f.parameters.length = values.length) :
    (f.partiallyApply (s.supplied values)).Typed := by
  rw [Typed, parameters_partiallyApply hf s hlen, parameterTypes_partiallyApply hf s hlen]
  exact s.length_left_congr hf

/-- Whether arguments are bound in one call or in two, each name is bound to the same value. -/
theorem lookup_partiallyApply (hf : f.Typed) (hn : f.parameters.Nodup) (s : Stage)
    (hlen : f.parameters.length = values.length) (name : String) :
    ((f.partiallyApply (s.supplied values)).invocationContext (s.left values)).lookup name =
      (f.invocationContext values).lookup name := by
  have hperm := s.given_append_left_perm (f.parameters.zip values)
  have hnames : ((f.parameters.zip values).map (·.1)).Nodup := by
    rwa [List.map_fst_zip (Nat.le_of_eq hlen)]
  have h := BindingsOf.get?_bindAll_perm hperm ((hperm.map _).nodup_iff.mpr hnames) f.closure name
  rw [BindingsOf.bindAll_append, s.left_zip _ _ hlen, ← closure_partiallyApply hf,
    ← parameters_partiallyApply hf s hlen] at h
  simpa [invocationContext, Context.lookup, Context.detached, BindingsOf.bindAll] using h

/-! ### One stage -/

/-- What a stage makes of the function: its closure holds the arguments that are given. -/
theorem eq_partiallyApply (hf : f.Typed) (s : Stage)
    (hs : Invocation.of f c (s.supplied arguments) = .ok (.partially g)) :
    ∃ values, f.parameters.length = values.length ∧ g = f.partiallyApply (s.supplied values) ∧
      f.arity = arguments.length ∧
      c.promoteArguments (s.supplied arguments) f.signature.parameterTypes =
        .ok (s.supplied values) := by
  obtain ⟨prepared, hprep, h⟩ := of_eq_ok.mp hs
  obtain ⟨hlen, hp⟩ := prepareArguments_eq_ok.mp hprep
  rw [Stage.length_supplied] at hlen
  obtain ⟨values, hvl, rfl⟩ := Catalogue.supplied_of_promoteArguments s (hlen.trans hf) hp
  split at h
  · exact ⟨values, (hvl.trans hlen).symm, Invocation.partially.inj h, hlen.symm, hp⟩
  · cases h

/-- A stage that gives everything is the call that gives all arguments. -/
theorem of_all_of_stage (hf : f.Typed) {context : Context} (s : Stage)
    (hs : Invocation.of f c (s.supplied arguments) = .ok (.fully context)) :
    Invocation.of f c (arguments.map some) = .ok (.fully context) := by
  obtain ⟨prepared, hprep, h⟩ := of_eq_ok.mp hs
  obtain ⟨hlen, hp⟩ := prepareArguments_eq_ok.mp hprep
  rw [Stage.length_supplied] at hlen
  obtain ⟨values, hvl, rfl⟩ := Catalogue.supplied_of_promoteArguments s (hlen.trans hf) hp
  cases hany : (s.supplied values).any Option.isNone with
  | true => simp [hany] at h
  | false =>
    have hall : (s.supplied arguments).any Option.isNone = false := by
      rw [← hany]
      exact s.any_isNone_congr hvl.symm
    rwa [← (Stage.complete_of_no_placeholder hall).1]

/-- If the call that gives all arguments is accepted, so is each stage of it. -/
theorem exists_of_stage (hf : f.Typed)
    (h : c.Accepts f.signature.parameterTypes arguments values) (s : Stage) :
    ∃ invocation, Invocation.of f c (s.supplied arguments) = .ok invocation := by
  have hlen : (s.supplied arguments).length = f.arity := by
    rw [Stage.length_supplied, arity, hf, h.length_eq.1, h.length_eq.2]
  exact ⟨_, of_eq_ok.mpr ⟨_, prepareArguments_eq_ok.mpr ⟨hlen, (h.split s).1⟩, rfl⟩⟩

/-- The rest of the arguments is accepted after a stage exactly if all of them are in one call, and
then the names are bound to the same values. -/
theorem of_all_after_stage (hf : f.Typed) (hn : f.parameters.Nodup) (s : Stage)
    (hs : Invocation.of f c (s.supplied arguments) = .ok (.partially g)) :
    ((∃ context, Invocation.of g c ((s.left arguments).map some) = .ok (.fully context)) ↔
      ∃ context, Invocation.of f c (arguments.map some) = .ok (.fully context)) ∧
    ∀ staged direct, Invocation.of g c ((s.left arguments).map some) = .ok (.fully staged) →
      Invocation.of f c (arguments.map some) = .ok (.fully direct) →
      ∀ name, staged.lookup name = direct.lookup name := by
  obtain ⟨given, hlen, rfl, harity, hp⟩ := eq_partiallyApply hf s hs
  have hg : (f.partiallyApply (s.supplied given)).Typed := hf.partiallyApply s hlen
  have htypes := parameterTypes_partiallyApply hf s hlen
  simp only [of_all_eq_fully hf, of_all_eq_fully hg, htypes]
  refine ⟨⟨?_, ?_⟩, ?_⟩
  · rintro ⟨_, rest, hr, -⟩
    obtain ⟨values, hv⟩ := Catalogue.Accepts.join s (harity.symm.trans hf) hp hr
    exact ⟨_, values, hv, rfl⟩
  · rintro ⟨_, values, hv, -⟩
    exact ⟨_, s.left values, (hv.split s).2, rfl⟩
  · rintro _ _ ⟨rest, hr, rfl⟩ ⟨values, hv, rfl⟩ name
    -- What the stage bound and what is left to bind both come from the one list of promoted arguments.
    have hgiven : s.supplied given = s.supplied values := Except.ok.inj (hp.symm.trans (hv.split s).1)
    rw [hgiven, hr.unique (hv.split s).2]
    exact lookup_partiallyApply hf hn s (hf.trans hv.length_eq.1) name

/-! ### Any number of stages -/

theorem applyInStages_cons_partially (stages : List Stage) (s : Stage)
    (hs : Invocation.of f c (s.supplied arguments) = .ok (.partially g)) :
    f.applyInStages c (s :: stages) arguments = g.applyInStages c stages (s.left arguments) := by
  rw [applyInStages, hs]
  rfl

theorem applyInStages_cons_fully (stages : List Stage) (s : Stage) {context : Context}
    (hs : Invocation.of f c (s.supplied arguments) = .ok (.fully context)) :
    f.applyInStages c (s :: stages) arguments = .ok (f, .fully context) := by
  rw [applyInStages, hs]
  rfl

/-- Giving the arguments in stages agrees with giving them all in one call: the last call is to evaluate
a body exactly if the one call is, it is the same body for the same result type, and every name is bound
to the same value. -/
theorem applyInStages_agrees (c : Catalogue) (stages : List Stage) (f : FunctionItem)
    (arguments : List (Value Item)) (hf : f.Typed) (hn : f.parameters.Nodup) :
    ((∃ g context, f.applyInStages c stages arguments = .ok (g, .fully context)) ↔
      ∃ context, Invocation.of f c (arguments.map some) = .ok (.fully context)) ∧
    ∀ g staged direct, f.applyInStages c stages arguments = .ok (g, .fully staged) →
      Invocation.of f c (arguments.map some) = .ok (.fully direct) →
      g.body = f.body ∧ g.signature.returnType = f.signature.returnType ∧
        ∀ name, staged.lookup name = direct.lookup name := by
  induction stages generalizing f arguments with
  | nil =>
    simp only [applyInStages]
    cases Invocation.of f c (arguments.map some) with
    | error e => simp [bind, Except.bind]
    | ok invocation =>
      simp only [bind, Except.bind, pure, Except.pure, Except.ok.injEq, Prod.mk.injEq]
      refine ⟨by simp, ?_⟩
      rintro g staged direct ⟨rfl, rfl⟩ h
      cases h
      exact ⟨rfl, rfl, fun _ => rfl⟩
  | cons s stages ih =>
    cases hs : Invocation.of f c (s.supplied arguments) with
    | error e =>
      have hnot : ¬ ∃ context, Invocation.of f c (arguments.map some) = .ok (.fully context) := by
        rintro ⟨context, h⟩
        obtain ⟨values, hv, -⟩ := (of_all_eq_fully hf).mp h
        obtain ⟨invocation, hi⟩ := exists_of_stage hf hv s
        rw [hs] at hi
        cases hi
      have hfail : f.applyInStages c (s :: stages) arguments = .error e := by
        rw [applyInStages, hs]
        rfl
      refine ⟨⟨?_, fun h => absurd h hnot⟩, fun _ _ direct _ h => absurd ⟨direct, h⟩ hnot⟩
      rintro ⟨g, context, h⟩
      rw [hfail] at h
      cases h
    | ok invocation =>
      cases invocation with
      | fully context =>
        have hall := of_all_of_stage hf s hs
        rw [applyInStages_cons_fully stages s hs, hall]
        refine ⟨⟨fun _ => ⟨context, rfl⟩, fun _ => ⟨f, context, rfl⟩⟩, ?_⟩
        intro g staged direct h h'
        cases h
        cases h'
        exact ⟨rfl, rfl, fun _ => rfl⟩
      | partially g =>
        obtain ⟨values, hlen, rfl, -⟩ := eq_partiallyApply hf s hs
        have hnames : (f.partiallyApply (s.supplied values)).parameters.Nodup := by
          rw [parameters_partiallyApply hf s hlen]
          exact hn.sublist (s.left_sublist _)
        obtain ⟨hiff, hsame⟩ := ih _ (s.left arguments) (hf.partiallyApply s hlen) hnames
        obtain ⟨hiff', hsame'⟩ := of_all_after_stage hf hn s hs
        rw [applyInStages_cons_partially stages s hs]
        refine ⟨hiff.trans hiff', fun g staged direct hg hd => ?_⟩
        obtain ⟨middle, hm⟩ := hiff'.mpr ⟨direct, hd⟩
        obtain ⟨hbody, htype, hnames⟩ := hsame g staged middle hg hm
        exact ⟨hbody, htype, fun name => (hnames name).trans (hsame' middle direct hm hd name)⟩

/-- A function of two parameters, each given in a stage of its own, the second one first. -/
theorem applyInStages_agrees_second_first :
    let f : FunctionItem :=
      { handle := none, name := some "f", parameters := ["a", "b"], signature := .unconstrained 2,
        body := default, closure := .empty }
    let c : Catalogue := default
    let arguments : List (Value Item) := [.items [.integer 1], .items [.integer 2]]
    ∃ staged direct,
      f.applyInStages c [fun i => i == 1] arguments =
        .ok (f.partiallyApply [none, some (.items [.integer 2])], .fully staged) ∧
      Invocation.of f c (arguments.map some) = .ok (.fully direct) ∧
      ∀ name, staged.lookup name = direct.lookup name := by
  intro f c arguments
  obtain ⟨-, h⟩ := applyInStages_agrees c [fun i => i == 1] f arguments rfl (by decide)
  exact ⟨_, _, rfl, rfl, (h _ _ _ rfl rfl).2.2⟩

/-- With one name for both parameters the stages differ from the direct call: the direct call binds the
name to the second argument, the stages to the one that is given last, here the first. -/
theorem stages_see_other_argument :
    let f : FunctionItem :=
      { handle := none, name := some "f", parameters := ["a", "a"], signature := .unconstrained 2,
        body := default, closure := .empty }
    let arguments : List (Value Item) := [.items [.integer 1], .items [.integer 2]]
    ∃ g staged direct,
      f.applyInStages default [fun i => i == 1] arguments = .ok (g, .fully staged) ∧
      Invocation.of f default (arguments.map some) = .ok (.fully direct) ∧
      staged.lookup "a" = some (.items [.integer 1]) ∧
      direct.lookup "a" = some (.items [.integer 2]) :=
  ⟨_, _, _, rfl, rfl, rfl, rfl⟩

/-! ### Functions of a module -/

theorem typed_ofPlan {d : FunctionDeclaration} {plan : FunctionPlan} (h : d.compile c = .ok plan) :
    (Registry.ofPlan plan).Typed := by
  simp only [FunctionDeclaration.compile, compileSignature] at h
  cases hp : checkParameters c d.position d.parameters with
  | error e => simp [hp, bind, Except.bind] at h
  | ok _ =>
    cases hr : c.checkAt d.returnType d.position with
    | error e => simp [hp, hr, bind, Except.bind] at h
    | ok _ =>
      cases hb : d.body.compile c with
      | error e => simp [hp, hr, hb, bind, Except.bind, pure, Except.pure] at h
      | ok body =>
        simp only [hp, hr, hb, bind, Except.bind, pure, Except.pure, Except.ok.injEq] at h
        subst h
        simp [Typed, Registry.ofPlan]

theorem typed_toFunction (b : Builtin) (arity : Nat) : (b.toFunction arity).Typed := by
  simp [Typed, Builtin.toFunction, Builtin.parameterNames, Signature.unconstrained]

end FunctionOf
end HybridQuery
