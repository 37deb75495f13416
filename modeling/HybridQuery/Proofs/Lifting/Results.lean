import Mathlib.Data.List.Forall2
import Mathlib.Data.Option.Defs

/-!
# Related results

What is common to all relations between values of one type: pairs with one key and options are related by
their parts, lists place by place, and results agree if they are related values or the same failure.

* `Keyed`: pairs with related values. `Keyed.lookup` looks a name up.
* `Agree`: the judgement on results, with a rule for every way to combine them.
-/

namespace HybridQuery

/-! ## Pairs, options and lists -/

/-- Two pairs with the same key and related values. -/
inductive Keyed {κ α β : Type} (R : α → β → Prop) : κ × α → κ × β → Prop
  | mk {a : α} {b : β} (key : κ) (h : R a b) : Keyed R (key, a) (key, b)

/-- Looking a name up in pairs with the same keys. -/
theorem Keyed.lookup {α' α : Type} {R : α' → α → Prop} {ps' : List (String × α')}
    {ps : List (String × α)} (h : List.Forall₂ (Keyed R) ps' ps) (x : String) :
    Option.Rel R (ps'.lookup x) (ps.lookup x) := by
  induction h with
  | nil => exact .none
  | cons hp _ ih =>
    cases hp with
    | mk key hr =>
      simp only [List.lookup_cons]
      split
      · exact .some hr
      · exact ih

/-- Pairs are told apart by their keys. -/
theorem Keyed.any_eq {κ α' α : Type} {R : α' → α → Prop} {ps' : List (κ × α')} {ps : List (κ × α)}
    (h : List.Forall₂ (Keyed R) ps' ps) (p : κ → Bool) :
    (ps'.any fun q => p q.1) = ps.any fun q => p q.1 := by
  induction h with
  | nil => rfl
  | cons hp _ ih =>
    cases hp
    simp only [List.any_cons, ih]

theorem Keyed.filter {κ α' α : Type} {R : α' → α → Prop} {ps' : List (κ × α')} {ps : List (κ × α)}
    (h : List.Forall₂ (Keyed R) ps' ps) (p : κ → Bool) :
    List.Forall₂ (Keyed R) (ps'.filter fun q => p q.1) (ps.filter fun q => p q.1) :=
  List.rel_filter (fun _ _ hq => by cases hq; rfl) h

theorem Keyed.zip {κ α' α : Type} {R : α' → α → Prop} (ks : List κ) {as' : List α'} {as : List α}
    (h : List.Forall₂ R as' as) : List.Forall₂ (Keyed R) (ks.zip as') (ks.zip as) := by
  induction h generalizing ks with
  | nil => simp
  | cons ha _ ih =>
    cases ks with
    | nil => exact .nil
    | cons k ks => exact .cons (.mk k ha) (ih ks)

theorem Option.Rel.toList {α' α : Type} {R : α' → α → Prop} {o' : Option α'} {o : Option α}
    (h : Option.Rel R o' o) : List.Forall₂ R o'.toList o.toList := by
  cases h with
  | none => exact .nil
  | some h => exact .cons h .nil

theorem Option.Rel.isSome_eq {α' α : Type} {R : α' → α → Prop} {o' : Option α'} {o : Option α}
    (h : Option.Rel R o' o) : o'.isSome = o.isSome := by cases h <;> rfl

theorem Option.Rel.any_isNone_eq {α' α : Type} {R : α' → α → Prop} {os' : List (Option α')}
    {os : List (Option α)} (h : List.Forall₂ (Option.Rel R) os' os) :
    os'.any Option.isNone = os.any Option.isNone := by
  induction h with
  | nil => rfl
  | cons hv _ ih => cases hv <;> simp [ih]

theorem Option.Rel.filterMap {α' α : Type} {R : α' → α → Prop} {os' : List (Option α')}
    {os : List (Option α)} (h : List.Forall₂ (Option.Rel R) os' os) :
    List.Forall₂ R (os'.filterMap id) (os.filterMap id) :=
  List.rel_filterMap (fun _ _ ho => ho) h

theorem Option.Rel.map_eq {α' α β : Type} {R : α' → α → Prop} {f : α' → β} {g : α → β}
    {o' : Option α'} {o : Option α} (h : Option.Rel R o' o) (hf : ∀ a b, R a b → f a = g b) :
    o'.map f = o.map g := by
  cases h with
  | none => rfl
  | some h => exact congrArg some (hf _ _ h)

/-- The first member with a property that related members share. -/
theorem find?_forall₂ {α' α : Type} {R : α' → α → Prop} {p : α' → Bool} {q : α → Bool} {l : List α'}
    {k : List α} (h : List.Forall₂ R l k) (hp : ∀ a b, R a b → p a = q b) :
    Option.Rel R (l.find? p) (k.find? q) := by
  induction h with
  | nil => exact .none
  | cons ha _ ih =>
    simp only [List.find?_cons, hp _ _ ha]
    split
    · exact .some ha
    · exact ih

theorem getElem?_forall₂ {α : Type} {R : α → α → Prop} {l k : List α} (h : List.Forall₂ R l k)
    (place : Nat) : Option.Rel R l[place]? k[place]? := by
  induction h generalizing place with
  | nil => exact .none
  | cons ha _ ih =>
    cases place with
    | zero => exact .some ha
    | succ place => exact ih place

theorem isEmpty_forall₂ {α : Type} {R : α → α → Prop} {l k : List α} (h : List.Forall₂ R l k) :
    l.isEmpty = k.isEmpty := by cases h <;> rfl

/-- A member stands beside a related one. -/
theorem exists_of_mem_forall₂ {α β : Type} {R : α → β → Prop} {l : List α} {k : List β}
    (h : List.Forall₂ R l k) : ∀ b ∈ k, ∃ a ∈ l, R a b := by
  induction h with
  | nil => exact nofun
  | cons hab _ ih =>
    refine List.forall_mem_cons.mpr ⟨⟨_, List.mem_cons_self, hab⟩, fun b hb => ?_⟩
    obtain ⟨a, ha, hab⟩ := ih b hb
    exact ⟨a, List.mem_cons_of_mem _ ha, hab⟩

theorem forall₂_comp {α β γ : Type} {R : α → β → Prop} {S : β → γ → Prop} {T : α → γ → Prop}
    (hT : ∀ a b c, R a b → S b c → T a c) {l : List α} {k : List β} {j : List γ}
    (h : List.Forall₂ R l k) (h' : List.Forall₂ S k j) : List.Forall₂ T l j := by
  induction h generalizing j with
  | nil =>
    cases h'
    exact .nil
  | cons hab _ ih =>
    obtain _ | ⟨hbc, h'⟩ := h'
    exact .cons (hT _ _ _ hab hbc) (ih h')

/-! ## Results -/

section
variable {ε α β : Type} {R : α → α → Prop} {Q : β → β → Prop}

/-- Related values, or the same failure. -/
inductive Agree (R : α → α → Prop) : Except ε α → Except ε α → Prop
  | ok {a b : α} (h : R a b) : Agree R (.ok a) (.ok b)
  | error (e : ε) : Agree R (.error e) (.error e)

namespace Agree

variable {d e : Except ε α}

theorem bind {f g : α → Except ε β} (h : Agree R d e) (hf : ∀ a b, R a b → Agree Q (f a) (g b)) :
    Agree Q (d >>= f) (e >>= g) := by
  cases h with
  | ok h => exact hf _ _ h
  | error e => exact .error e

theorem map {f g : α → β} (h : Agree R d e) (hf : ∀ a b, R a b → Q (f a) (g b)) :
    Agree Q (f <$> d) (g <$> e) := by
  cases h with
  | ok h => exact .ok (hf _ _ h)
  | error e => exact .error e

theorem mono {R' : α → α → Prop} (h : Agree R d e) (hr : ∀ a b, R a b → R' a b) : Agree R' d e := by
  cases h with
  | ok h => exact .ok (hr _ _ h)
  | error e => exact .error e

theorem mapError {δ : Type} (h : Agree R d e) (g : ε → δ) : Agree R (d.mapError g) (e.mapError g) := by
  cases h with
  | ok h => exact .ok h
  | error e => exact .error (g e)

/-- A single result whose value, if it has one, is related to itself. -/
theorem same (h : ∀ a, d = .ok a → R a a) : Agree R d d := by
  cases d with
  | ok a => exact .ok (h a rfl)
  | error e => exact .error e

theorem refl (d : Except ε α) : Agree (· = ·) d d := .same fun _ _ => rfl

theorem of_map {f g : α → β} (h : Agree Q (f <$> d) (g <$> e)) :
    Agree (fun a b => Q (f a) (g b)) d e := by
  cases d with
  | ok a =>
    cases e with
    | ok b => cases h with | ok h => exact .ok h
    | error e => cases h
  | error d =>
    cases e with
    | ok b => cases h
    | error e => cases h; exact .error d

theorem listMapM {f g : α → Except ε β} {l k : List α} (hl : List.Forall₂ R l k)
    (hf : ∀ a b, R a b → Agree Q (f a) (g b)) : Agree (List.Forall₂ Q) (l.mapM f) (k.mapM g) := by
  induction hl with
  | nil => exact .ok .nil
  | cons ha _ ih =>
    rw [List.mapM_cons, List.mapM_cons]
    exact (hf _ _ ha).bind fun _ _ hb => ih.bind fun _ _ hbs => .ok (.cons hb hbs)

end Agree

end
end HybridQuery
