import Mathlib.Data.List.Forall2

/-!
# Results that end in a property

* `except_bind_eq_ok_iff`, `mapM_eq_ok_iff`: what a value comes from.
* `EndsIn`: the judgement on results, with a rule for every way to combine them.
* `EndsIn.exists_ok`, `EndsIn.exists_error`: what it says of a result that can be decided.
-/

namespace HybridQuery

variable {ε δ α β : Type}

/-! ## Values -/

section
variable {f : α → Except ε β} {l : List α} {k : List β}

theorem except_bind_eq_ok_iff {x : Except ε α} {b : β} : x >>= f = .ok b ↔ ∃ a, x = .ok a ∧ f a = .ok b := by
  cases x <;> simp [bind, Except.bind]

theorem mapM_eq_ok_iff : l.mapM f = .ok k ↔ List.Forall₂ (fun a b => f a = .ok b) l k := by
  induction l generalizing k with
  | nil => cases k <;> simp [pure, Except.pure]
  | cons a l ih =>
    rw [List.mapM_cons, List.forall₂_cons_left_iff]
    simp only [except_bind_eq_ok_iff, ih]
    constructor
    · rintro ⟨b, hb, bs, hbs, h⟩
      cases h
      exact ⟨b, bs, hb, hbs, rfl⟩
    · rintro ⟨b, bs, hb, hbs, rfl⟩
      exact ⟨b, hb, bs, hbs, rfl⟩

theorem exists_forall₂_iff {R : α → β → Prop} : (∃ k, List.Forall₂ R l k) ↔ ∀ a ∈ l, ∃ b, R a b := by
  induction l with
  | nil => simp
  | cons a l ih =>
    rw [List.forall_mem_cons, ← ih]
    simp only [List.forall₂_cons_left_iff]
    constructor
    · rintro ⟨k, b, bs, hb, hbs, rfl⟩
      exact ⟨⟨b, hb⟩, bs, hbs⟩
    · rintro ⟨⟨b, hb⟩, bs, hbs⟩
      exact ⟨b :: bs, b, bs, hb, hbs, rfl⟩

theorem exists_mapM_ok_iff : (∃ bs, l.mapM f = .ok bs) ↔ ∀ a ∈ l, ∃ b, f a = .ok b := by
  simp only [mapM_eq_ok_iff, exists_forall₂_iff]

theorem length_of_mapM_ok (h : l.mapM f = .ok k) : k.length = l.length :=
  (mapM_eq_ok_iff.mp h).length_eq.symm

/-- The first member that the function fails for decides how the whole fails. -/
theorem mapM_eq_error {before after : List α} {a : α} {e : ε}
    (hbefore : ∀ b ∈ before, ∃ r, f b = .ok r) (ha : f a = .error e) :
    (before ++ a :: after).mapM f = .error e := by
  obtain ⟨bs, hbs⟩ := exists_mapM_ok_iff.mpr hbefore
  rw [List.mapM_append, List.mapM_cons, hbs, ha]
  rfl

end

/-! ## Results -/

/-- A value of `P`, or an error of `E`. -/
inductive EndsIn (P : α → Prop) (E : ε → Prop) : Except ε α → Prop
  | ok {a : α} (h : P a) : EndsIn P E (.ok a)
  | error {e : ε} (h : E e) : EndsIn P E (.error e)

namespace EndsIn

variable {P : α → Prop} {Q : β → Prop} {E : ε → Prop} {d : Except ε α}

theorem of_ok (h : EndsIn P E d) {a : α} (ha : d = .ok a) : P a := by
  cases ha
  cases h
  assumption

theorem of_error (h : EndsIn P E d) {e : ε} (he : d = .error e) : E e := by
  cases he
  cases h
  assumption

theorem mono {E' : ε → Prop} {Q : α → Prop} (h : EndsIn P E d) (hP : ∀ a, P a → Q a)
    (hE : ∀ e, E e → E' e) : EndsIn Q E' d := by
  cases h with
  | ok h => exact .ok (hP _ h)
  | error h => exact .error (hE _ h)

theorem bind {f : α → Except ε β} (h : EndsIn P E d) (hf : ∀ a, P a → EndsIn Q E (f a)) :
    EndsIn Q E (d >>= f) := by
  cases h with
  | ok h => exact hf _ h
  | error h => exact .error h

theorem map {f : α → β} (h : EndsIn P E d) (hf : ∀ a, P a → Q (f a)) : EndsIn Q E (f <$> d) := by
  cases h with
  | ok h => exact .ok (hf _ h)
  | error h => exact .error h

theorem mapError {D : δ → Prop} {g : ε → δ} (h : EndsIn P E d) (hg : ∀ e, E e → D (g e)) :
    EndsIn P D (d.mapError g) := by
  cases h with
  | ok h => exact .ok h
  | error h => exact .error (hg _ h)

theorem listMapM {f : α → Except ε β} {l : List α} (hf : ∀ a ∈ l, EndsIn Q E (f a)) :
    EndsIn (fun bs => ∀ b ∈ bs, Q b) E (l.mapM f) := by
  induction l with
  | nil => exact .ok (List.forall_mem_nil _)
  | cons a l ih =>
    obtain ⟨ha, hl⟩ := List.forall_mem_cons.mp hf
    rw [List.mapM_cons]
    exact ha.bind fun b hb => (ih hl).bind fun bs hbs => .ok (List.forall_mem_cons.mpr ⟨hb, hbs⟩)

/-- A result of which only the value is known. -/
theorem of_forall_ok (h : ∀ a, d = .ok a → P a) : EndsIn P (fun _ => True) d := by
  cases d with
  | ok a => exact .ok (h a rfl)
  | error e => exact .error trivial

/-! ## Results that are decided -/

instance [DecidablePred P] [DecidablePred E] : Decidable (EndsIn P E d) :=
  match d with
  | .ok a => decidable_of_iff (P a) ⟨.ok, fun h => h.of_ok rfl⟩
  | .error e => decidable_of_iff (E e) ⟨.error, fun h => h.of_error rfl⟩

theorem exists_ok (h : EndsIn P (fun _ => False) d) : ∃ a, d = .ok a ∧ P a := by
  cases h with
  | ok h => exact ⟨_, rfl, h⟩
  | error h => exact h.elim

theorem exists_error (h : EndsIn (fun _ => False) E d) : ∃ e, d = .error e ∧ E e := by
  cases h with
  | ok h => exact h.elim
  | error h => exact ⟨_, rfl, h⟩

end EndsIn
end HybridQuery
