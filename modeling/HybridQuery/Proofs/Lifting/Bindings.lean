import HybridQuery.Flwor.Tuple
import HybridQuery.Function.Invocation
import HybridQuery.Function.Registry
import HybridQuery.Proofs.Lifting.Results

/-!
# Bindings of related values

Scopes, tuples and closures are pairs of names and values. What is bound in two of them stays related, and
so do the functions that close over it.

* `BindingsOf.bind_keyed`, `BindingsOf.foldl_keyed`, `Tuple.bind_keyed`: related values are bound in scopes
  and tuples that bind the same names to related values.
* `FunctionOf.Alike`: functions with related bodies and closures. `Alike.partiallyApply` applies them to
  related arguments, of which the same ones are left out.
-/

namespace HybridQuery

variable {R : Value Item → Value Item → Prop} {v w : Value Item}

/-! ## Scopes and tuples -/

theorem BindingsOf.bind_keyed {b d : Bindings} (h : List.Forall₂ (Keyed R) b.pairs d.pairs)
    (name : String) (hv : R v w) :
    List.Forall₂ (Keyed R) (b.bind name v).pairs (d.bind name w).pairs :=
  .cons (.mk name hv) (Keyed.filter h (· != name))

/-- Binding names one after the other. -/
theorem BindingsOf.foldl_keyed {b d : Bindings} {ps qs : List (String × Value Item)}
    (hp : List.Forall₂ (Keyed R) ps qs) (h : List.Forall₂ (Keyed R) b.pairs d.pairs) :
    List.Forall₂ (Keyed R) (ps.foldl (fun b p => b.bind p.1 p.2) b).pairs
      (qs.foldl (fun b p => b.bind p.1 p.2) d).pairs := by
  induction hp generalizing b d with
  | nil => exact h
  | cons hv _ ih =>
    cases hv with
    | mk key hr => exact ih (bind_keyed h key hr)

theorem Tuple.bind_keyed {t u : Tuple} (h : List.Forall₂ (Keyed R) t.pairs u.pairs) (name : String)
    (hv : R v w) : List.Forall₂ (Keyed R) (t.bind name v).pairs (u.bind name w).pairs := by
  obtain ⟨ps⟩ := t
  obtain ⟨qs⟩ := u
  change List.Forall₂ (Keyed R) ps qs at h
  change List.Forall₂ (Keyed R) (setPair name v ps) (setPair name w qs)
  induction h with
  | nil => exact .cons (.mk name hv) .nil
  | cons hp hr ih =>
    cases hp with
    | mk key hp =>
      simp only [setPair]
      split
      · exact .cons (.mk key hv) hr
      · exact .cons (.mk key hp) ih

/-! ## Functions -/

namespace FunctionOf

/-- Functions with the same name, parameters and types whose bodies are related, and the values they close
over too. -/
structure Alike (B : Plan → Plan → Prop) (R : Value Item → Value Item → Prop) (f g : FunctionItem) :
    Prop where
  handle_eq : f.handle = g.handle
  name_eq : f.name = g.name
  parameters_eq : f.parameters = g.parameters
  signature_eq : f.signature = g.signature
  body : B f.body g.body
  closure : List.Forall₂ (Keyed R) f.closure.pairs g.closure.pairs

namespace Alike

variable {B : Plan → Plan → Prop} {f g : FunctionItem} (h : Alike B R f g)
include h

theorem arity_eq : f.arity = g.arity := congrArg List.length h.parameters_eq

theorem identifier_eq : f.identifier = g.identifier := by
  rw [identifier, identifier, h.name_eq, h.arity_eq]

theorem keyOf?_eq : Registry.keyOf? f = Registry.keyOf? g := by
  rw [Registry.keyOf?, Registry.keyOf?, h.name_eq, h.arity_eq]

theorem slots {vs ws : List (Option (Value Item))} (ha : List.Forall₂ (Option.Rel R) vs ws) :
    List.Forall₂ (Keyed (Option.Rel R)) (f.slots vs) (g.slots ws) := by
  rw [FunctionOf.slots, FunctionOf.slots, h.parameters_eq, h.signature_eq]
  exact Keyed.zip _ ha

theorem partiallyApply {vs ws : List (Option (Value Item))} (ha : List.Forall₂ (Option.Rel R) vs ws) :
    Alike B R (f.partiallyApply vs) (g.partiallyApply ws) := by
  have hslots := h.slots ha
  have hleft {β : Type} (place : String × SequenceType → β) :
      ((f.slots vs).filter (·.2.isNone)).map (fun s => place s.1) =
        ((g.slots ws).filter (·.2.isNone)).map fun s => place s.1 := by
    generalize f.slots vs = ss, g.slots ws = ts at hslots ⊢
    induction hslots with
    | nil => rfl
    | cons hp _ ih =>
      cases hp with
      | mk place hv => cases hv <;> simp [ih]
  refine ⟨rfl, rfl, hleft fun s => s.1, ?_, h.body, ?_⟩
  · simp only [FunctionOf.partiallyApply, hleft fun s => s.2, h.signature_eq]
  · have hclosure := h.closure
    simp only [FunctionOf.partiallyApply]
    generalize f.slots vs = ss, g.slots ws = ts, f.closure = b, g.closure = d at hslots hclosure ⊢
    -- An argument that is given is bound, on both sides; the others leave the closures as they are.
    induction hslots generalizing b d with
    | nil => exact hclosure
    | cons hp _ ih =>
      cases hp with
      | mk place hv =>
        cases hv with
        | none => exact ih _ _ hclosure
        | some hv => exact ih _ _ (BindingsOf.bind_keyed hclosure _ hv)

/-- The arguments of a call, bound above the closure. -/
theorem invoked {vs ws : List (Value Item)} (ha : List.Forall₂ R vs ws) :
    List.Forall₂ (Keyed R)
      ((f.parameters.zip vs).foldl (fun b p => b.bind p.1 p.2) f.closure).pairs
      ((g.parameters.zip ws).foldl (fun b p => b.bind p.1 p.2) g.closure).pairs := by
  rw [h.parameters_eq]
  exact BindingsOf.foldl_keyed (Keyed.zip _ ha) h.closure

end Alike
end FunctionOf
end HybridQuery
