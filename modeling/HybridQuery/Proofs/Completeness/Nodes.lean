import Mathlib.Logic.Relation
import HybridQuery.Syntax.Tree

/-!
# Nodes of a module

Expressions and clauses are the nodes of a module. What is said of the modes of a part is said of its
nodes and of everything below them.

* `NodeRef.children`: the nodes directly below a node; `NodeRef.Below` is what is below it at any depth.
* `IsComplete`: every node of a part has a mode, down to the leaves.
* `IsSettled`: a node of a part that has a mode has only nodes with modes below it.
-/

namespace HybridQuery

/-- A node of a module. -/
inductive NodeRef where
  | expression (e : Expression)
  | clause (c : Clause)

/-- Parts of modules that are made of nodes. -/
class HasNodes (τ : Type) where
  /-- The topmost nodes of a part, in order. -/
  nodes : τ → List NodeRef

export HasNodes (nodes)

section
variable {τ υ : Type} [HasNodes τ] [HasNodes υ]

instance : HasNodes Expression := ⟨fun e => [.expression e]⟩

instance : HasNodes Clause := ⟨fun c => [.clause c]⟩

instance : HasNodes (List τ) := ⟨fun l => l.flatMap nodes⟩

instance : HasNodes (Option τ) := ⟨fun o => o.elim [] nodes⟩

instance : HasNodes (τ × υ) := ⟨fun p => nodes p.1 ++ nodes p.2⟩

instance : HasNodes (OrderKey τ) := ⟨fun k => nodes k.expression⟩

instance : HasNodes (GroupKey τ) := ⟨fun k => nodes k.expression⟩

end

/-- The children of an expression of this kind. -/
def ExpressionKind.children : ExpressionKind → List NodeRef
  | literal _ | varRef _ | contextItem | functionRef _ _ => []
  | sequence members => nodes members
  | arithmetic _ left right => nodes (left, right)
  | comparison _ left right => nodes (left, right)
  | logical _ left right => nodes (left, right)
  | not operand => nodes operand
  | conditional condition yes no => nodes (condition, yes, no)
  | range first last => nodes (first, last)
  | object pairs => nodes pairs
  | array members => nodes members
  | objectLookup input key => nodes (input, key)
  | arrayLookup input index => nodes (input, index)
  | arrayUnbox input => nodes input
  | filter input predicate => nodes (input, predicate)
  | functionCall _ arguments => nodes arguments
  | dynamicCall function arguments => nodes (function, arguments)
  | inlineFunction _ _ body => nodes body
  | flwor clauses result => nodes (clauses, result)

/-- The children of a clause of this kind. -/
def ClauseKind.children : ClauseKind → List NodeRef
  | forEach _ _ _ source => nodes source
  | letBe _ value => nodes value
  | keepWhere condition => nodes condition
  | orderBy keys => nodes keys
  | groupBy keys => nodes keys
  | count _ => []

instance : HasNodes ExpressionKind := ⟨ExpressionKind.children⟩

instance : HasNodes ClauseKind := ⟨ClauseKind.children⟩

namespace NodeRef

/-- The slot of the node's mode. -/
def slot : NodeRef → ModeSlot
  | expression e => e.slot
  | clause c => c.slot

/-- The nodes directly below the node, in order. -/
def children : NodeRef → List NodeRef
  | expression e => e.kind.children
  | clause c => c.kind.children

/-- The node `d` is `n` or below it. -/
def Below (d n : NodeRef) : Prop := Relation.ReflTransGen (fun n c => c ∈ n.children) n d

theorem below_iff {d n : NodeRef} : d.Below n ↔ d = n ∨ ∃ c ∈ n.children, d.Below c := by
  rw [Below, Relation.ReflTransGen.cases_head_iff, eq_comm]
  rfl

/-- A mode was computed, and it says how the node is evaluated. -/
def HasMode (n : NodeRef) : Prop := ∃ mode, n.slot.value = some mode ∧ mode ≠ .unset

/-- The node and everything below it have modes. -/
def Complete (n : NodeRef) : Prop := ∀ d, Below d n → d.HasMode

/-- Whatever has a mode, from the node down, has only nodes with modes below it. -/
def Settled (n : NodeRef) : Prop := ∀ d, Below d n → d.slot.isComputed → d.Complete

/-- A property of everything from a node down is one of the node and of everything from its children
down. -/
theorem forall_below_iff {P : NodeRef → Prop} {n : NodeRef} :
    (∀ d, Below d n → P d) ↔ P n ∧ ∀ c ∈ n.children, ∀ d, Below d c → P d := by
  constructor
  · exact fun h => ⟨h n .refl, fun c hc d hd => h d (below_iff.mpr (.inr ⟨c, hc, hd⟩))⟩
  · rintro ⟨hn, hc⟩ d hd
    rcases below_iff.mp hd with rfl | ⟨c, hmem, hd⟩
    · exact hn
    · exact hc c hmem d hd

theorem complete_iff {n : NodeRef} : n.Complete ↔ n.HasMode ∧ ∀ c ∈ n.children, c.Complete :=
  forall_below_iff

theorem settled_iff {n : NodeRef} :
    n.Settled ↔ (n.slot.isComputed → n.Complete) ∧ ∀ c ∈ n.children, c.Settled :=
  forall_below_iff

theorem Complete.settled {n : NodeRef} (h : n.Complete) : n.Settled :=
  fun _ hd _ e he => h e (hd.trans he)

end NodeRef

/-! ## Parts -/

section
variable {τ υ : Type} [HasNodes τ] [HasNodes υ]

/-- Every node of the part has a mode. -/
def IsComplete (t : τ) : Prop := ∀ n ∈ nodes t, n.Complete

/-- What has a mode in the part has only nodes with modes below it. -/
def IsSettled (t : τ) : Prop := ∀ n ∈ nodes t, n.Settled

/-- The part `t` comes from `t₀` through a pass that takes no mode away. -/
structure KeepsModes (t₀ t : τ) : Prop where
  settled : IsSettled t
  complete : IsComplete t₀ → IsComplete t

theorem IsComplete.settled {t : τ} (h : IsComplete t) : IsSettled t := fun n hn => (h n hn).settled

theorem KeepsModes.refl {t : τ} (h : IsSettled t) : KeepsModes t t := ⟨h, id⟩

theorem KeepsModes.of_complete {t₀ t : τ} (h : IsComplete t) : KeepsModes t₀ t := ⟨h.settled, fun _ => h⟩

theorem isComplete_pair {t : τ} {u : υ} : IsComplete (t, u) ↔ IsComplete t ∧ IsComplete u :=
  List.forall_mem_append

theorem isSettled_pair {t : τ} {u : υ} : IsSettled (t, u) ↔ IsSettled t ∧ IsSettled u :=
  List.forall_mem_append

theorem KeepsModes.pair {t₀ t : τ} {u₀ u : υ} (ht : KeepsModes t₀ t) (hu : KeepsModes u₀ u) : KeepsModes (t₀, u₀) (t, u) where
  settled := isSettled_pair.mpr ⟨ht.settled, hu.settled⟩
  complete h := isComplete_pair.mpr
    ⟨ht.complete (isComplete_pair.mp h).1, hu.complete (isComplete_pair.mp h).2⟩

/-- What is said of a part is said of every part with the same nodes. -/
theorem isComplete_congr {t : τ} {u : υ} (h : nodes t = nodes u) : IsComplete t ↔ IsComplete u := by
  rw [IsComplete, IsComplete, h]

theorem isSettled_congr {t : τ} {u : υ} (h : nodes t = nodes u) : IsSettled t ↔ IsSettled u := by
  rw [IsSettled, IsSettled, h]

theorem KeepsModes.congr {t₀ t : τ} {u₀ u : υ} (h₀ : nodes u₀ = nodes t₀) (h : nodes u = nodes t)
    (hk : KeepsModes t₀ t) : KeepsModes u₀ u where
  settled := (isSettled_congr h).mpr hk.settled
  complete hc := (isComplete_congr h).mpr (hk.complete ((isComplete_congr h₀).mp hc))

/-- The nodes of a list are those of its head and of its tail. -/
theorem nodes_cons (t : τ) (l : List τ) : nodes (t :: l) = nodes (t, l) := List.flatMap_cons

theorem nodes_pair_cons (t : τ) (u : υ) (l : List (τ × υ)) : nodes ((t, u) :: l) = nodes (t, u, l) :=
  (nodes_cons (t, u) l).trans (List.append_assoc _ _ _)

theorem isComplete_cons {t : τ} {l : List τ} : IsComplete (t :: l) ↔ IsComplete t ∧ IsComplete l :=
  (isComplete_congr (nodes_cons t l)).trans isComplete_pair

theorem isSettled_cons {t : τ} {l : List τ} : IsSettled (t :: l) ↔ IsSettled t ∧ IsSettled l :=
  (isSettled_congr (nodes_cons t l)).trans isSettled_pair

theorem KeepsModes.cons {t₀ t : τ} {l₀ l : List τ} (ht : KeepsModes t₀ t) (hl : KeepsModes l₀ l) :
    KeepsModes (t₀ :: l₀) (t :: l) :=
  (ht.pair hl).congr (nodes_cons t₀ l₀) (nodes_cons t l)

end

/-! ## Expressions and clauses -/

section
variable {kind kind₀ : ExpressionKind} {position : SourcePosition} {slot : ModeSlot}

theorem isComplete_expression :
    IsComplete (Expression.mk kind position slot) ↔
      (∃ mode, slot.value = some mode ∧ mode ≠ .unset) ∧ IsComplete kind :=
  List.forall_mem_singleton.trans NodeRef.complete_iff

theorem isSettled_expression :
    IsSettled (Expression.mk kind position slot) ↔
      (slot.isComputed → IsComplete (Expression.mk kind position slot)) ∧ IsSettled kind := by
  rw [IsSettled, IsComplete]
  exact List.forall_mem_singleton.trans (NodeRef.settled_iff.trans
    (and_congr_left' (imp_congr_right fun _ => List.forall_mem_singleton.symm)))

/-- An expression that has no mode yet. -/
theorem IsSettled.expression (h : IsSettled kind) (position : SourcePosition) :
    IsSettled (Expression.mk kind position .empty) :=
  isSettled_expression.mpr ⟨nofun, h⟩

/-- An expression that has no mode yet, with its parts as a pass leaves them. -/
theorem KeepsModes.expression (h : KeepsModes kind₀ kind) (hslot : slot.isComputed = false) :
    KeepsModes (Expression.mk kind₀ position slot) (.mk kind position slot) where
  settled := isSettled_expression.mpr ⟨fun hc => absurd (hslot ▸ hc) Bool.false_ne_true, h.settled⟩
  complete hc :=
    isComplete_expression.mpr ((isComplete_expression.mp hc).imp id h.complete)

end

section
variable {kind kind₀ : ClauseKind} {position : SourcePosition} {slot : ModeSlot}

theorem isComplete_clause :
    IsComplete (Clause.mk kind position slot) ↔
      (∃ mode, slot.value = some mode ∧ mode ≠ .unset) ∧ IsComplete kind :=
  List.forall_mem_singleton.trans NodeRef.complete_iff

theorem isSettled_clause :
    IsSettled (Clause.mk kind position slot) ↔
      (slot.isComputed → IsComplete (Clause.mk kind position slot)) ∧ IsSettled kind := by
  rw [IsSettled, IsComplete]
  exact List.forall_mem_singleton.trans (NodeRef.settled_iff.trans
    (and_congr_left' (imp_congr_right fun _ => List.forall_mem_singleton.symm)))

/-- A clause that has no mode yet. -/
theorem IsSettled.clause (h : IsSettled kind) (position : SourcePosition) :
    IsSettled (Clause.mk kind position .empty) :=
  isSettled_clause.mpr ⟨nofun, h⟩

/-- A clause with its parts as a pass leaves them. -/
theorem KeepsModes.clause (h : KeepsModes kind₀ kind) (h₀ : IsSettled (Clause.mk kind₀ position slot)) :
    KeepsModes (Clause.mk kind₀ position slot) (.mk kind position slot) where
  settled := isSettled_clause.mpr
    ⟨fun hc => isComplete_clause.mpr ((isComplete_clause.mp ((isSettled_clause.mp h₀).1 hc)).imp id h.complete),
      h.settled⟩
  complete hc := isComplete_clause.mpr ((isComplete_clause.mp hc).imp id h.complete)

end

/-! ## Modules -/

/-- The bodies of all functions are settled. -/
def Declarations.Settled (D : List FunctionDeclaration) : Prop := ∀ d ∈ D, IsSettled d.body

namespace QueryModule

/-- The body and the bodies of all functions are complete. -/
def Complete (m : QueryModule) : Prop := IsComplete m.body ∧ ∀ d ∈ m.functions, IsComplete d.body

/-- The body and the bodies of all functions are settled. -/
def Settled (m : QueryModule) : Prop := IsSettled m.body ∧ Declarations.Settled m.functions

end QueryModule
end HybridQuery
