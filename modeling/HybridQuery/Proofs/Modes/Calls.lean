import Mathlib.Data.Finset.Card
import Mathlib.Order.RelClasses
import HybridQuery.Builtin
import HybridQuery.Proofs.Completeness.Nodes

/-!
# Calls between declared functions

A call of a named function without placeholders has the mode of what it calls, so that the modes of a
function's body depend on those of the functions that it calls. Where no function reaches itself, the
declared functions can be ranked.

* `Everywhere`: a property of every node of a part, down to the leaves.
* `IsFresh`, `QueryModule.Fresh`: no node has a mode yet.
* `QueryModule.Calls`, `QueryModule.Acyclic`: the graph of calls. `CallsOnly` bounds what a part calls.
* `QueryModule.acyclic_iff_ranked`: every call of an acyclic module goes to a function of lower rank.
-/

namespace HybridQuery

/-! ## Properties of all nodes -/

section
variable {τ υ : Type} [HasNodes τ] [HasNodes υ] {P Q : NodeRef → Prop}

/-- The property holds of every node of the part, down to the leaves. -/
def Everywhere (P : NodeRef → Prop) (t : τ) : Prop := ∀ n ∈ nodes t, ∀ d, d.Below n → P d

theorem Everywhere.imp {t : τ} (h : Everywhere P t) (hPQ : ∀ d, P d → Q d) : Everywhere Q t :=
  fun n hn d hd => hPQ d (h n hn d hd)

theorem Everywhere.and {t : τ} (hP : Everywhere P t) (hQ : Everywhere Q t) :
    Everywhere (fun d => P d ∧ Q d) t :=
  fun n hn d hd => ⟨hP n hn d hd, hQ n hn d hd⟩

theorem everywhere_nil : Everywhere P ([] : List τ) := nofun

theorem everywhere_pair {t : τ} {u : υ} : Everywhere P (t, u) ↔ Everywhere P t ∧ Everywhere P u :=
  List.forall_mem_append

theorem everywhere_congr {t : τ} {u : υ} (h : nodes t = nodes u) : Everywhere P t ↔ Everywhere P u := by
  rw [Everywhere, Everywhere, h]

theorem everywhere_cons {t : τ} {l : List τ} : Everywhere P (t :: l) ↔ Everywhere P t ∧ Everywhere P l :=
  (everywhere_congr (nodes_cons t l)).trans everywhere_pair

end

section
variable {P : NodeRef → Prop} {position : SourcePosition} {slot : ModeSlot}

theorem everywhere_expression {kind : ExpressionKind} :
    Everywhere P (Expression.mk kind position slot) ↔
      P (.expression (.mk kind position slot)) ∧ Everywhere P kind :=
  List.forall_mem_singleton.trans NodeRef.forall_below_iff

theorem everywhere_clause {kind : ClauseKind} :
    Everywhere P (Clause.mk kind position slot) ↔
      P (.clause (.mk kind position slot)) ∧ Everywhere P kind :=
  List.forall_mem_singleton.trans NodeRef.forall_below_iff

end

/-! ## Parts without modes -/

section
variable {τ : Type} [HasNodes τ]

/-- No node of the part has a mode. -/
def IsFresh (t : τ) : Prop := Everywhere (fun d => d.slot = .empty) t

theorem IsFresh.settled {t : τ} (h : IsFresh t) : IsSettled t := by
  intro n hn d hd hcomputed
  rw [h n hn d hd] at hcomputed
  cases hcomputed

theorem IsFresh.slot {e : Expression} (h : IsFresh e) : e.slot = .empty := by
  cases e
  exact (everywhere_expression.mp h).1

end

/-- No node of the module has a mode. -/
def QueryModule.Fresh (m : QueryModule) : Prop := IsFresh m.body ∧ ∀ d ∈ m.functions, IsFresh d.body

theorem QueryModule.Fresh.settled {m : QueryModule} (h : m.Fresh) : m.Settled :=
  ⟨h.1.settled, fun d hd => (h.2 d hd).settled⟩

/-! ## Calls -/

/-- The function that an expression of this kind calls by name: one that is not built in, called
without placeholders. -/
def ExpressionKind.call? : ExpressionKind → Option FunctionKey
  | functionCall name given =>
    if given.any Option.isNone || (Builtin.find? name given.length).isSome then none
    else some (name, given.length)
  | _ => none

/-- The function that a node calls by name. -/
def NodeRef.call? : NodeRef → Option FunctionKey
  | expression e => e.kind.call?
  | clause _ => none

/-- A part has a call of the function in it. -/
def HasCall {τ : Type} [HasNodes τ] (t : τ) (key : FunctionKey) : Prop :=
  ∃ n ∈ nodes t, ∃ d : NodeRef, d.Below n ∧ d.call? = some key

theorem everywhere_call {τ : Type} [HasNodes τ] {t : τ} {C : FunctionKey → Prop} :
    Everywhere (fun d => ∀ key, d.call? = some key → C key) t ↔ ∀ key, HasCall t key → C key :=
  ⟨fun h _ ⟨n, hn, d, hd, hkey⟩ => h n hn d hd _ hkey, fun h n hn d hd key hkey => h key ⟨n, hn, d, hd, hkey⟩⟩

/-- No node of the part has a mode, and it calls only functions in `C`. -/
def CallsOnly (C : FunctionKey → Prop) {τ : Type} [HasNodes τ] (t : τ) : Prop :=
  Everywhere (fun d => d.slot = .empty ∧ ∀ key, d.call? = some key → C key) t

namespace CallsOnly

variable {C : FunctionKey → Prop}

theorem fresh {τ : Type} [HasNodes τ] {t : τ} (h : CallsOnly C t) : IsFresh t := h.imp fun _ h => h.1

theorem mem {τ : Type} [HasNodes τ] {t : τ} (h : CallsOnly C t) {key : FunctionKey}
    (hkey : HasCall t key) : C key := everywhere_call.mp (h.imp fun _ h => h.2) key hkey

theorem pair {τ υ : Type} [HasNodes τ] [HasNodes υ] {t : τ} {u : υ} (ht : CallsOnly C t)
    (hu : CallsOnly C u) : CallsOnly C (t, u) := everywhere_pair.mpr ⟨ht, hu⟩

theorem cons {τ : Type} [HasNodes τ] {t : τ} {l : List τ} (ht : CallsOnly C t) (hl : CallsOnly C l) :
    CallsOnly C (t :: l) := everywhere_cons.mpr ⟨ht, hl⟩

theorem nil {τ : Type} [HasNodes τ] : CallsOnly C ([] : List τ) := everywhere_nil

/-- An expression with the nodes of a part below it. -/
theorem expression {τ : Type} [HasNodes τ] {t : τ} (h : CallsOnly C t) {kind : ExpressionKind}
    (hnodes : nodes kind = nodes t) (hc : ∀ key, kind.call? = some key → C key) (position : SourcePosition) :
    CallsOnly C (Expression.mk kind position .empty) :=
  everywhere_expression.mpr ⟨⟨rfl, hc⟩, (everywhere_congr hnodes).mpr h⟩

/-- A clause with the nodes of a part below it. -/
theorem clause {τ : Type} [HasNodes τ] {t : τ} (h : CallsOnly C t) {kind : ClauseKind}
    (hnodes : nodes kind = nodes t) (position : SourcePosition) :
    CallsOnly C (Clause.mk kind position .empty) :=
  everywhere_clause.mpr ⟨⟨rfl, nofun⟩, (everywhere_congr hnodes).mpr h⟩

/-- An expression without parts that is no call. -/
theorem leaf {kind : ExpressionKind} (hnodes : nodes kind = []) (hc : kind.call? = none)
    (position : SourcePosition) : CallsOnly C (Expression.mk kind position .empty) := by
  refine expression (nil (τ := Expression)) hnodes (fun key hkey => ?_) position
  rw [hc] at hkey
  cases hkey

end CallsOnly

namespace QueryModule

/-- The body of the declared function `f` calls `g`. -/
def Calls (m : QueryModule) (f g : FunctionKey) : Prop := ∃ d ∈ m.functions, d.key = f ∧ HasCall d.body g

/-- No function reaches itself through calls. -/
def Acyclic (m : QueryModule) : Prop := ∀ f, ¬ Relation.TransGen m.Calls f f

variable {m : QueryModule}

theorem Calls.declared {f g : FunctionKey} (h : m.Calls f g) :
    f ∈ m.functions.map FunctionDeclaration.key := by
  obtain ⟨d, hd, rfl, -⟩ := h
  exact List.mem_map.mpr ⟨d, hd, rfl⟩

theorem acyclic_of_rank (rank : FunctionKey → Nat) (h : ∀ f g, m.Calls f g → rank g < rank f) :
    m.Acyclic := by
  have hdown {f g : FunctionKey} (hfg : Relation.TransGen m.Calls f g) : rank g < rank f := by
    induction hfg with
    | single hcall => exact h _ _ hcall
    | tail _ hcall ih => exact (h _ _ hcall).trans ih
  exact fun f hf => (hdown hf).false

/-- In an acyclic module a function outranks what it calls: it reaches more declared functions. -/
theorem acyclic_iff_ranked :
    m.Acyclic ↔ ∃ rank : FunctionKey → Nat, ∀ f g, m.Calls f g → rank g < rank f := by
  refine ⟨fun hm => ?_, fun ⟨rank, h⟩ => acyclic_of_rank rank h⟩
  classical
  let keys := (m.functions.map FunctionDeclaration.key).toFinset
  let reached (f : FunctionKey) := keys.filter (Relation.ReflTransGen m.Calls f)
  refine ⟨fun f => (reached f).card, fun f g hcall => Finset.card_lt_card ?_⟩
  refine (Finset.ssubset_iff_of_subset fun h hh => ?_).mpr ⟨f, ?_, fun hf => ?_⟩
  · obtain ⟨hkey, hreach⟩ := Finset.mem_filter.mp hh
    exact Finset.mem_filter.mpr ⟨hkey, .head hcall hreach⟩
  · exact Finset.mem_filter.mpr ⟨List.mem_toFinset.mpr hcall.declared, .refl⟩
  · exact hm f (.head' hcall (Finset.mem_filter.mp hf).2)

end QueryModule
end HybridQuery
