import Mathlib.Data.Set.Defs
import HybridQuery.Proofs.Compilation
import HybridQuery.Proofs.Lifting.Bindings
import HybridQuery.Proofs.Meaning.Contracts

/-!
# Positions that failures are blamed on

A failure picks up a position where it first leaves a node, and keeps it. Which positions these can be is
said by a set: a part stands in the set if all nodes that can be evaluated on its behalf do, those in the
bodies of functions among its values included.

* `EngineError.Blames`, `EngineError.BlamesOnly`: an error that is blamed on a position of a set, and one
  that is so if it is blamed at all. `EngineError.Blames.locate_eq`: a blamed error keeps its position.
* `Plan.StandsIn`, `Item.StandsIn`, `Context.StandsIn`: plans, values and contexts that stand in a set.
-/

namespace HybridQuery

variable {S : Set SourcePosition}

/-! ## Failures -/

namespace EngineError

variable {e : EngineError}

/-- The error is blamed on no position outside the set. -/
def BlamesOnly (S : Set SourcePosition) (e : EngineError) : Prop := ∀ p, e.position = some p → p ∈ S

/-- The error is blamed on a position of the set. -/
def Blames (S : Set SourcePosition) (e : EngineError) : Prop := ∃ p ∈ S, e.position = some p

theorem blamesOnly_of (fault : Fault) : (of fault).BlamesOnly S := nofun

theorem Blames.only (h : e.Blames S) : e.BlamesOnly S := by
  obtain ⟨p, hp, he⟩ := h
  intro q hq
  cases he.symm.trans hq
  exact hp

theorem BlamesOnly.locate (h : e.BlamesOnly S) {position : SourcePosition} (hp : position ∈ S) :
    (e.locate position).Blames S := by
  rw [EngineError.locate]
  cases he : e.position with
  | none => exact ⟨position, hp, rfl⟩
  | some q => exact ⟨q, h q he, he⟩

/-- Once an error is blamed on a position it keeps that position. -/
theorem Blames.locate_eq (h : e.Blames S) (position : SourcePosition) : e.locate position = e := by
  obtain ⟨p, -, he⟩ := h
  rw [EngineError.locate, he]

end EngineError

namespace Failure

variable {f : Failure}

/-- The failure is blamed on no position outside the set. -/
def BlamesOnly (S : Set SourcePosition) : Failure → Prop
  | raised e => e.BlamesOnly S
  | exhausted => True

/-- The failure is blamed on a position of the set, unless the allowance of steps is used up. -/
def Blames (S : Set SourcePosition) : Failure → Prop
  | raised e => e.Blames S
  | exhausted => True

theorem Blames.only (h : f.Blames S) : f.BlamesOnly S := by
  cases f with
  | raised e => exact EngineError.Blames.only h
  | exhausted => trivial

theorem BlamesOnly.locate (h : f.BlamesOnly S) {position : SourcePosition} (hp : position ∈ S) :
    (f.locate position).Blames S := by
  cases f with
  | raised e => exact EngineError.BlamesOnly.locate h hp
  | exhausted => trivial

end Failure

/-! ## Results -/

section
variable {α : Type} {P : α → Prop}

/-- A failure that has no position yet. -/
theorem EndsIn.fail (fault : Fault) : EndsIn P (EngineError.BlamesOnly S) (EngineResult.fail fault) :=
  .error (EngineError.blamesOnly_of fault)

theorem EndsIn.toEngine {E : TypeFault → Prop} {d : TypeResult α} (h : EndsIn P E d) :
    EndsIn P (EngineError.BlamesOnly S) d.toEngine :=
  h.mapError fun f _ => EngineError.blamesOnly_of f.toFault

theorem EndsIn.locate {d : EngineResult α} (h : EndsIn P (EngineError.BlamesOnly S) d)
    {position : SourcePosition} (hp : position ∈ S) :
    EndsIn P (EngineError.Blames S) (d.locate position) := h.mapError fun _ he => he.locate hp

theorem EndsIn.only {d : EngineResult α} (h : EndsIn P (EngineError.Blames S) d) :
    EndsIn P (EngineError.BlamesOnly S) d := h.mono (fun _ h => h) fun _ h => h.only

end

/-! ## Plans -/

/-- The positions of the clauses of a chain. -/
def Pipeline.positions : Pipeline → List SourcePosition
  | start => []
  | clause _ position _ feed => position :: feed.positions

/-- The positions of the clauses of an operation. -/
def Operation.clausePositions : Operation → List SourcePosition
  | flwor pipeline _ => pipeline.positions
  | _ => []

/-- A plan whose nodes and clauses all stand in the set. -/
inductive Plan.StandsIn (S : Set SourcePosition) : Plan → Prop
  | mk {mode : Mode} {position : SourcePosition} {operation : Operation} (hposition : position ∈ S)
      (hclauses : ∀ q ∈ operation.clausePositions, q ∈ S)
      (hparts : ∀ p ∈ operation.parts, Plan.StandsIn S p) : Plan.StandsIn S (.mk mode position operation)

theorem Plan.StandsIn.position {p : Plan} (h : p.StandsIn S) : p.position ∈ S := by
  cases h
  assumption

/-- Plans that all stand in the set. -/
abbrev PlansStandIn (S : Set SourcePosition) (ps : List Plan) : Prop := ∀ p ∈ ps, p.StandsIn S

/-- A chain whose clauses and the plans below them stand in the set. -/
structure Pipeline.StandsIn (S : Set SourcePosition) (b : Pipeline) : Prop where
  positions : ∀ q ∈ b.positions, q ∈ S
  parts : PlansStandIn S b.parts

theorem Pipeline.standsIn_clause {mode : Mode} {position : SourcePosition} {operation : ClauseOperation}
    {feed : Pipeline} :
    (clause mode position operation feed).StandsIn S ↔
      position ∈ S ∧ PlansStandIn S operation.parts ∧ feed.StandsIn S := by
  constructor
  · rintro ⟨hpositions, hparts⟩
    obtain ⟨hposition, hpositions⟩ := List.forall_mem_cons.mp hpositions
    obtain ⟨hoperation, hparts⟩ := List.forall_mem_append.mp hparts
    exact ⟨hposition, hoperation, hpositions, hparts⟩
  · rintro ⟨hposition, hoperation, hpositions, hparts⟩
    exact ⟨List.forall_mem_cons.mpr ⟨hposition, hpositions⟩, List.forall_mem_append.mpr ⟨hoperation, hparts⟩⟩

/-! ## Items and values -/

/-- The items in the cells of a frame. -/
def Frame.cells (f : Frame Item) : List Item :=
  f.chunks.flatMap fun chunk => chunk.columns.flatMap fun column => column.filterMap id

/-- The items that a value holds. -/
def Value.held : Value Item → List Item
  | items xs => xs
  | rows c => c.records
  | columns f => f.cells

/-- An item in which the bodies of all functions stand in the set, and so do the values they closed
over. -/
inductive Item.StandsIn (S : Set SourcePosition) : Item → Prop
  | atomic {i : Item} (h : i.isAtomic = true) : Item.StandsIn S i
  | object {pairs : List (String × Item)} (h : ∀ p ∈ pairs, Item.StandsIn S p.2) :
      Item.StandsIn S (.object pairs)
  | array {members : List Item} (h : ∀ i ∈ members, Item.StandsIn S i) :
      Item.StandsIn S (.array members)
  | function {f : FunctionItem} (hbody : f.body.StandsIn S)
      (hclosure : ∀ p ∈ f.closure.pairs, ∀ i ∈ p.2.held, Item.StandsIn S i) :
      Item.StandsIn S (.function f)

/-- Items that all stand in the set. -/
abbrev ItemsStandIn (S : Set SourcePosition) (items : List Item) : Prop := ∀ i ∈ items, i.StandsIn S

/-- A value that holds only items that stand in the set. -/
def Value.StandsIn (S : Set SourcePosition) (v : Value Item) : Prop := ItemsStandIn S v.held

/-- A frame whose cells stand in the set. -/
def Frame.StandsIn (S : Set SourcePosition) (f : Frame Item) : Prop := ItemsStandIn S f.cells

/-- A collection of items that stand in the set. -/
def Collection.StandsIn (S : Set SourcePosition) (c : Collection Item) : Prop := ItemsStandIn S c.records

/-- Names that are bound to values that stand in the set. -/
abbrev PairsStandIn (S : Set SourcePosition) (pairs : List (String × Value Item)) : Prop :=
  ∀ p ∈ pairs, p.2.StandsIn S

/-- A scope of values that stand in the set. -/
def BindingsOf.StandsIn (S : Set SourcePosition) (b : Bindings) : Prop := PairsStandIn S b.pairs

/-- A tuple of values that stand in the set. -/
def Tuple.StandsIn (S : Set SourcePosition) (t : Tuple) : Prop := PairsStandIn S t.pairs

/-- A context of such scopes. -/
def Context.StandsIn (S : Set SourcePosition) (c : Context) : Prop := ∀ b ∈ c.scopes, b.StandsIn S

/-- A function whose body stands in the set, and whose closure does. -/
structure FunctionOf.StandsIn (S : Set SourcePosition) (f : FunctionItem) : Prop where
  body : f.body.StandsIn S
  closure : f.closure.StandsIn S

/-- A call of a function that stands in the set, or an evaluation in such a context. -/
inductive Invocation.StandsIn (S : Set SourcePosition) : Invocation → Prop
  | partially {f : FunctionItem} (h : f.StandsIn S) : Invocation.StandsIn S (.partially f)
  | fully {c : Context} (h : c.StandsIn S) : Invocation.StandsIn S (.fully c)

/-- An environment whose functions stand in a set with the position of built-in bodies in it. -/
structure Environment.StandsIn (S : Set SourcePosition) (env : Environment) : Prop where
  unknown : .unknown ∈ S
  functions : ∀ f ∈ env.functions, f.StandsIn S

theorem Item.standsIn_function {f : FunctionItem} : (Item.function f).StandsIn S ↔ f.StandsIn S := by
  constructor
  · intro h
    cases h with
    | atomic h => cases h
    | function hbody hclosure => exact ⟨hbody, hclosure⟩
  · exact fun h => .function h.body h.closure

end HybridQuery
