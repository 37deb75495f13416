import HybridQuery.Evaluation.Driving
import HybridQuery.Proofs.Lifting.Results

/-!
# Spreading a plan

A plan is spread by distributing parts of it: a part may be handed to `parallelize`, and nodes may be
at least as distributed as they were. Spread plans yield like items: the same ones, except that
functions have spread bodies.

* `Plan.Spread`: a plan beside one that it spreads. `Operation.HasRows` is what a distributed node of
  the second plan must have for it.
* `Item.Like`, `Value.Like`, `Context.Like`: like items, values that hold like items, and contexts that
  bind the same names to such values.
-/

namespace HybridQuery

/-! ## Plans -/

/-- A mode beside one that is at most as distributed. -/
def Mode.Spreads (m' m : Mode) : Prop := m = .host ∨ m' = .rows ∧ m = .rows

@[simp] theorem Mode.isParallel_host : Mode.host.isParallel = false := rfl

@[simp] theorem Mode.isParallel_rows : Mode.rows.isParallel = true := rfl

/-- Two pairs whose parts are related. -/
inductive Both {α β : Type} (R : α → β → Prop) : α × α → β × β → Prop
  | mk {a c : α} {b d : β} (left : R a b) (right : R c d) : Both R (a, c) (b, d)

/-- Whether a chain of clauses has a distributed form. -/
def Pipeline.isDistributed : Pipeline → Bool
  | .start => true
  | .clause mode .. => mode.isParallel

/-- What an operation must have for its distributed form; `calls` says which declared functions have
distributed bodies. -/
def Operation.HasRows (calls : FunctionKey → Prop) : Operation → Prop
  | .compute (.builtin b _) => b.mode.isParallel
  | .varRef _ => True
  | .sequence members => ∀ p ∈ members, p.mode.isParallel
  | .navigate _ input => input.mode.isParallel
  | .staticCall name arguments => calls (name, arguments.length) ∧ ∀ p ∈ arguments, p.isSome
  | .flwor pipeline _ => pipeline.isDistributed
  | _ => False

section
variable (modes : Prop) (calls : FunctionKey → Prop)

mutual
/-- A plan and one that it spreads. -/
inductive Plan.Wraps : Plan → Plan → Prop
  | node {m' m : Mode} {position : SourcePosition} {op' op : Operation} (mode : modes → m'.Spreads m)
      (rows : modes → m = .rows → op.HasRows calls) (operation : Operation.Wraps op' op) :
      Plan.Wraps (.mk m' position op') (.mk m position op)
  /-- A part that is handed to `parallelize`. -/
  | wrap {m' : Mode} {position : SourcePosition} {p' p : Plan} {rest : List Plan}
      (mode : modes → m'.Spreads p.mode) (part : Plan.Wraps p' p) :
      Plan.Wraps (.mk m' position (.compute (.builtin .parallelize (p' :: rest)))) p

/-- An operation and one that it spreads. -/
inductive Operation.Wraps : Operation → Operation → Prop
  | compute {c' c : Computation} (h : Computation.Wraps c' c) :
      Operation.Wraps (.compute c') (.compute c)
  | sequence {ps' ps : List Plan} (h : List.Forall₂ Plan.Wraps ps' ps) :
      Operation.Wraps (.sequence ps') (.sequence ps)
  | varRef (name : String) : Operation.Wraps (.varRef name) (.varRef name)
  | range {first' first last' last : Plan} (hf : Plan.Wraps first' first)
      (hl : Plan.Wraps last' last) : Operation.Wraps (.range first' last') (.range first last)
  | conditional {c' c yes' yes no' no : Plan} (hc : Plan.Wraps c' c) (hy : Plan.Wraps yes' yes)
      (hn : Plan.Wraps no' no) :
      Operation.Wraps (.conditional c' yes' no') (.conditional c yes no)
  | navigate {s' s : NavigationStep} {input' input : Plan} (hs : NavigationStep.Wraps s' s)
      (hi : Plan.Wraps input' input) : Operation.Wraps (.navigate s' input') (.navigate s input)
  | staticCall {as' as : List (Option Plan)} {name : String}
      (hname : Builtin.find? name as.length ≠ some .structuredJsonFile)
      (h : List.Forall₂ (Option.Rel Plan.Wraps) as' as) :
      Operation.Wraps (.staticCall name as') (.staticCall name as)
  | dynamicCall {f' f : Plan} {as' as : List (Option Plan)} (hf : Plan.Wraps f' f)
      (h : List.Forall₂ (Option.Rel Plan.Wraps) as' as) :
      Operation.Wraps (.dynamicCall f' as') (.dynamicCall f as)
  | flwor {c' c : Pipeline} {r' r : Plan} (hc : Pipeline.Wraps c' c) (hr : Plan.Wraps r' r) :
      Operation.Wraps (.flwor c' r') (.flwor c r)

/-- A computation and one that it spreads; none reads a frame. -/
inductive Computation.Wraps : Computation → Computation → Prop
  | literal (value : Json) : Computation.Wraps (.literal value) (.literal value)
  | contextItem : Computation.Wraps .contextItem .contextItem
  | arithmetic {l' l r' r : Plan} (op : ArithmeticOp) (hl : Plan.Wraps l' l)
      (hr : Plan.Wraps r' r) : Computation.Wraps (.arithmetic op l' r') (.arithmetic op l r)
  | comparison {l' l r' r : Plan} (op : ComparisonOp) (hl : Plan.Wraps l' l)
      (hr : Plan.Wraps r' r) : Computation.Wraps (.comparison op l' r') (.comparison op l r)
  | logical {l' l r' r : Plan} (op : LogicalOp) (hl : Plan.Wraps l' l)
      (hr : Plan.Wraps r' r) : Computation.Wraps (.logical op l' r') (.logical op l r)
  | not {p' p : Plan} (h : Plan.Wraps p' p) : Computation.Wraps (.not p') (.not p)
  | object {ps' ps : List (Plan × Plan)} (h : List.Forall₂ (Both Plan.Wraps) ps' ps) :
      Computation.Wraps (.object ps') (.object ps)
  | array {m' m : Option Plan} (h : Option.Rel Plan.Wraps m' m) :
      Computation.Wraps (.array m') (.array m)
  | builtin {b : Builtin} {as' as : List Plan} (hb : b ≠ .structuredJsonFile)
      (h : List.Forall₂ Plan.Wraps as' as) :
      Computation.Wraps (.builtin b as') (.builtin b as)
  | inlineFunction {p' p : Plan} (parameters : List String) (signature : Signature)
      (h : Plan.Wraps p' p) :
      Computation.Wraps (.inlineFunction parameters signature p')
        (.inlineFunction parameters signature p)
  | functionRef {name : String} {arity : Nat}
      (hname : Builtin.find? name arity ≠ some .structuredJsonFile) :
      Computation.Wraps (.functionRef name arity) (.functionRef name arity)

/-- A navigation step and one that it spreads. -/
inductive NavigationStep.Wraps : NavigationStep → NavigationStep → Prop
  | objectLookup {p' p : Plan} (h : Plan.Wraps p' p) :
      NavigationStep.Wraps (.objectLookup p') (.objectLookup p)
  | arrayLookup {p' p : Plan} (h : Plan.Wraps p' p) :
      NavigationStep.Wraps (.arrayLookup p') (.arrayLookup p)
  | arrayUnbox : NavigationStep.Wraps .arrayUnbox .arrayUnbox
  | filter {p' p : Plan} (h : Plan.Wraps p' p) : NavigationStep.Wraps (.filter p') (.filter p)

/-- A chain of clauses and one that it spreads. -/
inductive Pipeline.Wraps : Pipeline → Pipeline → Prop
  | start : Pipeline.Wraps .start .start
  | clause {m' m : Mode} {position : SourcePosition} {op' op : ClauseOperation}
      {before' before : Pipeline} (mode : modes → m'.Spreads m)
      (rows : modes → m = .rows → before.isDistributed) (operation : ClauseOperation.Wraps m' m op' op)
      (h : Pipeline.Wraps before' before) :
      Pipeline.Wraps (.clause m' position op' before') (.clause m position op before)

/-- A clause and one that it spreads, with their modes. What a `let` binds on the host stays there. -/
inductive ClauseOperation.Wraps : Mode → Mode → ClauseOperation → ClauseOperation → Prop
  | forEach {m' m : Mode} {p' p : Plan} (name : String) (place : Option String)
      (allowingEmpty : Bool) (h : Plan.Wraps p' p) :
      ClauseOperation.Wraps m' m (.forEach name place allowingEmpty p')
        (.forEach name place allowingEmpty p)
  | letBe {m' m : Mode} {p' p : Plan} (name : String) (h : Plan.Wraps p' p)
      (host : modes → m' = .host ∨ m = .rows ∨ p.mode = .host) :
      ClauseOperation.Wraps m' m (.letBe name p') (.letBe name p)
  | keepWhere {m' m : Mode} {p' p : Plan} (h : Plan.Wraps p' p) :
      ClauseOperation.Wraps m' m (.keepWhere p') (.keepWhere p)
  | count {m' m : Mode} (name : String) : ClauseOperation.Wraps m' m (.count name) (.count name)
end

end

section
variable (calls : FunctionKey → Prop)

/-- A plan that spreads another one. -/
abbrev Plan.Spread : Plan → Plan → Prop := Plan.Wraps True calls

/-- An operation that spreads another one. -/
abbrev Operation.Spread : Operation → Operation → Prop := Operation.Wraps True calls

/-- A computation that spreads another one. -/
abbrev Computation.Spread : Computation → Computation → Prop := Computation.Wraps True calls

/-- A navigation step that spreads another one. -/
abbrev NavigationStep.Spread : NavigationStep → NavigationStep → Prop :=
  NavigationStep.Wraps True calls

/-- A chain of clauses that spreads another one. -/
abbrev Pipeline.Spread : Pipeline → Pipeline → Prop := Pipeline.Wraps True calls

/-- A clause that spreads another one, with their modes. -/
abbrev ClauseOperation.Spread : Mode → Mode → ClauseOperation → ClauseOperation → Prop :=
  ClauseOperation.Wraps True calls

end

theorem Plan.Wraps.spreads {calls : FunctionKey → Prop} {p' p : Plan} (h : p'.Spread calls p) :
    p'.mode.Spreads p.mode := by
  cases h with
  | node mode rows operation => exact mode trivial
  | wrap mode part => exact mode trivial

theorem Plan.Wraps.mode_eq_rows {calls : FunctionKey → Prop} {p' p : Plan} (h : p'.Spread calls p)
    (hp : p.mode.isParallel = true) : p.mode = .rows := by
  rcases h.spreads with hm | ⟨-, hm⟩
  · rw [hm] at hp
    cases hp
  · exact hm

/-! ## Items -/

/-- Values of which the first is at least as distributed as the second, and which hold related items. -/
inductive Value.Like {α : Type} (R : α → α → Prop) : Value α → Value α → Prop
  | items {xs' xs : List α} (h : List.Forall₂ R xs' xs) : Value.Like R (.items xs') (.items xs)
  | lowered {c' : Collection α} {xs : List α} (h : List.Forall₂ R c'.records xs) :
      Value.Like R (.rows c') (.items xs)
  | rows {c' c : Collection α} (h : List.Forall₂ R c'.records c.records) :
      Value.Like R (.rows c') (.rows c)

/-- Items that are the same, except that functions may have related bodies. -/
inductive Item.Like (S : Plan → Plan → Prop) : Item → Item → Prop
  | atomic {i : Item} (h : i.isAtomic = true) : Item.Like S i i
  | object {ps' ps : List (String × Item)} (h : List.Forall₂ (Keyed (Item.Like S)) ps' ps) :
      Item.Like S (.object ps') (.object ps)
  | array {ms' ms : List Item} (h : List.Forall₂ (Item.Like S) ms' ms) :
      Item.Like S (.array ms') (.array ms)
  | function {body' body : Plan} {closure' closure : List (String × Value Item)}
      (handle : Option Nat) (name : Option String) (parameters : List String)
      (signature : Signature) (hbody : S body' body)
      (hclosure : List.Forall₂ (Keyed (Value.Like (Item.Like S))) closure' closure) :
      Item.Like S (.function ⟨handle, name, parameters, signature, body', ⟨closure'⟩⟩)
        (.function ⟨handle, name, parameters, signature, body, ⟨closure⟩⟩)

section
variable (S : Plan → Plan → Prop)

/-- Sequences of like items. -/
abbrev Sequence.Like : Sequence → Sequence → Prop := List.Forall₂ (Item.Like S)

/-- Like items in each representation. -/
abbrev ValueLike : Value Item → Value Item → Prop := Value.Like (Item.Like S)

/-- The same names, bound to values of like items. -/
abbrev PairsLike : List (String × Value Item) → List (String × Value Item) → Prop :=
  List.Forall₂ (Keyed (ValueLike S))

/-- Functions that are alike as items. -/
def FunctionOf.Like (f' f : FunctionItem) : Prop := Item.Like S (.function f') (.function f)

/-- Tuples of the same variables with values of like items. -/
def Tuple.Like (t' t : Tuple) : Prop := PairsLike S t'.pairs t.pairs

/-- Scopes that bind the same names to values of like items. -/
def BindingsOf.Like (b' b : Bindings) : Prop := PairsLike S b'.pairs b.pairs

/-- Chains of such scopes; empty scopes in the second one do not matter. -/
inductive ScopesLike : List Bindings → List Bindings → Prop
  | nil : ScopesLike [] []
  | cons {b' b : Bindings} {scopes' scopes : List Bindings} (head : b'.Like S b)
      (rest : ScopesLike scopes' scopes) : ScopesLike (b' :: scopes') (b :: scopes)
  | skip {scopes' scopes : List Bindings} (rest : ScopesLike scopes' scopes) :
      ScopesLike scopes' (.empty :: scopes)

/-- Contexts with such chains. -/
def Context.Like (c' c : Context) : Prop := ScopesLike S c'.scopes c.scopes

end
end HybridQuery
