import HybridQuery.Proofs.Recutting.Runs

/-!
# Computations over values that are cut differently

What is computed from recut values, and what an evaluator makes of plain plans in recut contexts, is recut,
if the evaluator gives recut results for the plans.

* `Engine.rows_recut`, `Engine.materialize_recut`: crossing between distributed and host. A value that is
  distributed first is cut into as many partitions as the environment says.
* `Engine.jsonLines_recut`, `Engine.jsonFrame_recut`: sources.
* `PlanEvaluator.Recuts`: evaluators that give recut results; one lemma for each function of
  `PlanEvaluator`.
-/

namespace HybridQuery

/-! ## Crossing the boundary -/

section
variable {α : Type} {R : α → α → Prop} {c d : Collection α}

theorem Collection.capped_recut (h : c.RecutBy R d) (cap : Option Nat) :
    Agree (List.Forall₂ R) (c.capped cap) (d.capped cap) := by
  cases cap with
  | none => exact .ok h
  | some cap =>
    have htake := h.take ((cap + 1) % wordBound)
    simp only [capped, htake.length_eq]
    split
    · exact .error _
    · exact .ok htake

theorem Engine.materialize_recut (h : c.RecutBy R d) (position : SourcePosition) :
    Engine.Agree (List.Forall₂ R) (materialize c position) (materialize d position) := by
  refine .bind .environment fun env env' he => ?_
  rw [he.cap]
  exact .bind (.ofResult ((Collection.capped_recut h _).mapError _)) fun _ _ h =>
    .bind (.count _ _) fun _ _ _ => .bind (.log _ _ _) fun _ _ _ => .pure h

end

theorem Engine.rows_recut {v w : Value Item} (h : v.Recut w) :
    Engine.Agree (Collection.RecutBy Item.Recut) (rows v) (rows w) := by
  cases h with
  | items h => exact .bind .environment fun _ _ _ => .pure (.parallelize h _ _)
  | rows h => exact .pure h
  | columns h => exact .pure h.toRows

theorem Engine.items_recut {v w : Value Item} (h : v.Recut w) (position : SourcePosition) :
    Engine.Agree Sequence.Recut (items v position) (items w position) := by
  cases h with
  | items h => exact .pure h
  | @rows c d h => exact materialize_recut (c := c) (d := d) h position
  | columns h => exact materialize_recut h.toRows position

/-! ## Sources -/

mutual
/-- There are no functions in what is read from JSON. -/
theorem Item.lift_ofJson {F : FunctionItem → FunctionItem → Prop} :
    ∀ json : Json, Item.Lift F (ofJson json) (ofJson json)
  | .null | .bool _ | .string _ => .atomic rfl
  | .integer n => .atomic (by rw [ofJson, ofInteger]; split <;> rfl)
  | .double d => .atomic (by
      rw [ofJson, ofDouble]
      split
      · split
        · rfl
        · split <;> rfl
      · rfl)
  | .array members => .array (lift_membersOfJson members)
  | .object pairs => .object (lift_pairsOfJson pairs)

theorem Item.lift_membersOfJson {F : FunctionItem → FunctionItem → Prop} :
    ∀ members : List Json, Sequence.Lift F (membersOfJson members) (membersOfJson members)
  | [] => .nil
  | m :: rest => .cons (lift_ofJson m) (lift_membersOfJson rest)

theorem Item.lift_pairsOfJson {F : FunctionItem → FunctionItem → Prop} :
    ∀ pairs : List (String × Json),
      List.Forall₂ (Keyed (Item.Lift F)) (pairsOfJson pairs) (pairsOfJson pairs)
  | [] => .nil
  | (key, value) :: rest => .cons (.mk key (lift_ofJson value)) (lift_pairsOfJson rest)
end

namespace Engine

theorem sourceText_recut (location : String) :
    Engine.Agree (· = ·) (sourceText location) (sourceText location) := by
  refine .bind .environment fun env env' he => ?_
  rw [he.files]
  cases SourceLocation.path location with
  | error fault => exact .pure rfl
  | ok path => exact .bind (.consult path) fun _ _ _ => .pure rfl

/-- The lines of a file are the same, wherever they are cut. -/
theorem textLines_recut (location : String) (partitions partitions' : Nat) :
    Engine.Agree (Collection.RecutBy (· = ·)) (textLines location partitions)
      (textLines location partitions') := by
  have hlines : Engine.Agree (HybridQuery.Agree (Collection.RecutBy (· = ·)))
      (textLines? location partitions) (textLines? location partitions') := by
    refine .bind (sourceText_recut location) fun text _ htext => ?_
    cases htext
    cases text with
    | error fault => exact .pure (.error fault)
    | ok text =>
      exact .bind (.log _ _ _) fun _ _ _ =>
        .pure (.ok (.parallelize (List.forall₂_same.mpr fun _ _ => rfl) _ _))
  refine .bind hlines fun lines lines' h => ?_
  cases h with
  | ok h => exact .pure h
  | error fault => exact .fail _

theorem lineItems_recut (line : String) :
    HybridQuery.Agree Sequence.Recut (lineItems line) (lineItems line) := by
  unfold lineItems
  split
  · exact .ok .nil
  · unfold Item.ofLine
    cases Json.read? line with
    | some json => exact .ok (.cons (Item.lift_ofJson _) .nil)
    | none => exact .error _

theorem jsonLines_recut (location : String) (partitions partitions' : Nat) :
    Engine.Agree (Collection.RecutBy Item.Recut) (jsonLines location partitions)
      (jsonLines location partitions') :=
  .bind (textLines_recut location partitions partitions') fun _ _ h =>
    .ofResult (.collectionFlatMapM h fun line _ hline => by
      cases hline
      exact lineItems_recut line)

theorem jsonFrame_recut (location : String) :
    Engine.Agree Frame.Recut (jsonFrame location) (jsonFrame location) :=
  .bind .environment fun _ _ _ => .bind (jsonLines_recut location _ _) fun _ _ h =>
    .ofResult (Frame.ofObjects_recut h)

end Engine

/-! ## Evaluators of plans -/

/-- A plan evaluator that gives recut results for plain plans in recut contexts. -/
structure PlanEvaluator.Recuts (ev : PlanEvaluator) : Prop where
  evaluate {p : Plan} (hp : p.IsPlain) {c d : Context} (hc : c.Recut d) :
    Engine.Agree Sequence.Recut (ev.evaluate p c) (ev.evaluate p d)
  rows {p : Plan} (hp : p.IsPlain) {c d : Context} (hc : c.Recut d) :
    Engine.Agree (Collection.RecutBy Item.Recut) (ev.rows p c) (ev.rows p d)
  planFrame {p : Plan} (hp : p.IsPlain) {c d : Context} (hc : c.Recut d) :
    Engine.Agree Frame.Recut (ev.planFrame p c) (ev.planFrame p d)
  firstOnHost {p : Plan} (hp : p.IsPlain) {c d : Context} (hc : c.Recut d) :
    Engine.Agree Sequence.Recut (ev.firstOnHost p c) (ev.firstOnHost p d)
  emptyOnHost {p : Plan} (hp : p.IsPlain) {c d : Context} (hc : c.Recut d) :
    Engine.Agree (· = ·) (ev.emptyOnHost p c) (ev.emptyOnHost p d)

theorem Engine.valueIn_recut (mode : Mode) {items items' : Engine Sequence}
    {rows rows' : Engine (Collection Item)} {frame frame' : Engine (Frame Item)}
    (hi : Engine.Agree Sequence.Recut items items')
    (hr : Engine.Agree (Collection.RecutBy Item.Recut) rows rows')
    (hf : Engine.Agree Frame.Recut frame frame') :
    Engine.Agree Value.Recut (valueIn mode items rows frame) (valueIn mode items' rows' frame') := by
  cases mode with
  | unset | host => exact .map hi fun _ _ h => .items h
  | rows => exact .map hr fun _ _ h => .rows h
  | columns => exact .map hf fun _ _ h => .columns h

theorem Builtin.toFunction_recut (b : Builtin) (arity : Nat) :
    (b.toFunction arity).Recut (b.toFunction arity) := by
  refine .of_closure (.mk (.compute (.builtin b fun p hp => ?_))) .empty
  obtain ⟨name, -, rfl⟩ := List.mem_map.mp hp
  exact Plan.isPlain_hostVariable name _

theorem Registry.get_recut {r r' : Registry} (h : List.Forall₂ FunctionOf.Recut r r')
    (key : FunctionKey) : Agree FunctionOf.Recut (r.get key) (r'.get key) := by
  have hfind : Option.Rel FunctionOf.Recut (r.find? key) (r'.find? key) :=
    find?_forall₂ h fun _ _ h => by rw [h.alike.keyOf?_eq]
  unfold get
  generalize r.find? key = o, r'.find? key = o' at hfind
  cases hfind with
  | none => exact .error _
  | some h => exact .ok h

namespace PlanEvaluator

/-! ### Calls that evaluate no plan -/

theorem namedFunction_recut (name : String) (arity : Nat) :
    Engine.Agree FunctionOf.Recut (namedFunction name arity) (namedFunction name arity) := by
  unfold namedFunction
  cases Builtin.find? name arity with
  | some b => exact .pure (b.toFunction_recut arity)
  | none => exact .bind .environment fun _ _ he => .ofResult (Registry.get_recut he.functions _)

theorem invocation_recut {f g : FunctionItem} (h : f.Recut g) {vs ws : List (Option (Value Item))}
    (ha : List.Forall₂ (Option.Rel Value.Recut) vs ws) :
    Engine.Agree Invocation.Recut (invocation f vs) (invocation g ws) :=
  .bind .environment fun _ _ he => by
    rw [he.catalogue]
    exact .ofResult (Invocation.of_recut h _ ha)

theorem calledFunction_recut {s t : Sequence} (h : s.Recut t) :
    Agree FunctionOf.Recut (calledFunction s) (calledFunction t) := by
  have hlast : (s.getLast?.map Item.typeName) = t.getLast?.map Item.typeName := by
    have := getElem?_forall₂ h (t.length - 1)
    rw [List.getLast?_eq_getElem?, List.getLast?_eq_getElem?, h.length_eq]
    revert this
    generalize s[t.length - 1]? = o, t[t.length - 1]? = p
    intro this
    cases this with
    | none => rfl
    | some h => exact congrArg some h.typeName_eq
  have hmany (i j : Item) (rest : Sequence) : calledFunction (i :: j :: rest) =
      .fail (.notFunction (((i :: j :: rest).getLast?.map Item.typeName).getD "an empty sequence")) := by
    cases i <;> rfl
  cases h with
  | nil => exact .error _
  | cons hi hr =>
    cases hr with
    | nil =>
      cases hi with
      | function h => exact .ok h
      | atomic ha =>
        rename_i i
        cases i <;> first | exact .error _ | cases ha
      | object | array => exact .error _
    | cons hj hr =>
      rw [hmany, hmany, hlast]
      exact .error _

theorem promoteRows_recut (type : SequenceType) {rows rows' : Collection Item}
    (h : rows.RecutBy Item.Recut rows') :
    Engine.Agree (Collection.RecutBy Item.Recut) (promoteRows type rows) (promoteRows type rows') := by
  unfold promoteRows
  split
  · exact .pure h
  · refine .bind .environment fun env env' he => .ofResult (Agree.mapError ?_ _)
    rw [he.catalogue, h.count_eq]
    exact (Agree.refl _).bind fun _ _ _ => Catalogue.promoteRows_recut _ h _

theorem builtinArgument_recut (b : Builtin) {arguments : List Plan}
    (h : ∀ p ∈ arguments, p.IsPlain) (index : Nat) :
    Engine.Agree (fun p q => p = q ∧ p.IsPlain) (builtinArgument b arguments index)
      (builtinArgument b arguments index) := by
  unfold builtinArgument
  cases hp : arguments[index]? with
  | some p => exact .pure ⟨rfl, h p (List.mem_of_getElem? hp)⟩
  | none => exact .fail _

theorem countRecords_recut {rows rows' : Collection Item} (h : rows.RecutBy Item.Recut rows') :
    Engine.Agree (Collection.RecutBy Item.Recut) (countRecords rows) (countRecords rows') :=
  .bind (.count _ _) fun _ _ _ => .pure h

namespace Recuts

variable {ev : PlanEvaluator} (h : ev.Recuts) {c d : Context} (hc : c.Recut d)
include h hc

/-! ### Values, operands and truth values -/

theorem value {p : Plan} (hp : p.IsPlain) :
    Engine.Agree Value.Recut (ev.value p c) (ev.value p d) :=
  Engine.valueIn_recut p.mode (h.evaluate hp hc) (h.rows hp hc) (h.planFrame hp hc)

theorem optionalItem {p : Plan} (hp : p.IsPlain) (what : String) :
    Engine.Agree (Option.Rel Item.Recut) (ev.optionalItem p c what) (ev.optionalItem p d what) :=
  .bind (h.evaluate hp hc) fun _ _ hs => .ofResult (Sequence.optional_lift hs what p.position)

theorem truth {p : Plan} (hp : p.IsPlain) :
    Engine.Agree (· = ·) (ev.truth p c) (ev.truth p d) :=
  .bind (h.evaluate hp hc) fun _ _ hs => by
    rw [Sequence.truth_lift hs]
    exact .ofResult (.refl _)

/-- Operands are atomics, which are the same on both sides. -/
theorem operand {p : Plan} (hp : p.IsPlain) :
    Engine.Agree (· = ·) (ev.operand p c) (ev.operand p d) := by
  refine .bind (h.optionalItem hc hp _) fun o o' ho => ?_
  cases ho with
  | none => exact .pure rfl
  | @some i j hi =>
    cases hi with
    | atomic ha =>
      simp only [ha, ↓reduceIte]
      exact .pure rfl
    | object | array | function => exact .locate (.fail _) p.position

theorem binary {left right : Plan} (hleft : left.IsPlain) (hright : right.IsPlain)
    {apply : Item → Item → EngineResult Item}
    (happly : ∀ l r i, apply l r = .ok i → i.isAtomic = true) :
    Engine.Agree Sequence.Recut (ev.binary left right c apply) (ev.binary left right d apply) := by
  refine .bind (h.operand hc hleft) fun l _ hl => .bind (h.operand hc hright) fun r _ hr => ?_
  cases hl
  cases hr
  rcases l with _ | l <;> rcases r with _ | r
  · exact .pure .nil
  · exact .pure .nil
  · exact .pure .nil
  · exact .bind (.ofResult (.same (R := Item.Recut) fun i hi => .atomic (happly l r i hi)))
      fun _ _ hi => .pure (.cons hi .nil)

theorem connective (op : LogicalOp) {left right : Plan} (hleft : left.IsPlain)
    (hright : right.IsPlain) :
    Engine.Agree (· = ·) (ev.connective op left right c) (ev.connective op left right d) := by
  refine .bind (h.truth hc hleft) fun b _ hb => ?_
  cases hb
  cases op <;> cases b
  · exact .pure rfl
  · exact h.truth hc hright
  · exact h.truth hc hright
  · exact .pure rfl

/-! ### Constructors -/

theorem pairKey {p : Plan} (hp : p.IsPlain) :
    Engine.Agree (· = ·) (ev.pairKey p c) (ev.pairKey p d) := by
  refine .bind (h.optionalItem hc hp _) fun o o' ho => ?_
  cases ho with
  | none => exact .locate (.fail _) p.position
  | @some i j hi =>
    simp only [Fault.objectKeyNotAtomic, hi.keyText?_eq, hi.typeName_eq]
    split
    · exact .pure rfl
    · exact .locate (.fail _) p.position

theorem objectPairs {pairs : List (Plan × Plan)} (hkeys : ∀ p ∈ pairs, p.1.IsPlain)
    (hvalues : ∀ p ∈ pairs, p.2.IsPlain) {done done' : List (String × Item)}
    (hdone : List.Forall₂ (Keyed Item.Recut) done done') :
    Engine.Agree (List.Forall₂ (Keyed Item.Recut)) (ev.objectPairs c done pairs)
      (ev.objectPairs d done' pairs) := by
  induction pairs generalizing done done' with
  | nil => exact .pure hdone
  | cons pair rest ih =>
    obtain ⟨hkey, hkeys⟩ := List.forall_mem_cons.mp hkeys
    obtain ⟨hvalue, hvalues⟩ := List.forall_mem_cons.mp hvalues
    refine .bind (h.pairKey hc hkey) fun k _ hk => ?_
    cases hk
    rw [Keyed.any_eq hdone (· == k)]
    split
    · exact .locate (.fail _) pair.2.position
    · exact .bind (h.evaluate hvalue hc) fun _ _ hs =>
        ih hkeys hvalues (List.rel_append hdone (.cons (.mk k (Sequence.asItem_lift hs)) .nil))

/-! ### Navigation -/

theorem lookupKey {p : Plan} (hp : p.IsPlain) :
    Engine.Agree (· = ·) (ev.lookupKey p c) (ev.lookupKey p d) := by
  refine .bind (h.optionalItem hc hp _) fun o o' ho => ?_
  cases ho with
  | none => exact .pure rfl
  | some hi =>
    simp only [Fault.lookupKeyNotAtomic, hi.keyText?_eq, hi.typeName_eq]
    split
    · exact .pure rfl
    · exact .fail _

theorem lookupIndex {p : Plan} (hp : p.IsPlain) :
    Engine.Agree (· = ·) (ev.lookupIndex p c) (ev.lookupIndex p d) := by
  refine .bind (h.optionalItem hc hp _) fun o o' ho => ?_
  cases ho with
  | none => exact .pure rfl
  | some hi =>
    cases hi with
    | atomic ha =>
      rename_i i
      cases i <;> first | exact .pure rfl | exact .fail _
    | object | array | function => exact .fail _

theorem stepOperand {step : NavigationStep} (hs : step.IsPlain) :
    Engine.Agree (· = ·) (ev.stepOperand step c) (ev.stepOperand step d) := by
  cases hs with
  | objectLookup hp => exact .map (h.lookupKey hc hp) fun _ _ hk => congrArg _ hk
  | arrayLookup hp => exact .map (h.lookupIndex hc hp) fun _ _ hk => congrArg _ hk
  | arrayUnbox | filter => exact .pure rfl

theorem keeps {predicate : Plan} (hp : predicate.IsPlain) (place : Nat) {i j : Item}
    (hi : Item.Recut i j) :
    Engine.Agree (· = ·) (ev.keeps predicate place i c) (ev.keeps predicate place j d) := by
  have hscope := hc.withBinding contextItemName (.items (.cons hi .nil))
  refine .bind (h.evaluate hp hscope) fun s t hs => ?_
  have htruth := Sequence.truth_lift hs
  cases hs with
  | nil => exact .ofResult (.refl _)
  | @cons r r' _ _ hr hrest =>
    cases hrest with
    | nil =>
      dsimp only
      rw [hr.isNumeric_eq]
      split
      · next hn =>
        rw [hr.eq_of_isAtomic (Item.isAtomic_of_isNumeric (hr.isNumeric_eq.trans hn))]
        exact .pure rfl
      · rw [hr.truth_eq]
        exact .ofResult (.refl _)
    | cons hr' hrest =>
      dsimp only
      rw [htruth]
      exact .ofResult (.refl _)

theorem applyStep {step : NavigationStep} (hs : step.IsPlain) (operand : StepOperand) (place : Nat)
    {i j : Item} (hi : Item.Recut i j) :
    Engine.Agree Sequence.Recut (ev.applyStep step operand place i c)
      (ev.applyStep step operand place j d) := by
  unfold PlanEvaluator.applyStep
  split
  · exact .pure (Option.Rel.toList (hi.member? _))
  · exact .pure (Option.Rel.toList (memberAt_lift hi _))
  · exact .pure hi.members
  · cases hs with
    | filter hp =>
      refine .bind (h.keeps hc hp place hi) fun kept _ hkept => ?_
      cases hkept
      cases kept
      · exact .pure .nil
      · exact .pure (.cons hi .nil)
  · exact .pure .nil

theorem stepFrame {step : NavigationStep} (hs : step.IsPlain) {input input' : Engine (Frame Item)}
    (hinput : Engine.Agree Frame.Recut input input') :
    Engine.Agree Frame.Recut (ev.stepFrame step input c) (ev.stepFrame step input' d) := by
  refine .bind (h.stepOperand hc hs) fun operand _ hoperand => ?_
  cases hoperand
  split
  · exact .bind hinput fun _ _ hf => .pure (hf.select _)
  · exact .fail _
  · exact .fail _

theorem stepRows {step : NavigationStep} (hs : step.IsPlain) (operand : StepOperand)
    {rows rows' : Collection Item} (hrows : rows.RecutBy Item.Recut rows') :
    Engine.Agree (Collection.RecutBy Item.Recut) (ev.stepRows step operand rows c)
      (ev.stepRows step operand rows' d) := by
  unfold PlanEvaluator.stepRows
  split
  · refine .flatMapM hrows.zipWithIndex fun ⟨i, index⟩ ⟨j, _⟩ hi => ?_
    obtain ⟨hi, rfl⟩ := hi
    exact h.applyStep hc hs operand (index + 1) hi
  · exact .flatMapM hrows fun _ _ hi => h.applyStep hc hs operand 0 hi

/-! ### Calls -/

theorem argumentValues {arguments : List (Option Plan)} (ha : ∀ p, some p ∈ arguments → p.IsPlain) :
    Engine.Agree (List.Forall₂ (Option.Rel Value.Recut)) (ev.argumentValues c arguments)
      (ev.argumentValues d arguments) := by
  induction arguments with
  | nil => exact .pure .nil
  | cons argument rest ih =>
    have hrest := ih fun p hp => ha p (List.mem_cons_of_mem _ hp)
    cases argument with
    | none => exact .bind hrest fun _ _ hvs => .pure (.cons .none hvs)
    | some p =>
      exact .bind (h.value hc (ha p List.mem_cons_self)) fun _ _ hv =>
        .bind hrest fun _ _ hvs => .pure (.cons (.some hv) hvs)

theorem namedCall (name : String) {arguments : List (Option Plan)}
    (ha : ∀ p, some p ∈ arguments → p.IsPlain) :
    Engine.Agree (fun x y => x.1.Recut y.1 ∧ x.2.Recut y.2) (ev.namedCall name arguments c)
      (ev.namedCall name arguments d) :=
  .bind (namedFunction_recut name _) fun _ _ hf => .bind (h.argumentValues hc ha) fun _ _ hvs =>
    .bind (invocation_recut hf hvs) fun _ _ hi => .pure ⟨hf, hi⟩

theorem computedCall {function : Plan} (hp : function.IsPlain) {arguments : List (Option Plan)}
    (ha : ∀ p, some p ∈ arguments → p.IsPlain) (position : SourcePosition) :
    Engine.Agree (fun x y => x.1.Recut y.1 ∧ x.2.Recut y.2)
      (ev.computedCall function arguments position c) (ev.computedCall function arguments position d) :=
  .bind (h.evaluate hp hc) fun _ _ hs => .bind (.ofResult ((calledFunction_recut hs).mapError _))
    fun _ _ hf => .bind (h.argumentValues hc ha) fun _ _ hvs =>
      .bind (.locate (invocation_recut hf hvs) position) fun _ _ hi => .pure ⟨hf, hi⟩

theorem fullCall (name : String) {arguments : List (Option Plan)}
    (ha : ∀ p, some p ∈ arguments → p.IsPlain) :
    Engine.Agree (fun x y => x.1.Recut y.1 ∧ x.2.Recut y.2) (ev.fullCall name arguments c)
      (ev.fullCall name arguments d) := by
  refine .bind (h.namedCall hc name ha) fun ⟨f, x⟩ ⟨g, y⟩ ⟨hf, hi⟩ => ?_
  cases hi with
  | partially hleft =>
    simp only [Fault.partialNotDistributed, FunctionOf.Recut.identifier_eq hf]
    exact .fail _
  | fully hinner => exact .pure ⟨hf, hinner⟩

theorem bodyRows (mode : Mode) {f g : FunctionItem} (hf : f.Recut g) :
    Engine.Agree (Collection.RecutBy Item.Recut) (ev.bodyRows mode f c) (ev.bodyRows mode g d) := by
  unfold PlanEvaluator.bodyRows
  rw [hf.alike.body.1]
  split
  · exact .bind (h.planFrame hf.alike.body.2 hc) fun _ _ hframe => .pure hframe.toRows
  · exact h.rows hf.alike.body.2 hc

theorem callRows (name : String) {arguments : List (Option Plan)}
    (ha : ∀ p, some p ∈ arguments → p.IsPlain) (mode : Mode) :
    Engine.Agree (Collection.RecutBy Item.Recut) (ev.callRows name arguments mode c)
      (ev.callRows name arguments mode d) :=
  .bind (h.fullCall hc name ha) fun (f, _) (g, _) ⟨hf, hinner⟩ =>
    .bind (h.bodyRows hinner mode hf) fun _ _ hrows => by
      rw [hf.alike.signature_eq]
      exact promoteRows_recut _ hrows

theorem callFrame (name : String) {arguments : List (Option Plan)}
    (ha : ∀ p, some p ∈ arguments → p.IsPlain) :
    Engine.Agree Frame.Recut (ev.callFrame name arguments c) (ev.callFrame name arguments d) :=
  .bind (h.fullCall hc name ha) fun (f, _) (g, _) ⟨hf, hinner⟩ => by
    have hbody : f.body = g.body := hf.alike.body.1
    simp only [hbody]
    exact h.planFrame hf.alike.body.2 hinner

end Recuts
end PlanEvaluator
end HybridQuery
