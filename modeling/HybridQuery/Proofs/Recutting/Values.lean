import HybridQuery.Proofs.Lifting.Bindings
import HybridQuery.Proofs.Lifting.Items
import HybridQuery.Proofs.Meaning.Contracts

/-!
# Values that are cut differently

Partitions say where a distributed value is cut, not what it holds. Two values are recut if they hold the
same items and differ at most in where they are cut, and in where the values are cut that functions among
the items closed over. What is done with whole collections, frames and values does not depend on that.

* `Plan.IsPlain`: a plan that neither groups nor orders tuples.
* `FunctionOf.Recut`, `Item.Recut`: functions with one plain body and recut closures, and items with such
  functions.
* `Value.Recut`, `Tuple.Recut`, `Context.Recut`: the same for what is made of items.
* `Collection.RecutBy.map` and its like, `Agree.collectionMapM`, `Agree.collectionFlatMapM`: transforms of
  collections.
* `Frame.ofObjects_recut`, `Frame.RecutBy.select`, `Frame.RecutBy.toRows`: frames, from the objects they
  are made of to the rows that they read back as.
* `Catalogue.promoteValue_recut`: promotion of values.
* `Tuple.Recut.bind`, `BindingsOf.Recut.bind`, `Context.Recut.child`: recut values are bound in recut
  tuples, scopes and contexts.
* `Context.Recut.lookup`, `Context.Recut.snapshot`: what recut contexts show.
* `Invocation.of_recut`: calls of recut functions with recut arguments.
-/

namespace HybridQuery

/-! ## Plain plans -/

mutual
/-- A plan that neither groups nor orders tuples. -/
inductive Plan.IsPlain : Plan → Prop
  | mk {mode : Mode} {position : SourcePosition} {operation : Operation}
      (h : Operation.IsPlain operation) : Plan.IsPlain (.mk mode position operation)

/-- An operation that neither groups nor orders tuples. -/
inductive Operation.IsPlain : Operation → Prop
  | compute {computation : Computation} (h : Computation.IsPlain computation) :
      Operation.IsPlain (.compute computation)
  | sequence {members : List Plan} (h : ∀ p ∈ members, Plan.IsPlain p) :
      Operation.IsPlain (.sequence members)
  | varRef (name : String) : Operation.IsPlain (.varRef name)
  | range {first last : Plan} (hfirst : Plan.IsPlain first) (hlast : Plan.IsPlain last) :
      Operation.IsPlain (.range first last)
  | conditional {condition yes no : Plan} (hcondition : Plan.IsPlain condition)
      (hyes : Plan.IsPlain yes) (hno : Plan.IsPlain no) :
      Operation.IsPlain (.conditional condition yes no)
  | navigate {step : NavigationStep} {input : Plan} (hstep : NavigationStep.IsPlain step)
      (hinput : Plan.IsPlain input) : Operation.IsPlain (.navigate step input)
  | staticCall (name : String) {arguments : List (Option Plan)}
      (h : ∀ p, some p ∈ arguments → Plan.IsPlain p) : Operation.IsPlain (.staticCall name arguments)
  | dynamicCall {function : Plan} {arguments : List (Option Plan)} (hfunction : Plan.IsPlain function)
      (h : ∀ p, some p ∈ arguments → Plan.IsPlain p) :
      Operation.IsPlain (.dynamicCall function arguments)
  | flwor {pipeline : Pipeline} {result : Plan} (hpipeline : Pipeline.IsPlain pipeline)
      (hresult : Plan.IsPlain result) : Operation.IsPlain (.flwor pipeline result)

/-- A computation that neither groups nor orders tuples. -/
inductive Computation.IsPlain : Computation → Prop
  | literal (value : Json) : Computation.IsPlain (.literal value)
  | contextItem : Computation.IsPlain .contextItem
  | arithmetic (op : ArithmeticOp) {left right : Plan} (hleft : Plan.IsPlain left)
      (hright : Plan.IsPlain right) : Computation.IsPlain (.arithmetic op left right)
  | comparison (op : ComparisonOp) {left right : Plan} (hleft : Plan.IsPlain left)
      (hright : Plan.IsPlain right) : Computation.IsPlain (.comparison op left right)
  | logical (op : LogicalOp) {left right : Plan} (hleft : Plan.IsPlain left)
      (hright : Plan.IsPlain right) : Computation.IsPlain (.logical op left right)
  | not {operand : Plan} (h : Plan.IsPlain operand) : Computation.IsPlain (.not operand)
  | object {pairs : List (Plan × Plan)} (hkeys : ∀ p ∈ pairs, Plan.IsPlain p.1)
      (hvalues : ∀ p ∈ pairs, Plan.IsPlain p.2) : Computation.IsPlain (.object pairs)
  | array {members : Option Plan} (h : ∀ p, members = some p → Plan.IsPlain p) :
      Computation.IsPlain (.array members)
  | builtin (function : Builtin) {arguments : List Plan} (h : ∀ p ∈ arguments, Plan.IsPlain p) :
      Computation.IsPlain (.builtin function arguments)
  | inlineFunction (parameters : List String) (signature : Signature) {body : Plan}
      (h : Plan.IsPlain body) : Computation.IsPlain (.inlineFunction parameters signature body)
  | functionRef (name : String) (arity : Nat) : Computation.IsPlain (.functionRef name arity)

/-- A navigation step that neither groups nor orders tuples. -/
inductive NavigationStep.IsPlain : NavigationStep → Prop
  | objectLookup {key : Plan} (h : Plan.IsPlain key) : NavigationStep.IsPlain (.objectLookup key)
  | arrayLookup {index : Plan} (h : Plan.IsPlain index) : NavigationStep.IsPlain (.arrayLookup index)
  | arrayUnbox : NavigationStep.IsPlain .arrayUnbox
  | filter {predicate : Plan} (h : Plan.IsPlain predicate) : NavigationStep.IsPlain (.filter predicate)

/-- A chain of clauses without `group by` and `order by`. -/
inductive Pipeline.IsPlain : Pipeline → Prop
  | start : Pipeline.IsPlain .start
  | clause {mode : Mode} {position : SourcePosition} {operation : ClauseOperation} {feed : Pipeline}
      (hoperation : ClauseOperation.IsPlain operation) (hfeed : Pipeline.IsPlain feed) :
      Pipeline.IsPlain (.clause mode position operation feed)

/-- A clause other than `group by` and `order by`. -/
inductive ClauseOperation.IsPlain : ClauseOperation → Prop
  | forEach (name : String) (place : Option String) (allowingEmpty : Bool) {source : Plan}
      (h : Plan.IsPlain source) : ClauseOperation.IsPlain (.forEach name place allowingEmpty source)
  | letBe (name : String) {value : Plan} (h : Plan.IsPlain value) :
      ClauseOperation.IsPlain (.letBe name value)
  | keepWhere {condition : Plan} (h : Plan.IsPlain condition) :
      ClauseOperation.IsPlain (.keepWhere condition)
  | count (name : String) : ClauseOperation.IsPlain (.count name)
end

theorem Plan.isPlain_hostVariable (name : String) (position : SourcePosition) :
    (hostVariable name position).IsPlain := .mk (.varRef name)

/-! ## Items and values -/

/-- Frames of the same rows. The cells of objects are those that the objects had when the frame was made
of them. -/
inductive Frame.RecutBy (R : Item → Item → Prop) : Frame Item → Frame Item → Prop
  | objects (columns : List String) {ps qs : List (List Item)}
      (h : List.Forall₂ R ps.flatten qs.flatten) :
      Frame.RecutBy R ⟨columns, ps.map (Chunk.ofObjects columns), .objects⟩
        ⟨columns, qs.map (Chunk.ofObjects columns), .objects⟩
  | values (columns : List String) {cs ds : List (Chunk Item)}
      (h : List.Forall₂ (Option.Rel R) (cs.flatMap Chunk.firstColumn) (ds.flatMap Chunk.firstColumn)) :
      Frame.RecutBy R ⟨columns, cs, .values⟩ ⟨columns, ds, .values⟩

/-- Values in one representation that hold related items. -/
inductive Value.RecutBy (R : Item → Item → Prop) : Value Item → Value Item → Prop
  | items {xs ys : List Item} (h : List.Forall₂ R xs ys) : Value.RecutBy R (.items xs) (.items ys)
  | rows {c d : Collection Item} (h : List.Forall₂ R c.records d.records) :
      Value.RecutBy R (.rows c) (.rows d)
  | columns {f g : Frame Item} (h : Frame.RecutBy R f g) : Value.RecutBy R (.columns f) (.columns g)

/-- Functions that are the same, except that the values they closed over may be recut. -/
inductive FunctionOf.Recut : FunctionItem → FunctionItem → Prop
  | mk (handle : Option Nat) (name : Option String) (parameters : List String) (signature : Signature)
      {body : Plan} {closure closure' : List (String × Value Item)} (hbody : body.IsPlain)
      (hclosure : List.Forall₂ (Keyed (Value.RecutBy (Item.Lift FunctionOf.Recut))) closure closure') :
      FunctionOf.Recut ⟨handle, name, parameters, signature, body, ⟨closure⟩⟩
        ⟨handle, name, parameters, signature, body, ⟨closure'⟩⟩

/-- Items that are the same, except for recut functions. -/
abbrev Item.Recut : Item → Item → Prop := Item.Lift FunctionOf.Recut

/-- Sequences of recut items. -/
abbrev Sequence.Recut : Sequence → Sequence → Prop := Sequence.Lift FunctionOf.Recut

/-- Frames of recut rows. -/
abbrev Frame.Recut : Frame Item → Frame Item → Prop := Frame.RecutBy Item.Recut

/-- Values of recut items. -/
abbrev Value.Recut : Value Item → Value Item → Prop := Value.RecutBy Item.Recut

/-! ## Bindings and calls -/

/-- The same names, bound to recut values. -/
abbrev PairsRecut : List (String × Value Item) → List (String × Value Item) → Prop :=
  List.Forall₂ (Keyed Value.Recut)

/-- Tuples of the same variables with recut values. -/
def Tuple.Recut (t u : Tuple) : Prop := PairsRecut t.pairs u.pairs

/-- Scopes that bind the same names to recut values. -/
def BindingsOf.Recut (b d : Bindings) : Prop := PairsRecut b.pairs d.pairs

/-- Chains of such scopes, made by an evaluation. -/
structure Context.Recut (c d : Context) : Prop where
  left : c.handle = none
  right : d.handle = none
  scopes : List.Forall₂ BindingsOf.Recut c.scopes d.scopes

/-- Calls that come to recut functions, or to recut contexts. -/
inductive Invocation.Recut : Invocation → Invocation → Prop
  | partially {f g : FunctionItem} (h : f.Recut g) : Invocation.Recut (.partially f) (.partially g)
  | fully {c d : Context} (h : c.Recut d) : Invocation.Recut (.fully c) (.fully d)

/-! ## Collections -/

section
variable {ε α β : Type} {R : α → α → Prop} {Q : β → β → Prop}

/-- Collections of related records. -/
def Collection.RecutBy (R : α → α → Prop) (c d : Collection α) : Prop :=
  List.Forall₂ R c.records d.records

namespace Agree

/-- Transforms of the records of a collection by results. -/
theorem collectionMapM {f g : α → Except ε β} {c d : Collection α} (hc : c.RecutBy R d)
    (hf : ∀ a b, R a b → Agree Q (f a) (g b)) :
    Agree (Collection.RecutBy Q) (c.mapM f) (d.mapM g) := by
  refine of_map (f := Collection.records) (g := Collection.records) (Q := List.Forall₂ Q) ?_
  rw [Collection.records_mapM, Collection.records_mapM]
  exact .listMapM hc hf

theorem collectionFlatMapM {f g : α → Except ε (List β)} {c d : Collection α} (hc : c.RecutBy R d)
    (hf : ∀ a b, R a b → Agree (List.Forall₂ Q) (f a) (g b)) :
    Agree (Collection.RecutBy Q) (c.flatMapM f) (d.flatMapM g) := by
  refine of_map (f := Collection.records) (g := Collection.records) (Q := List.Forall₂ Q) ?_
  rw [Collection.records_flatMapM, Collection.records_flatMapM]
  exact (listMapM hc hf).map fun _ _ h => List.rel_flatten h

end Agree

end

namespace Collection.RecutBy

variable {α β : Type} {R : α → α → Prop} {Q : β → β → Prop} {c d c' d' : Collection α}

/-- Items on the host are distributed over any number of partitions. -/
theorem parallelize {xs ys : List α} (h : List.Forall₂ R xs ys) (count count' : Nat) :
    (Collection.parallelize xs count).RecutBy R (Collection.parallelize ys count') := by
  rwa [RecutBy, records_parallelize, records_parallelize]

theorem empty : (Collection.empty : Collection α).RecutBy R .empty := .nil

theorem map (h : c.RecutBy R d) {f g : α → β} (hf : ∀ a b, R a b → Q (f a) (g b)) :
    (c.map f).RecutBy Q (d.map g) := by
  rw [RecutBy, records_map, records_map, List.forall₂_map_left_iff, List.forall₂_map_right_iff]
  exact h.imp hf

theorem union (h : c.RecutBy R d) (h' : c'.RecutBy R d') : (c.union c').RecutBy R (d.union d') := by
  rw [RecutBy, records, records, Collection.union, Collection.union, List.flatten_append,
    List.flatten_append]
  exact List.rel_append h h'

/-- Records stand at the same places among all records. -/
theorem zipWithIndex (h : c.RecutBy R d) :
    c.zipWithIndex.RecutBy (fun p q => R p.1 q.1 ∧ p.2 = q.2) d.zipWithIndex := by
  rw [RecutBy, records_zipWithIndex, records_zipWithIndex]
  change List.Forall₂ R c.records d.records at h
  generalize c.records = xs, d.records = ys, 0 = start at h
  induction h generalizing start with
  | nil => exact .nil
  | cons ha _ ih => exact .cons ⟨ha, rfl⟩ (ih (start + 1))

theorem take (h : c.RecutBy R d) (n : Nat) : List.Forall₂ R (c.take n) (d.take n) :=
  List.forall₂_take n h

theorem count_eq (h : c.RecutBy R d) : c.count = d.count := by
  rw [c.count_eq, d.count_eq]
  exact h.length_eq

end Collection.RecutBy

/-! ## Frames -/

/-- An object as it reads back from the columns of a frame: the columns that it has, in their order. -/
def Item.projected (names : List String) (i : Item) : Item :=
  .object (names.filterMap fun name => (i.member? name).map fun value => (name, value))

theorem Item.Lift.projected {F : FunctionItem → FunctionItem → Prop} {i j : Item} (h : Item.Lift F i j)
    (names : List String) : Item.Lift F (i.projected names) (j.projected names) := by
  refine .object (List.rel_filterMap (R := (· = ·)) ?_ (by rw [List.forall₂_eq_eq_eq]))
  rintro name _ rfl
  have hm := h.member? name
  dsimp only
  generalize i.member? name = o, j.member? name = p at hm ⊢
  cases hm with
  | none => exact .none
  | some h => exact .some (.mk name h)

namespace Frame

/-- The objects of a partition read back under the columns. -/
theorem chunkRows_ofObjects (columns : List String) (chunks : List (Chunk Item)) (p : List Item) :
    chunkRows ⟨columns, chunks, .objects⟩ (.ofObjects columns p) = p.map (Item.projected columns) := by
  refine List.ext_getElem (by simp [chunkRows, Chunk.ofObjects]) fun i hi hi' => ?_
  rw [List.length_map] at hi'
  simp only [chunkRows, Chunk.ofObjects, Chunk.rowObject, List.getElem_map, List.getElem_range,
    ← List.map_prod_left_eq_zip, List.filterMap_map, Item.projected]
  simp [hi']

theorem records_toRows_objects (columns : List String) (ps : List (List Item)) :
    (toRows ⟨columns, ps.map (Chunk.ofObjects columns), .objects⟩).records =
      ps.flatten.map (Item.projected columns) := by
  rw [toRows, Collection.records, List.map_map, List.map_flatten]
  exact congrArg List.flatten (List.map_congr_left fun p _ => chunkRows_ofObjects columns _ p)

theorem records_toRows_values (columns : List String) (cs : List (Chunk Item)) :
    (toRows ⟨columns, cs, .values⟩).records = (cs.flatMap Chunk.firstColumn).filterMap id := by
  rw [toRows, Collection.records, List.filterMap_flatMap, List.flatMap_def]
  rfl

theorem length_chunkRows (f : Frame Item) (chunk : Chunk Item) :
    (f.chunkRows chunk).length = f.chunkCount chunk := by
  rw [chunkRows, chunkCount]
  cases f.kind with
  | objects => simp
  | values => simp [List.length_filterMap_eq_countP, List.countP_eq_length_filter]

/-- A frame reads back as as many rows as it counts. -/
theorem count_eq (f : Frame Item) : f.count = f.toRows.records.length := by
  have hfold (n : Nat) (chunks : List (Chunk Item)) :
      chunks.foldl (fun n chunk => n + f.chunkCount chunk) n =
        n + (chunks.map f.chunkRows).flatten.length := by
    induction chunks generalizing n with
    | nil => rfl
    | cons chunk chunks ih =>
      rw [List.foldl_cons, ih, List.map_cons, List.flatten_cons, List.length_append,
        length_chunkRows, Nat.add_assoc]
  rw [count, hfold, Nat.zero_add]
  rfl

/-- The cells of a key, read from the objects themselves. -/
theorem firstColumn_selectChunk (columns : List String) (chunks : List (Chunk Item)) (key : String)
    (p : List Item) :
    (selectChunk ⟨columns, chunks, .objects⟩ key (.ofObjects columns p)).firstColumn =
      p.map fun i => if key ∈ columns then i.member? key else none := by
  simp only [selectChunk, Chunk.firstColumn, List.head?_cons, Option.getD_some, Chunk.ofObjects]
  cases hidx : columns.idxOf? key with
  | none =>
    rw [List.idxOf?_eq_none_iff] at hidx
    simp [hidx]
  | some index =>
    obtain ⟨hlt, hkey, -⟩ := List.findIdx?_eq_some_iff_getElem.mp hidx
    have hmem : key ∈ columns := by
      rw [← beq_iff_eq.mp hkey]
      exact List.getElem_mem hlt
    simp [hmem, hlt, beq_iff_eq.mp hkey]

/-- The cells of a key in a frame of objects. -/
theorem cells_select_objects (columns : List String) (ps : List (List Item)) (key : String) :
    ((ps.map (Chunk.ofObjects columns)).map
        (selectChunk ⟨columns, ps.map (Chunk.ofObjects columns), .objects⟩ key)).flatMap Chunk.firstColumn =
      ps.flatten.map fun i => if key ∈ columns then i.member? key else none := by
  rw [List.map_map, List.flatMap_map, List.flatMap_def, List.map_flatten]
  exact congrArg List.flatten
    (List.map_congr_left fun p _ => firstColumn_selectChunk columns _ key p)

/-- The cells of a key in a frame of values. -/
theorem cells_select_values (columns : List String) (cs : List (Chunk Item)) (key : String) :
    (cs.map (selectChunk ⟨columns, cs, .values⟩ key)).flatMap Chunk.firstColumn =
      (cs.flatMap Chunk.firstColumn).map fun cell => cell.bind (·.member? key) := by
  rw [List.flatMap_map, List.map_flatMap]
  rfl

section
variable {f g : Frame Item} (h : f.Recut g)
include h

theorem RecutBy.toRows : f.toRows.RecutBy Item.Recut g.toRows := by
  rw [Collection.RecutBy]
  cases h with
  | objects columns h =>
    rw [records_toRows_objects, records_toRows_objects, List.forall₂_map_left_iff,
      List.forall₂_map_right_iff]
    exact h.imp fun _ _ h => h.projected columns
  | @values columns cs ds h =>
    rw [records_toRows_values, records_toRows_values]
    exact Option.Rel.filterMap h

theorem RecutBy.count_eq : f.count = g.count := by
  rw [f.count_eq, g.count_eq]
  exact (RecutBy.toRows h).length_eq

theorem RecutBy.select (key : String) : (f.select key).Recut (g.select key) := by
  cases h with
  | @objects columns ps qs h =>
    refine .values [key] ?_
    rw [cells_select_objects, cells_select_objects, List.forall₂_map_left_iff,
      List.forall₂_map_right_iff]
    refine h.imp fun i j h => ?_
    split
    · exact h.member? key
    · exact .none
  | @values columns cs ds h =>
    refine .values [key] ?_
    rw [cells_select_values, cells_select_values, List.forall₂_map_left_iff,
      List.forall₂_map_right_iff]
    refine h.imp fun o p h => ?_
    cases h with
    | none => exact .none
    | some h => exact h.member? key

end

theorem keysOf_append (s t : Sequence) :
    keysOf (s ++ t) = do return (← keysOf s) ++ (← keysOf t) := by
  simp only [keysOf, List.find?_append, List.flatMap_append]
  cases s.find? (!·.isObject) with
  | some i => rfl
  | none => cases t.find? (!·.isObject) <;> rfl

/-- The keys of all partitions, or the first item in any of them that is no object. -/
theorem flatten_mapM_keysOf (ps : List (List Item)) :
    List.flatten <$> ps.mapM keysOf = keysOf ps.flatten := by
  induction ps with
  | nil => rfl
  | cons p ps ih =>
    rw [List.mapM_cons, List.flatten_cons, keysOf_append, ← ih]
    cases keysOf p with
    | error e => rfl
    | ok keys => cases ps.mapM keysOf <;> rfl

theorem keysOf_recut {s t : Sequence} (h : s.Recut t) : Agree (· = ·) (keysOf s) (keysOf t) := by
  have hfind := find?_forall₂ (p := (!·.isObject)) (q := (!·.isObject)) h fun _ _ h => by
    rw [h.isObject_eq]
  unfold keysOf
  generalize s.find? _ = o, t.find? _ = p at hfind
  cases hfind with
  | none => exact .ok (Sequence.flatMap_keys_lift h)
  | some h =>
    simp only [Fault.rowNotObject, h.typeName_eq]
    exact .error _

/-- Frames of recut objects. -/
theorem ofObjects_recut {c d : Collection Item} (h : c.RecutBy Item.Recut d) :
    Agree Frame.Recut (ofObjects c) (ofObjects d) := by
  have hkeys : Agree (fun ks ks' => ks.flatten = ks'.flatten) (c.partitions.mapM keysOf)
      (d.partitions.mapM keysOf) := by
    refine .of_map (Q := (· = ·)) ?_
    rw [flatten_mapM_keysOf, flatten_mapM_keysOf]
    exact keysOf_recut h
  refine hkeys.bind fun ks ks' hks => ?_
  rw [hks]
  exact .ok (.objects _ h)

end Frame

/-! ## Promotion of values -/

namespace Catalogue

variable (c : Catalogue)

theorem promoteRows_recut {rows rows' : Collection Item} (h : rows.RecutBy Item.Recut rows')
    (type : ItemType) :
    Agree (Collection.RecutBy Item.Recut) (rows.mapM fun i => c.promote i type)
      (rows'.mapM fun i => c.promote i type) :=
  .collectionMapM h fun _ _ h => promote_lift c h type

theorem promoteValue_recut {v w : Value Item} (h : v.Recut w) (type : SequenceType) :
    Agree Value.Recut (c.promoteValue v type) (c.promoteValue w type) := by
  cases h with
  | items h => exact (promoteSequence_lift c h type).bind fun _ _ h => .ok (.items h)
  | @rows rows rows' h =>
    have h : rows.RecutBy Item.Recut rows' := h
    simp only [promoteValue, h.count_eq]
    exact (Agree.refl (type.checkCount rows'.count)).bind fun _ _ _ =>
      (promoteRows_recut c h type.itemType).bind fun _ _ h => .ok (.rows h)
  | @columns f g h =>
    simp only [promoteValue, h.count_eq]
    exact (Agree.refl (type.checkCount g.count)).bind fun _ _ _ =>
      (promoteRows_recut c h.toRows type.itemType).bind fun _ _ _ => .ok (.columns h)

/-- Arguments are promoted alike if each value is. -/
theorem promoteArguments_agree {R : Value Item → Value Item → Prop}
    (hR : ∀ v w type, R v w → Agree R (c.promoteValue v type) (c.promoteValue w type))
    {vs ws : List (Option (Value Item))} (h : List.Forall₂ (Option.Rel R) vs ws)
    (types : List SequenceType) :
    Agree (List.Forall₂ (Option.Rel R)) (c.promoteArguments vs types) (c.promoteArguments ws types) := by
  induction h generalizing types with
  | nil => cases types <;> exact .ok .nil
  | cons hv _ ih =>
    cases types with
    | nil => exact .ok .nil
    | cons type types =>
      cases hv with
      | none => exact (ih types).bind fun _ _ h => .ok (.cons .none h)
      | some hv =>
        simp only [promoteArguments]
        split
        · exact (ih types).bind fun _ _ h => .ok (.cons (.some hv) h)
        · exact ((hR _ _ type hv).map (Q := Option.Rel R) fun _ _ => .some).bind
            fun _ _ hv => (ih types).bind fun _ _ h => .ok (.cons hv h)

theorem promoteArguments_recut {vs ws : List (Option (Value Item))}
    (h : List.Forall₂ (Option.Rel Value.Recut) vs ws) (types : List SequenceType) :
    Agree (List.Forall₂ (Option.Rel Value.Recut)) (c.promoteArguments vs types)
      (c.promoteArguments ws types) :=
  c.promoteArguments_agree (fun _ _ type hv => promoteValue_recut c hv type) h types

end Catalogue

/-! ## Scopes and tuples -/

theorem BindingsOf.Recut.empty : BindingsOf.Recut .empty .empty := .nil

theorem BindingsOf.Recut.bind {b d : Bindings} (h : b.Recut d) (name : String) {v w : Value Item}
    (hv : v.Recut w) : (b.bind name v).Recut (d.bind name w) := bind_keyed h name hv

namespace Tuple.Recut

variable {t u : Tuple}

theorem empty : Tuple.Recut .empty .empty := .nil

theorem bind (h : t.Recut u) (name : String) {v w : Value Item} (hv : v.Recut w) :
    (t.bind name v).Recut (u.bind name w) := bind_keyed h name hv

theorem bindings (h : t.Recut u) : t.bindings.Recut u.bindings :=
  BindingsOf.foldl_keyed (R := Value.Recut) h BindingsOf.Recut.empty

end Tuple.Recut

/-! ## Contexts -/

namespace Context.Recut

variable {c d : Context}

theorem child (h : c.Recut d) {b b' : Bindings} (hb : b.Recut b') :
    (c.child b).Recut (d.child b') := ⟨rfl, rfl, .cons hb h.scopes⟩

theorem scope (h : c.Recut d) {t u : Tuple} (ht : t.Recut u) : (t.scope c).Recut (u.scope d) :=
  h.child ht.bindings

theorem withBinding (h : c.Recut d) (name : String) {v w : Value Item} (hv : v.Recut w) :
    (c.withBinding name v).Recut (d.withBinding name w) := h.child (BindingsOf.Recut.empty.bind name hv)

theorem detached {b b' : Bindings} (h : b.Recut b') :
    (Context.detached b).Recut (Context.detached b') := ⟨rfl, rfl, .cons h .nil⟩

theorem root : Context.Recut .root .root := .detached .empty

theorem lookup (h : c.Recut d) (name : String) :
    Option.Rel Value.Recut (c.lookup name) (d.lookup name) := by
  rw [Context.lookup, Context.lookup]
  have hscopes := h.scopes
  generalize c.scopes = scopes, d.scopes = scopes' at hscopes
  induction hscopes with
  | nil => exact .none
  | @cons b b' scopes scopes' hb _ ih =>
    have hget : Option.Rel Value.Recut (b.get? name) (b'.get? name) := Keyed.lookup hb name
    simp only [List.findSome?_cons]
    revert hget
    generalize b.get? name = o, b'.get? name = p
    intro hget
    cases hget with
    | none => exact ih
    | some hv => exact .some hv

theorem binding (h : c.Recut d) (name : String) :
    Agree Value.Recut (c.binding name) (d.binding name) := by
  have hl := h.lookup name
  unfold Context.binding
  generalize c.lookup name = o, d.lookup name = p at hl
  cases hl with
  | none => exact .error _
  | some hv => exact .ok hv

theorem snapshot (h : c.Recut d) : c.snapshot.Recut d.snapshot := by
  rw [Context.snapshot, Context.snapshot]
  have hscopes := h.scopes
  generalize c.scopes = scopes, d.scopes = scopes' at hscopes
  induction hscopes with
  | nil => exact .empty
  | cons hb _ ih => exact BindingsOf.foldl_keyed (R := Value.Recut) hb ih

end Context.Recut

/-! ## Functions -/

namespace FunctionOf

variable {f g : FunctionItem} {vs ws : List (Option (Value Item))}

theorem Recut.of_closure {handle : Option Nat} {name : Option String} {parameters : List String}
    {signature : Signature} {body : Plan} {b d : Bindings} (hbody : body.IsPlain) (h : b.Recut d) :
    Recut ⟨handle, name, parameters, signature, body, b⟩ ⟨handle, name, parameters, signature, body, d⟩ :=
  .mk handle name parameters signature hbody h

/-- Recut functions have one body, which is plain. -/
theorem Recut.alike (h : f.Recut g) : Alike (fun p q => p = q ∧ q.IsPlain) Value.Recut f g := by
  cases h with
  | mk handle name parameters signature hbody hclosure =>
    exact ⟨rfl, rfl, rfl, rfl, ⟨rfl, hbody⟩, hclosure⟩

theorem Alike.recut (h : Alike (fun p q => p = q ∧ q.IsPlain) Value.Recut f g) : f.Recut g := by
  obtain ⟨handle, name, parameters, signature, body, closure⟩ := f
  obtain ⟨rfl, rfl, rfl, rfl, ⟨rfl, hbody⟩, hclosure⟩ := h
  exact .of_closure hbody hclosure

theorem Recut.identifier_eq (h : f.Recut g) : f.identifier = g.identifier := h.alike.identifier_eq

theorem prepareArguments_recut (h : f.Recut g) (c : Catalogue)
    (ha : List.Forall₂ (Option.Rel Value.Recut) vs ws) :
    Agree (List.Forall₂ (Option.Rel Value.Recut)) (f.prepareArguments c vs) (g.prepareArguments c ws) := by
  unfold prepareArguments
  rw [ha.length_eq, h.alike.arity_eq, h.alike.signature_eq, h.alike.name_eq]
  split
  · exact .error _
  · exact (Catalogue.promoteArguments_recut c ha _).mapError _

end FunctionOf

theorem Invocation.of_recut {f g : FunctionItem} {vs ws : List (Option (Value Item))} (h : f.Recut g)
    (c : Catalogue) (ha : List.Forall₂ (Option.Rel Value.Recut) vs ws) :
    Agree Invocation.Recut (Invocation.of f c vs) (Invocation.of g c ws) := by
  refine (FunctionOf.prepareArguments_recut h c ha).bind fun vs ws ha => ?_
  rw [Option.Rel.any_isNone_eq ha]
  split
  · exact .ok (.partially (h.alike.partiallyApply ha).recut)
  · exact .ok (.fully (.detached (h.alike.invoked (Option.Rel.filterMap ha))))

end HybridQuery
