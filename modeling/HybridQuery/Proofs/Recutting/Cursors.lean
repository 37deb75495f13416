import HybridQuery.Proofs.Recutting.Builtins

/-!
# Cursors over values that are cut differently

Cursors of plain plans are recut if they are under way alike and what they hold is recut. They keep no
distributed forms: the contexts that an evaluation makes are used once.

* `Cursor.RecutBy`, `Node.Recut`, `ClauseNode.Recut`: recut cursors, and what they drive.
* `Plan.IsPlain.cursor`: the cursor of a plain plan; `Node.Recut.closed` closes recut nodes.
* `Rules.Recuts`: rules that drive recut nodes alike. The protocol over such rules goes alike.
-/

namespace HybridQuery

/-! ## Recut cursors -/

/-- Cursors that are open alike, over related nodes and with related results. -/
inductive Cursor.RecutBy {ν α : Type} (N : ν → ν → Prop) (R : α → α → Prop) :
    Cursor ν α → Cursor ν α → Prop
  | mk (mode : Mode) (position : SourcePosition) (isOpen : Bool) {pending pending' : Option α}
      {pulled pulled' : Option (List α)} {n n' : ν} (hpending : Option.Rel R pending pending')
      (hpulled : Option.Rel (List.Forall₂ R) pulled pulled') (hnode : N n n') :
      Cursor.RecutBy N R ⟨mode, position, ⟨isOpen, pending⟩, pulled, none, n⟩
        ⟨mode, position, ⟨isOpen, pending'⟩, pulled', none, n'⟩

/-- Navigations that are as far under way. -/
inductive Walk.Recut : Walk → Walk → Prop
  | mk {c d : Context} (hc : c.Recut d) (operand : StepOperand) {buffer buffer' : List Item}
      (hbuffer : Sequence.Recut buffer buffer') (place : Nat) :
      Walk.Recut ⟨c, operand, buffer, place⟩ ⟨d, operand, buffer', place⟩

/-- `for` clauses that are as far under way. -/
inductive Binding.Recut : Binding → Binding → Prop
  | mk {c d : Context} (hc : c.Recut d) {current current' : Option Tuple}
      (hcurrent : Option.Rel Tuple.Recut current current') (index : Nat) :
      Binding.Recut ⟨c, current, index⟩ ⟨d, current', index⟩

mutual
/-- Nodes of one plain plan that are as far under way. -/
inductive Node.Recut : Node → Node → Prop
  | computed {computation : Computation} (hp : computation.IsPlain) {buffer buffer' : List Item}
      (hbuffer : Sequence.Recut buffer buffer') :
      Node.Recut (.computed computation buffer) (.computed computation buffer')
  | varRef (name : String) (position : SourcePosition) {items items' : List Item}
      (hitems : Sequence.Recut items items') :
      Node.Recut (.varRef name position items) (.varRef name position items')
  | sequence {before before' after after' : List ItemCursor} {context context' : Option Context}
      (hbefore : List.Forall₂ (Cursor.RecutBy Node.Recut Item.Recut) before before')
      (hafter : List.Forall₂ (Cursor.RecutBy Node.Recut Item.Recut) after after')
      (hcontext : Option.Rel Context.Recut context context') :
      Node.Recut (.sequence before after context) (.sequence before' after' context')
  | range {first last : Plan} (hfirst : first.IsPlain) (hlast : last.IsPlain) (next : Option Int64)
      (greatest : Int64) : Node.Recut (.range first last next greatest) (.range first last next greatest)
  | conditional {condition : Plan} (hcondition : condition.IsPlain) (chosen : Option Bool)
      {yes yes' no no' : ItemCursor} (hyes : Cursor.RecutBy Node.Recut Item.Recut yes yes')
      (hno : Cursor.RecutBy Node.Recut Item.Recut no no') :
      Node.Recut (.conditional condition chosen yes no) (.conditional condition chosen yes' no')
  | navigate {step : NavigationStep} (hstep : step.IsPlain) {walk walk' : Option Walk}
      (hwalk : Option.Rel Walk.Recut walk walk') {input input' : ItemCursor}
      (hinput : Cursor.RecutBy Node.Recut Item.Recut input input') :
      Node.Recut (.navigate step walk input) (.navigate step walk' input')
  | staticCall (name : String) {arguments : List (Option Plan)}
      (harguments : ∀ p, some p ∈ arguments → p.IsPlain) {call call' : Call}
      (hcall : Call.Recut call call') :
      Node.Recut (.staticCall name arguments call) (.staticCall name arguments call')
  | dynamicCall {function : Plan} (hfunction : function.IsPlain) {arguments : List (Option Plan)}
      (harguments : ∀ p, some p ∈ arguments → p.IsPlain) (position : SourcePosition) {call call' : Call}
      (hcall : Call.Recut call call') :
      Node.Recut (.dynamicCall function arguments position call)
        (.dynamicCall function arguments position call')
  | flwor {result : Plan} (hresult : result.IsPlain) {context context' : Option Context}
      (hcontext : Option.Rel Context.Recut context context') {feed feed' : Feed}
      (hfeed : Feed.Recut feed feed') {current current' : Option ItemCursor}
      (hcurrent : Option.Rel (Cursor.RecutBy Node.Recut Item.Recut) current current') :
      Node.Recut (.flwor result context feed current) (.flwor result context' feed' current')

/-- Calls that are as far under way. -/
inductive Call.Recut : Call → Call → Prop
  | idle : Call.Recut .idle .idle
  | partially {result result' : Option Item} (h : Option.Rel Item.Recut result result') :
      Call.Recut (.partially result) (.partially result')
  | running {body body' : ItemCursor} (hbody : Cursor.RecutBy Node.Recut Item.Recut body body')
      (returnType : SequenceType) (produced : Nat) :
      Call.Recut (.running body returnType produced) (.running body' returnType produced)

/-- Feeds that are as far under way. -/
inductive Feed.Recut : Feed → Feed → Prop
  | start (pending : Bool) : Feed.Recut (.start pending) (.start pending)
  | clause {tuples tuples' : TupleCursor}
      (htuples : Cursor.RecutBy ClauseNode.Recut Tuple.Recut tuples tuples') :
      Feed.Recut (.clause tuples) (.clause tuples')

/-- Clauses that are as far under way. -/
inductive ClauseNode.Recut : ClauseNode → ClauseNode → Prop
  | forEach (name : String) (place : Option String) (allowingEmpty : Bool)
      {binding binding' : Option Binding} (hbinding : Option.Rel Binding.Recut binding binding')
      {source source' : ItemCursor} (hsource : Cursor.RecutBy Node.Recut Item.Recut source source')
      {feed feed' : Feed} (hfeed : Feed.Recut feed feed') :
      ClauseNode.Recut (.forEach name place allowingEmpty binding source feed)
        (.forEach name place allowingEmpty binding' source' feed')
  | letBe (name : String) {value : Plan} (hvalue : value.IsPlain) {context context' : Option Context}
      (hcontext : Option.Rel Context.Recut context context') {feed feed' : Feed}
      (hfeed : Feed.Recut feed feed') :
      ClauseNode.Recut (.letBe name value context feed) (.letBe name value context' feed')
  | keepWhere {condition : Plan} (hcondition : condition.IsPlain) {context context' : Option Context}
      (hcontext : Option.Rel Context.Recut context context') {feed feed' : Feed}
      (hfeed : Feed.Recut feed feed') :
      ClauseNode.Recut (.keepWhere condition context feed) (.keepWhere condition context' feed')
  | count (name : String) (counter : Nat) {feed feed' : Feed} (hfeed : Feed.Recut feed feed') :
      ClauseNode.Recut (.count name counter feed) (.count name counter feed')
end

/-- Recut cursors over items. -/
abbrev ItemCursor.Recut : ItemCursor → ItemCursor → Prop := Cursor.RecutBy Node.Recut Item.Recut

/-- Recut cursors over tuples. -/
abbrev TupleCursor.Recut : TupleCursor → TupleCursor → Prop :=
  Cursor.RecutBy ClauseNode.Recut Tuple.Recut

theorem Cursor.RecutBy.idle {ν α : Type} {N : ν → ν → Prop} {R : α → α → Prop} (mode : Mode)
    (position : SourcePosition) {n n' : ν} (h : N n n') :
    Cursor.RecutBy N R (.idle mode position n) (.idle mode position n') :=
  .mk mode position false .none .none h

/-! ## Cursors of plans -/

mutual
theorem Plan.IsPlain.cursor : ∀ {p : Plan}, p.IsPlain → ItemCursor.Recut p.cursor p.cursor
  | .mk mode position operation, h => by
    cases h with
    | mk h =>
      rw [Plan.cursor]
      exact .idle mode position (Operation.IsPlain.node position h)
termination_by p => sizeOf p

theorem Operation.IsPlain.node (position : SourcePosition) : ∀ {operation : Operation},
    operation.IsPlain → Node.Recut (operation.node position) (operation.node position)
  | .compute computation, h => by
    cases h with
    | compute h => exact .computed h .nil
  | .sequence members, h => by
    cases h with
    | sequence h => exact .sequence .nil (recut_memberCursors members h) .none
  | .varRef name, _ => .varRef name position .nil
  | .range first last, h => by
    cases h with
    | range hfirst hlast => exact .range hfirst hlast none 0
  | .conditional condition yes no, h => by
    cases h with
    | conditional hcondition hyes hno => exact .conditional hcondition none hyes.cursor hno.cursor
  | .navigate step input, h => by
    cases h with
    | navigate hstep hinput => exact .navigate hstep .none hinput.cursor
  | .staticCall name arguments, h => by
    cases h with
    | staticCall name h => exact .staticCall name h .idle
  | .dynamicCall function arguments, h => by
    cases h with
    | dynamicCall hfunction h => exact .dynamicCall hfunction h position .idle
  | .flwor pipeline result, h => by
    cases h with
    | flwor hpipeline hresult => exact .flwor hresult .none hpipeline.feed .none
termination_by operation => sizeOf operation

theorem recut_memberCursors : ∀ members : List Plan, (∀ p ∈ members, p.IsPlain) →
    List.Forall₂ ItemCursor.Recut (memberCursors members) (memberCursors members)
  | [], _ => .nil
  | p :: rest, h => .cons (Plan.IsPlain.cursor (h p List.mem_cons_self))
      (recut_memberCursors rest fun p hp => h p (List.mem_cons_of_mem _ hp))
termination_by members => sizeOf members

theorem Pipeline.IsPlain.feed : ∀ {pipeline : Pipeline}, pipeline.IsPlain →
    Feed.Recut pipeline.feed pipeline.feed
  | .start, _ => .start false
  | .clause mode position operation feed, h => by
    cases h with
    | clause hoperation hfeed =>
      exact .clause (.idle mode position (ClauseOperation.IsPlain.node position hoperation hfeed.feed))
termination_by pipeline => sizeOf pipeline

theorem ClauseOperation.IsPlain.node (position : SourcePosition) :
    ∀ {operation : ClauseOperation}, operation.IsPlain → ∀ {feed : Feed}, Feed.Recut feed feed →
      ClauseNode.Recut (operation.node position feed) (operation.node position feed)
  | .forEach name place allowingEmpty source, h, _, hfeed => by
    cases h with
    | forEach _ _ _ h => exact .forEach name place allowingEmpty .none h.cursor hfeed
  | .letBe name value, h, _, hfeed => by
    cases h with
    | letBe _ h => exact .letBe name h .none hfeed
  | .keepWhere condition, h, _, hfeed => by
    cases h with
    | keepWhere h => exact .keepWhere h .none hfeed
  | .count name, _, _, hfeed => .count name 0 hfeed
termination_by operation => sizeOf operation
end

/-! ## Closing -/

mutual
theorem ItemCursor.Recut.closed : ∀ {c d : ItemCursor}, ItemCursor.Recut c d →
    ItemCursor.Recut (closedItems c) (closedItems d)
  | ⟨mode, position, _, _, _, n⟩, d, h => by
    cases h with
    | mk _ _ _ _ _ hnode => exact .idle mode position hnode.closed
termination_by c => sizeOf c

theorem Node.Recut.closed : ∀ {n n' : Node}, n.Recut n' → n.closed.Recut n'.closed
  | .computed _ _, _, h => by
    cases h with
    | computed hp _ => exact .computed hp .nil
  | .varRef name position _, _, h => by
    cases h with
    | varRef _ _ _ => exact .varRef name position .nil
  | .sequence before after _, _, h => by
    cases h with
    | sequence hbefore hafter _ =>
      exact .sequence .nil
        (List.rel_append (recut_closedMembers hbefore) (recut_closedMembers hafter)) .none
  | .range _ _ _ greatest, _, h => by
    cases h with
    | range hfirst hlast _ _ => exact .range hfirst hlast none greatest
  | .conditional _ _ yes no, _, h => by
    cases h with
    | conditional hcondition _ hyes hno =>
      exact .conditional hcondition none (ItemCursor.Recut.closed hyes) (ItemCursor.Recut.closed hno)
  | .navigate _ _ input, _, h => by
    cases h with
    | navigate hstep _ hinput => exact .navigate hstep .none (ItemCursor.Recut.closed hinput)
  | .staticCall name _ _, _, h => by
    cases h with
    | staticCall _ h _ => exact .staticCall name h .idle
  | .dynamicCall _ _ position _, _, h => by
    cases h with
    | dynamicCall hfunction h _ _ => exact .dynamicCall hfunction h position .idle
  | .flwor _ _ feed _, _, h => by
    cases h with
    | flwor hresult _ hfeed _ => exact .flwor hresult .none hfeed.closed .none
termination_by n => sizeOf n

theorem recut_closedMembers : ∀ {cs ds : List ItemCursor}, List.Forall₂ ItemCursor.Recut cs ds →
    List.Forall₂ ItemCursor.Recut (closedMembers cs) (closedMembers ds)
  | [], [], _ => .nil
  | c :: rest, _ :: _, .cons h hr => .cons (ItemCursor.Recut.closed h) (recut_closedMembers hr)
termination_by cs => sizeOf cs

theorem Feed.Recut.closed : ∀ {u u' : Feed}, u.Recut u' → u.closed.Recut u'.closed
  | .start _, _, h => by
    cases h with
    | start _ => exact .start false
  | .clause tuples, _, h => by
    cases h with
    | clause h => exact .clause (TupleCursor.Recut.closed h)
termination_by u => sizeOf u

theorem TupleCursor.Recut.closed : ∀ {c d : TupleCursor}, TupleCursor.Recut c d →
    TupleCursor.Recut (closedTuples c) (closedTuples d)
  | ⟨mode, position, _, _, _, n⟩, d, h => by
    cases h with
    | mk _ _ _ _ _ hnode => exact .idle mode position hnode.closed
termination_by c => sizeOf c

theorem ClauseNode.Recut.closed : ∀ {n n' : ClauseNode}, n.Recut n' → n.closed.Recut n'.closed
  | .forEach name place allowingEmpty _ source feed, _, h => by
    cases h with
    | forEach _ _ _ _ hsource hfeed =>
      exact .forEach name place allowingEmpty .none (ItemCursor.Recut.closed hsource) hfeed.closed
  | .letBe name _ _ feed, _, h => by
    cases h with
    | letBe _ h _ hfeed => exact .letBe name h .none hfeed.closed
  | .keepWhere _ _ feed, _, h => by
    cases h with
    | keepWhere h _ hfeed => exact .keepWhere h .none hfeed.closed
  | .count name _ feed, _, h => by
    cases h with
    | count _ _ hfeed => exact .count name 0 hfeed.closed
termination_by n => sizeOf n
end

/-! ## The protocol -/

/-- Related nodes have one name, and are closed to related nodes. -/
structure CursorNode.Relates {ν : Type} [CursorNode ν] (N : ν → ν → Prop) : Prop where
  name {n n' : ν} (h : N n n') : CursorNode.name n = CursorNode.name n'
  closed {n n' : ν} (h : N n n') : N (CursorNode.closed n) (CursorNode.closed n')

namespace Cursor.RecutBy

variable {ν α β : Type} {N : ν → ν → Prop} {R : α → α → Prop} {Q : β → β → Prop} {c d : Cursor ν α}

theorem mode_eq (h : RecutBy N R c d) : c.mode = d.mode := by
  cases h
  rfl

theorem position_eq (h : RecutBy N R c d) : c.position = d.position := by
  cases h
  rfl

theorem isOpen_eq (h : RecutBy N R c d) : c.isOpen = d.isOpen := by
  cases h
  rfl

theorem hasNext_eq (h : RecutBy N R c d) : c.hasNext = d.hasNext := by
  cases h with
  | mk mode position isOpen hpending hpulled hnode => cases hpending <;> rfl

theorem node (h : RecutBy N R c d) : N c.node d.node := by
  cases h with
  | mk mode position isOpen hpending hpulled hnode => exact hnode

theorem drive {x y : Step ν β} (hx : Step.Agree N Q x y) :
    Step.Agree (RecutBy N R) Q (drive x) (drive y) :=
  .bind .read fun c d h => by
    cases h with
    | mk mode position isOpen hpending hpulled hnode =>
      exact .whole hx hnode fun _ _ hnode => .mk mode position isOpen hpending hpulled hnode

variable [CursorNode ν] (hN : CursorNode.Relates N)
include hN

theorem name_eq (h : RecutBy N R c d) : c.name = d.name := hN.name h.node

theorem closed (h : RecutBy N R c d) : RecutBy N R c.closed d.closed := by
  cases h with
  | mk mode position isOpen hpending hpulled hnode => exact .idle mode position (hN.closed hnode)

theorem release : Step.Agree (RecutBy N R) (· = ·) release release :=
  .bind .read fun _ _ h => .bind (.write (h.closed hN)) fun _ _ _ => .lift (.count _ _)

end Cursor.RecutBy

/-- Rules that drive related nodes in recut contexts to related results. -/
structure Rules.Recuts {ν α : Type} [CursorNode ν] (N : ν → ν → Prop) (R : α → α → Prop)
    (r : Rules ν α) : Prop where
  relates : CursorNode.Relates N
  start {c d : Context} (hc : c.Recut d) : Step.Agree N (· = ·) (r.start c) (r.start d)
  pull : Step.Agree N (Option.Rel R) r.pull r.pull
  collect (mode : Mode) {c d : Context} (hc : c.Recut d) :
    Step.Agree N (Collection.RecutBy R) (r.collect mode c) (r.collect mode d)

namespace Rules.Recuts

variable {ν α : Type} [CursorNode ν] {N : ν → ν → Prop} {R : α → α → Prop} {r : Rules ν α}
  (h : r.Recuts N R)
include h

theorem advance : Step.Agree (Cursor.RecutBy N R) (Option.Rel R) r.advance r.advance := by
  refine .bind .read fun c d hcd => ?_
  cases hcd with
  | mk mode position isOpen hpending hpulled hnode =>
    cases hpulled with
    | none => exact .locate (Cursor.RecutBy.drive h.pull) position
    | some hl =>
      cases hl with
      | nil => exact .pure .none
      | cons ha hl =>
        exact .bind (.write (.mk mode position isOpen hpending (.some hl) hnode)) fun _ _ _ =>
          .pure (.some ha)

section
variable {a b : Context} (hab : a.Recut b)
include hab

/-- No distributed form is kept, since the contexts are not recognised. -/
theorem collection : Step.Agree (Cursor.RecutBy N R) (Collection.RecutBy R) (r.collection a)
    (r.collection b) := by
  refine .bind .read fun c d hcd => ?_
  rw [hcd.mode_eq, hcd.position_eq, hcd.name_eq h.relates]
  split
  · exact .locate (.fail _) d.position
  · have hkept (c : Cursor ν α) {a : Context} (ha : a.handle = none) : kept? c a = none := by
      unfold kept?
      rw [ha]
      cases c.memo <;> rfl
    rw [hkept c hab.left, hkept d hab.right, hab.left, hab.right]
    refine .bind (.locate (Cursor.RecutBy.drive (h.collect d.mode hab)) d.position)
      fun rows rows' hrows => .bind .read fun c d hcd => .bind (.write ?_) fun _ _ _ => .pure hrows
    cases hcd with
    | mk mode position isOpen hpending hpulled hnode =>
      exact .mk mode position isOpen hpending hpulled hnode

theorem prepare : Step.Agree (Cursor.RecutBy N R) (· = ·) (r.prepare a) (r.prepare b) := by
  refine .bind .read fun c d hcd => ?_
  rw [hcd.mode_eq, hcd.position_eq, hcd.name_eq h.relates]
  cases d.mode with
  | unset => exact .locate (.fail _) d.position
  | host => exact .locate (Cursor.RecutBy.drive (h.start hab)) d.position
  | rows | columns =>
    refine .bind (h.collection hab) fun _ _ hrows =>
      .bind (.lift (Engine.materialize_recut hrows d.position)) fun _ _ hl =>
        .bind .read fun _ _ hcd => .write ?_
    cases hcd with
    | mk mode position isOpen hpending hpulled hnode =>
      exact .mk mode position isOpen hpending (.some hl) hnode

theorem begin : Step.Agree (Cursor.RecutBy N R) (· = ·) (r.begin a) (r.begin b) :=
  .bind (h.prepare hab) fun _ _ _ => .bind h.advance fun _ _ hfirst => .bind .read fun _ _ hcd => by
    cases hcd with
    | mk mode position isOpen hpending hpulled hnode =>
      exact .write (.mk mode position true hfirst hpulled hnode)

theorem openIn : Step.Agree (Cursor.RecutBy N R) (· = ·) (r.openIn a) (r.openIn b) := by
  refine .bind .read fun c d hcd => ?_
  rw [hcd.isOpen_eq]
  have hopen : Step.Agree (Cursor.RecutBy N R) (· = ·) (do
      Step.lift (Engine.count Metrics.iteratorOpened)
      (r.begin a).onFailure Cursor.release : Step (Cursor ν α) Unit) (do
      Step.lift (Engine.count Metrics.iteratorOpened)
      (r.begin b).onFailure Cursor.release : Step (Cursor ν α) Unit) :=
    .bind (.lift (.count _ _)) fun _ _ _ => .onFailure (h.begin hab) _
  cases d.isOpen with
  | false => exact hopen
  | true => exact .bind (Cursor.RecutBy.release h.relates) fun _ _ _ => hopen

theorem reset : Step.Agree (Cursor.RecutBy N R) (· = ·) (r.reset a) (r.reset b) :=
  .bind (Cursor.RecutBy.release h.relates) fun _ _ _ => h.begin hab

end

theorem next : Step.Agree (Cursor.RecutBy N R) R r.next r.next := by
  refine .bind .read fun c d hcd => ?_
  rw [hcd.position_eq, hcd.name_eq h.relates]
  cases hcd with
  | mk mode position isOpen hpending hpulled hnode =>
    cases isOpen with
    | false => exact .raise _
    | true =>
      cases hpending with
      | none => exact .raise _
      | some ha =>
        refine .bind (.write (.mk mode position true .none hpulled hnode)) fun _ _ _ =>
          .bind h.advance fun _ _ hfollowing => .bind .read fun _ _ hcd => ?_
        cases hcd with
        | mk mode position isOpen hpending hpulled hnode =>
          exact .bind (.write (.mk mode position isOpen hfollowing hpulled hnode)) fun _ _ _ => .pure ha

theorem next? : Step.Agree (Cursor.RecutBy N R) (Option.Rel R) r.next? r.next? := by
  refine .bind .read fun c d hcd => ?_
  rw [hcd.hasNext_eq]
  cases d.hasNext with
  | true => exact .bind h.next fun _ _ ha => .pure (.some ha)
  | false => exact .pure .none

theorem drainOnto (limit : Nat) {taken taken' : List α} (ht : List.Forall₂ R taken taken') :
    Step.Agree (Cursor.RecutBy N R) (List.Forall₂ R) (r.drainOnto limit taken)
      (r.drainOnto limit taken') := by
  induction limit generalizing taken taken' with
  | zero => exact .exhausted
  | succ limit ih =>
    refine .bind .read fun c d hcd => ?_
    rw [hcd.hasNext_eq]
    cases d.hasNext with
    | true => exact .bind (.onFailure h.next _) fun _ _ ha => ih (.cons ha ht)
    | false =>
      exact .bind (Cursor.RecutBy.release h.relates) fun _ _ _ =>
        .pure (List.forall₂_reverse_iff.mpr ht)

theorem drain (limit : Nat) :
    Step.Agree (Cursor.RecutBy N R) (List.Forall₂ R) (r.drain limit) (r.drain limit) :=
  h.drainOnto limit .nil

end Rules.Recuts

theorem Node.relates : CursorNode.Relates Node.Recut where
  name h := by cases h <;> rfl
  closed := Node.Recut.closed

theorem ClauseNode.relates : CursorNode.Relates ClauseNode.Recut where
  name h := by cases h <;> rfl
  closed := ClauseNode.Recut.closed

end HybridQuery
