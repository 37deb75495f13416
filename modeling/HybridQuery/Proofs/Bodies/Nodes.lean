import HybridQuery.Proofs.Bodies.Clauses

/-!
# Books of nodes

The rules of nodes keep the books if an evaluator for everything below them does. Evaluators of bounded
depth therefore do, by induction on the depth.

* `Evaluator.Accounted.startNode`, `Evaluator.Accounted.pullNode`, `Evaluator.Accounted.collectNode`:
  expressions.
* `Evaluator.Accounted.startClause`, `Evaluator.Accounted.pullClause`,
  `Evaluator.Accounted.collectClause`: clauses.
* `Evaluator.accounted_ofDepth`: evaluators of bounded depth.
-/

namespace HybridQuery

open Engine (Balanced)

variable {clean : Prop} {env : Environment} {lost : Int} {r : RunRecord}

namespace Evaluator.Accounted

variable {ev : Evaluator} (h : ev.Accounted clean)
include h

/-! ## Expressions -/

section
variable {n : Node}

omit h in
theorem bodies_yes {condition : Plan} {chosen : Option Bool} {no : ItemCursor} (yes : ItemCursor) :
    (Node.conditional condition chosen yes no).openBodies = yes.bodies + itemBodies no := by
  rw [Node.openBodies, itemBodies_eq yes]

omit h in
theorem bodies_no {condition : Plan} {chosen : Option Bool} {yes : ItemCursor} (no : ItemCursor) :
    (Node.conditional condition chosen yes no).openBodies = no.bodies + itemBodies yes := by
  rw [Node.openBodies, itemBodies_eq no, Nat.add_comm]

omit h in
theorem bodies_navigate {step : NavigationStep} {walk : Option Walk} (input : ItemCursor) :
    (Node.navigate step walk input).openBodies = input.bodies + 0 := by
  rw [Node.openBodies, itemBodies_eq, Nat.add_zero]

omit h in
theorem bodies_walk {step : NavigationStep} (s : Walk × ItemCursor) :
    (Node.navigate step (some s.1) s.2).openBodies = bodiesOfWalk s + 0 := bodies_navigate s.2

omit h in
theorem bodies_flwor {result : Plan} {inside : Option Context} {current : Option ItemCursor} (feed : Feed) :
    (Node.flwor result inside feed current).openBodies = feed.openBodies + currentBodies current := by
  rw [Node.openBodies, Nat.add_comm]

/-- A call that is started over a node which holds no body. -/
theorem startedCall {whole : Call → Node} (hheld : ∀ call, (whole call).openBodies = call.openBodies)
    (htidy : ∀ call, (whole call).Tidy ↔ call.Tidy) (hn : clean → n.openBodies = 0)
    (hb : Books clean lost r.owed n.openBodies) (call : FunctionItem × Invocation) :
    Accounts clean env (do
      let call ← Step.lift (ev.startCall call)
      Step.write (whole call)) n r lost Node.openBodies fun _ n' => clean → n'.Tidy := by
  refine .lift_bind hb (h.startCall call) fun call r hcall hb => .write (hb.drop ?_ fun hc => ?_) fun hc => ?_
  · rw [hheld]
    omega
  · rw [hheld, hn hc, Nat.zero_add]
  · exact (htidy call).mpr (hcall hc)

theorem startNode (context : Context) (ht : clean → n.Tidy ∧ n.openBodies = 0)
    (hb : Books clean lost r.owed n.openBodies) :
    Accounts clean env (ev.startNode context) n r lost Node.openBodies fun _ n' => clean → n'.Tidy := by
  refine .read_bind ?_
  cases n with
  | computed computation buffer =>
    exact .balanced_bind hb (h.plans.compute Balanced.inherited computation) fun _ _ hb =>
      .write hb fun _ => trivial
  | varRef name position items =>
    exact .ofResult_bind hb fun value => .balanced_bind hb (Balanced.inherited.items value position)
      fun _ _ hb => .write hb fun _ => trivial
  | sequence before after inside =>
    have hheld : (Node.sequence before after inside).openBodies = memberBodies (before ++ after) := by
      rw [Node.openBodies, memberBodies_append]
    have hmembers (hc : clean) : tidyMembers (before ++ after) := tidyMembers_append.mpr (ht hc).1
    dsimp only
    split
    · next hmembers => exact .write (hb.congr (by rw [hheld, hmembers]; rfl)) fun _ => ⟨trivial, trivial⟩
    · next first rest hsplit =>
      rw [hsplit] at hheld hmembers
      have hwhole := bodies_sequence [] rest (some context)
      refine .bind (.part hwhole ?_ hb fun hb =>
        (h.items.openIn context (fun hc => tidyItems_iff.mp (hmembers hc).1) hb).mono
          fun _ first ⟨hfirst, _⟩ r hb => .pure hb fun hc =>
            tidy_sequence.mpr ⟨trivial, hfirst hc, (hmembers hc).2⟩)
      rw [hheld, ← hwhole, Node.openBodies, memberBodies, Nat.zero_add]
  | range first last next greatest =>
    refine .balanced_bind hb (h.plans.rangeBound Balanced.inherited first) fun low r hb => ?_
    refine .balanced_bind hb (h.plans.rangeBound Balanced.inherited last) fun high r hb => ?_
    split <;> exact .write hb fun _ => trivial
  | conditional condition chosen yes no =>
    refine .balanced_bind hb (h.plans.truth Balanced.inherited condition) fun chosen r hb => ?_
    split
    · exact .bind (.part bodies_yes (bodies_yes yes) hb fun hb =>
        (h.items.openIn context (fun hc => tidyItems_iff.mp (ht hc).1.1) hb).mono
          fun _ _ ⟨hyes, _⟩ _ hb => .pure hb fun hc => ⟨tidyItems_iff.mpr (hyes hc), (ht hc).1.2⟩)
    · exact .bind (.part bodies_no (bodies_no no) hb fun hb =>
        (h.items.openIn context (fun hc => tidyItems_iff.mp (ht hc).1.2) hb).mono
          fun _ _ ⟨hno, _⟩ _ hb => .pure hb fun hc => ⟨(ht hc).1.1, tidyItems_iff.mpr (hno hc)⟩)
  | navigate step walk input =>
    exact .bind (.part bodies_navigate (bodies_navigate input) hb fun hb =>
      (h.startWalk step context (fun hc => tidyItems_iff.mp (ht hc).1) hb).mono fun _ _ hinput _ hb =>
        .write hb fun hc => tidyItems_iff.mpr (hinput hc))
  | staticCall name arguments call =>
    exact .balanced_bind hb (h.plans.namedCall Balanced.inherited name arguments) fun call _ hb =>
      h.startedCall (fun _ => rfl) (fun _ => Iff.rfl) (fun hc => (ht hc).2) hb call
  | dynamicCall function arguments position call =>
    exact .balanced_bind hb (h.plans.computedCall Balanced.inherited function arguments position)
      fun call _ hb => h.startedCall (fun _ => rfl) (fun _ => Iff.rfl) (fun hc => (ht hc).2) hb call
  | flwor result inside feed current =>
    refine .bind (.part bodies_flwor (bodies_flwor feed) hb fun hb =>
      (h.openFeed (fun hc => (ht hc).1.1) hb context).mono fun _ feed hfeed r hb => ?_)
    refine .write (hb.drop ?_ fun hc => ?_) fun hc => ⟨hfeed hc, trivial⟩
    · rw [bodies_flwor, bodies_flwor]
      exact Nat.add_le_add_left (Nat.zero_le _) _
    · have hnone : currentBodies current = 0 := by
        have := (ht hc).2
        rw [bodies_flwor] at this
        omega
      rw [bodies_flwor, bodies_flwor, hnone]
      rfl

theorem pullNode (ht : clean → n.Tidy) (hb : Books clean lost r.owed n.openBodies) :
    Accounts clean env ev.pullNode n r lost Node.openBodies fun _ n' => clean → n'.Tidy := by
  refine .read_bind ?_
  split
  · exact .pure hb ht
  · exact .write_pure hb fun _ => trivial
  · exact .pure hb ht
  · exact .write_pure hb fun _ => trivial
  · exact h.sequenceNext _ ht hb
  · exact .pure hb ht
  · split <;> exact .write_pure hb fun _ => trivial
  · exact .pure hb ht
  · next condition yes no =>
    exact .whole bodies_yes (bodies_yes yes) hb fun hb =>
      (h.items.next? (fun hc => tidyItems_iff.mp (ht hc).1) hb).mono fun _ _ ⟨hyes, _⟩ hc =>
        ⟨tidyItems_iff.mpr (hyes hc), (ht hc).2⟩
  · next condition yes no =>
    exact .whole bodies_no (bodies_no no) hb fun hb =>
      (h.items.next? (fun hc => tidyItems_iff.mp (ht hc).2) hb).mono fun _ _ ⟨hno, _⟩ hc =>
        ⟨(ht hc).1, tidyItems_iff.mpr (hno hc)⟩
  · exact .pure hb ht
  · exact .whole bodies_walk (bodies_walk (_, _)) hb fun hb =>
      (h.walkOn (s := (_, _)) _ _ (fun hc => tidyItems_iff.mp (ht hc)) hb).mono fun _ _ hinput hc =>
        tidyItems_iff.mpr (hinput hc)
  · exact .pure hb ht
  · exact .whole (k := 0) (fun _ => rfl) rfl hb fun hb => h.callNext ht hb
  · exact .whole (k := 0) (fun _ => rfl) rfl hb fun hb => h.callNext ht hb
  · exact .whole (k := 0) (fun _ => bodies_flwor _) (bodies_flwor _) hb fun hb => h.projectNext _ _ _ ht hb
  · exact .pure hb ht

theorem memberRows (context : Context) (done : Collection Item) {before after : List ItemCursor}
    (ht : clean → n.Tidy ∧ tidyMembers (before ++ after))
    (hn : n.openBodies = memberBodies (before ++ after)) (hb : Books clean lost r.owed n.openBodies) :
    Accounts clean env (ev.memberRows context done before after) n r lost Node.openBodies fun _ n' =>
      clean → n'.Tidy ∧ n'.openBodies = n.openBodies := by
  induction after generalizing done before n r with
  | nil => exact .pure hb fun hc => ⟨(ht hc).1, rfl⟩
  | cons member rest ih =>
    have hmembers (member : ItemCursor) : memberBodies (before ++ member :: rest) =
        member.bodies + (memberBodies before + memberBodies rest) := by
      rw [memberBodies_append, memberBodies, itemBodies_eq]
      omega
    have hheld (member : ItemCursor) : (Node.sequence [] (before ++ member :: rest) none).openBodies =
        member.bodies + (memberBodies before + memberBodies rest) := by
      rw [Node.openBodies, hmembers, memberBodies, Nat.zero_add]
    have htidy (hc : clean) := tidyMembers_append.mp (ht hc).2
    refine .bind (.part hheld (hn.trans (hmembers member)) hb fun hb =>
      (h.items.collection_tidy context (fun hc => tidyItems_iff.mp (htidy hc).2.1) hb).mono
        fun rows member' hq r hb => ?_)
    have hthrough : before ++ member' :: rest = (before ++ [member']) ++ rest := by
      rw [List.append_assoc, List.singleton_append]
    have ht' (hc : clean) : tidyMembers (before ++ member' :: rest) :=
      tidyMembers_append.mpr ⟨(htidy hc).1, tidyItems_iff.mpr (hq hc).1, (htidy hc).2.2⟩
    refine (ih (n := .sequence [] _ none) _ (fun hc => ⟨⟨trivial, ht' hc⟩, hthrough ▸ ht' hc⟩) ?_ hb).mono
      fun _ n' hq' hc => ?_
    · rw [hheld, ← hmembers, hthrough]
    · rw [hn, hmembers member, ← (hq hc).2, ← hheld]
      exact hq' hc

theorem collectNode (mode : Mode) (context : Context) (ht : clean → n.Tidy)
    (hb : Books clean lost r.owed n.openBodies) :
    Accounts clean env (ev.collectNode mode context) n r lost Node.openBodies fun _ n' =>
      clean → n'.Tidy ∧ n'.openBodies = n.openBodies := by
  refine .read_bind ?_
  split
  · exact .lift hb (h.plans.sourceRows Balanced.inherited _ _) fun _ hc => ⟨ht hc, rfl⟩
  · exact .ofResult_bind hb fun value => .lift hb (Balanced.inherited.rows value) fun _ hc => ⟨ht hc, rfl⟩
  · next before after inside =>
    have hmembers (hc : clean) : tidyMembers (before ++ after) := tidyMembers_append.mpr (ht hc)
    exact h.memberRows context .empty (fun hc => ⟨ht hc, hmembers hc⟩)
      (memberBodies_append before after).symm hb
  · next step walk input =>
    refine .whole bodies_navigate (bodies_navigate input) hb fun hb =>
      (h.navigateRows step mode context (fun hc => tidyItems_iff.mp (ht hc)) hb).mono
        fun _ input' hq hc => ⟨tidyItems_iff.mpr (hq hc).1, ?_⟩
    rw [bodies_navigate, bodies_navigate, (hq hc).2]
  · exact .lift hb (h.plans.callRows Balanced.inherited _ _ _) fun _ hc => ⟨ht hc, rfl⟩
  · next result inside feed current =>
    refine .whole bodies_flwor (bodies_flwor feed) hb fun hb =>
      (h.feedRows_bind (fun hc => (ht hc).1) hb context fun tuples =>
        h.plans.projectedRows Balanced.inherited result tuples).mono
          fun _ feed' hq hc => ⟨⟨(hq hc).1, (ht hc).2⟩, ?_⟩
    rw [bodies_flwor, bodies_flwor, (hq hc).2]
  · exact .raise hb

end

theorem frameNode (node : Node) (context : Context) : (ev.frameNode node context).Balanced clean := by
  unfold Evaluator.frameNode
  split
  · exact h.plans.sourceFrame Balanced.inherited _ _
  · refine Balanced.inherited.bind (Balanced.inherited.ofResult _) fun value => ?_
    split
    · exact .pure _
    · exact Balanced.inherited.fail _
  · exact h.plans.stepFrame Balanced.inherited _ (h.frameOf _ context)
  · exact h.plans.callFrame Balanced.inherited _ _
  · exact Balanced.inherited.fail _

/-! ## Clauses -/

section
variable {n : ClauseNode}

omit h in
theorem bodies_source {name : String} {place : Option String} {allowingEmpty : Bool}
    {binding : Option Binding} {source : ItemCursor} (feed : Feed) :
    (ClauseNode.forEach name place allowingEmpty binding source feed).openBodies =
      feed.openBodies + source.bodies := by
  rw [ClauseNode.openBodies, itemBodies_eq, Nat.add_comm]

omit h in
theorem bodies_for {name : String} {place : Option String} {allowingEmpty : Bool} (s : ForState) :
    (ClauseNode.forEach name place allowingEmpty (some s.1) s.2.1 s.2.2).openBodies = bodiesOfFor s + 0 := by
  rw [ClauseNode.openBodies, itemBodies_eq, bodiesOfFor, Nat.add_zero]

theorem startClause (context : Context) (ht : clean → n.Tidy) (hb : Books clean lost r.owed n.openBodies) :
    Accounts clean env (ev.startClause context) n r lost ClauseNode.openBodies fun _ n' =>
      clean → n'.Tidy := by
  refine .read_bind ?_
  cases n with
  | forEach name place allowingEmpty binding source feed =>
    exact .bind (.part bodies_source (bodies_source feed) hb fun hb =>
      (h.openFeed (fun hc => (ht hc).2) hb context).mono fun _ _ hfeed _ hb =>
        .write hb fun hc => ⟨(ht hc).1, hfeed hc⟩)
  | letBe | keepWhere =>
    exact .bind (.part (k := 0) (fun _ => rfl) rfl hb fun hb =>
      (h.openFeed ht hb context).mono fun _ _ hfeed _ hb => .write hb hfeed)
  | orderBy keys sorted feed =>
    refine .bind (.part (k := 0) (fun _ => rfl) rfl hb fun hb => .bind
      ((h.gatherAll ht hb (fun tuple => h.plans.keyedTuple Balanced.inherited keys tuple) context).mono
        fun _ _ hfeed _ hb => .ofResult_bind hb fun _ => .pure hb fun r hb => ?_))
    exact .write hb hfeed
  | groupBy keys position groups feed =>
    refine .bind (.part (k := 0) (fun _ => rfl) rfl hb fun hb => .bind
      ((h.gatherAll ht hb (fun tuple => h.plans.groupedTuple Balanced.inherited keys position tuple)
        context).mono fun pairs _ hfeed _ hb =>
          .lift hb (Balanced.inherited.linearized keys position pairs) fun _ r hb => ?_))
    exact .write hb hfeed
  | count name counter feed =>
    exact .bind (.part (k := 0) (fun _ => rfl) rfl hb fun hb =>
      (h.openFeed ht hb context).mono fun _ _ hfeed _ hb => .pure hb hfeed)

theorem pullClause (ht : clean → n.Tidy) (hb : Books clean lost r.owed n.openBodies) :
    Accounts clean env ev.pullClause n r lost ClauseNode.openBodies fun _ n' => clean → n'.Tidy := by
  refine .read_bind ?_
  split
  · exact .whole bodies_for (bodies_for (_, _, _)) hb fun hb =>
      (h.bindNext (s := (_, _, _)) _ _ _ (fun hc => ⟨tidyItems_iff.mp (ht hc).1, (ht hc).2⟩) hb).mono
        fun _ _ hq hc => ⟨tidyItems_iff.mpr (hq hc).1, (hq hc).2⟩
  · exact .pure hb ht
  · exact .whole (k := 0) (fun _ => rfl) rfl hb fun hb => h.letNext ht hb _ _ _
  · exact .pure hb ht
  · exact .whole (k := 0) (fun _ => rfl) rfl hb fun hb => h.keepNext ht hb _ _ _
  · exact .pure hb ht
  · exact .pure hb ht
  · exact .write_pure hb ht
  · exact .pure hb ht
  · exact .write_pure hb ht
  · exact .whole (k := 0) (fun _ => rfl) rfl hb fun hb => h.countNext ht hb _ _

theorem collectClause (context : Context) (ht : clean → n.Tidy)
    (hb : Books clean lost r.owed n.openBodies) :
    Accounts clean env (ev.collectClause context) n r lost ClauseNode.openBodies fun _ n' =>
      clean → n'.Tidy ∧ n'.openBodies = n.openBodies := by
  refine .read_bind ?_
  cases n with
  | forEach name place allowingEmpty binding source feed =>
    refine .whole bodies_source (bodies_source feed) hb fun hb =>
      (h.forRows _ _ source context (fun hc => (ht hc).2) hb).mono
        fun _ feed' hq hc => ⟨⟨(ht hc).1, (hq hc).1⟩, ?_⟩
    rw [bodies_source, bodies_source, (hq hc).2]
  | letBe name value inside feed =>
    exact .whole (k := 0) (fun _ => rfl) rfl hb fun hb =>
      h.feedRows_bind ht hb context fun tuples => h.plans.boundRows Balanced.inherited name value tuples
  | keepWhere condition inside feed =>
    exact .whole (k := 0) (fun _ => rfl) rfl hb fun hb =>
      h.feedRows_bind ht hb context fun tuples => h.plans.keptRows Balanced.inherited condition tuples
  | orderBy keys sorted feed =>
    exact .whole (k := 0) (fun _ => rfl) rfl hb fun hb =>
      h.feedRows_bind ht hb context fun tuples => h.plans.sortedRows Balanced.inherited keys tuples
  | groupBy keys position groups feed =>
    exact .whole (k := 0) (fun _ => rfl) rfl hb fun hb =>
      h.feedRows_bind ht hb context fun tuples => h.plans.shuffled Balanced.inherited keys position tuples
  | count name counter feed =>
    exact .whole (k := 0) (fun _ => rfl) rfl hb fun hb =>
      .bind ((h.feedRows ht hb context).mono fun _ _ hq _ hb => .pure hb hq)

end

/-! ## Evaluators of bounded depth -/

theorem above (limit : Nat) : (Evaluator.above (fun _ => ev) limit).Accounted clean where
  items :=
    { closed := fun n => ⟨n.tidy_closed, n.openBodies_closed⟩
      start := h.startNode
      pull := h.pullNode
      collect := h.collectNode }
  tuples :=
    { closed := fun n => ⟨n.tidy_closed, n.openBodies_closed⟩
      start := fun context ht => h.startClause context fun hc => (ht hc).1
      pull := h.pullClause
      collect := fun _ => h.collectClause }
  frame := h.frameNode

end Evaluator.Accounted

namespace Evaluator

theorem accounted_giveUp : giveUp.Accounted clean where
  items :=
    { closed := fun n => ⟨n.tidy_closed, n.openBodies_closed⟩
      start := fun _ _ hb => .exhausted hb
      pull := fun _ hb => .exhausted hb
      collect := fun _ _ _ hb => .exhausted hb }
  tuples :=
    { closed := fun n => ⟨n.tidy_closed, n.openBodies_closed⟩
      start := fun _ _ hb => .exhausted hb
      pull := fun _ hb => .exhausted hb
      collect := fun _ _ _ hb => .exhausted hb }
  frame _ _ := .exhausted

theorem accounted_ofDepth (depth : Nat) : (ofDepth depth).Accounted clean := by
  induction depth with
  | zero => exact accounted_giveUp
  | succ depth ih => exact ih.above depth

end Evaluator
end HybridQuery
