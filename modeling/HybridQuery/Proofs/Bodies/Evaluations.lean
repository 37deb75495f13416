import HybridQuery.Proofs.Bodies.Protocol

/-!
# Books of evaluations

An evaluator keeps the books on function bodies if its rules do. Then whatever evaluates a plan as a whole
closes the bodies that it opens, and calls and sequences of members hold what they opened.

* `Evaluator.Accounted`: evaluators that keep the books.
* `Evaluator.Accounted.plans`: evaluations of plans are balanced.
* `Evaluator.Accounted.callNext`, `Evaluator.Accounted.sequenceNext` and their like: one lemma for each
  function of `Evaluator`.
-/

namespace HybridQuery

open Engine (Balanced)

variable {clean : Prop} {env : Environment} {lost : Int} {r : RunRecord}

/-- An evaluator that keeps the books. -/
structure Evaluator.Accounted (clean : Prop) (ev : Evaluator) : Prop where
  items : ev.items.Accounted clean Node.Tidy
  tuples : ev.tuples.Accounted clean ClauseNode.Tidy
  frame (node : Node) (context : Context) : (ev.frame node context).Balanced clean

namespace Evaluator.Accounted

variable {ev : Evaluator} (h : ev.Accounted clean)
include h

/-! ## Evaluating plans -/

section
variable {c : ItemCursor} (hc : c.closed = c) (context : Context)
include hc

theorem tidy_of_closed : c.Tidy Node.Tidy := hc ▸ h.items.tidy_closed c

theorem bodies_of_closed : c.bodies = 0 := hc ▸ h.items.bodies_closed c

theorem itemsOf : (ev.itemsOf c context).Balanced clean := by
  refine Engine.Yields.eval (h.bodies_of_closed hc) fun env r hb => ?_
  refine .bind ((h.items.openIn context (fun _ => h.tidy_of_closed hc) hb).mono fun _ c ⟨ht, _⟩ r hb => ?_)
  exact (h.items.drainOnto ev.limit [] (fun hclean => (ht hclean).node) hb).mono fun _ _ hz =>
    ⟨trivial, Nat.zero_le _, fun _ => hz⟩

theorem rowsOf : (ev.rowsOf c context).Balanced clean := by
  refine Engine.Yields.eval (h.bodies_of_closed hc) fun env r hb => ?_
  refine (h.items.collection_tidy context (fun _ => h.tidy_of_closed hc) hb).mono fun _ c' hq => ?_
  exact ⟨trivial, Nat.zero_le _, fun hclean => (hq hclean).2.trans (h.bodies_of_closed hc)⟩

theorem openAndTake : (Step.eval c (ev.openAndTake context)).Balanced clean := by
  refine Engine.Yields.eval (h.bodies_of_closed hc) fun env r hb => ?_
  refine .bind ((h.items.openIn context (fun _ => h.tidy_of_closed hc) hb).mono fun _ c ⟨ht, _⟩ r hb => ?_)
  refine .bind ((h.items.next? ht hb).mono fun _ c _ r hb => ?_)
  refine .bind (h.items.release hb fun r hb => .pure hb ?_)
  exact ⟨trivial, Nat.zero_le _, fun _ => h.items.bodies_closed c⟩

theorem openAndPeek : (Step.eval c (ev.openAndPeek context)).Balanced clean := by
  refine Engine.Yields.eval (h.bodies_of_closed hc) fun env r hb => ?_
  refine .bind ((h.items.openIn context (fun _ => h.tidy_of_closed hc) hb).mono fun _ c ⟨ht, _⟩ r hb => ?_)
  refine .read_bind (.bind (h.items.release hb fun r hb => .pure hb ?_))
  exact ⟨trivial, Nat.zero_le _, fun _ => h.items.bodies_closed c⟩

/-- A cursor that is opened and handed on holds all bodies that were opened for it. -/
theorem opened : (Step.eval c (do
    ev.items.openIn context
    Step.read)).Yields clean Cursor.bodies fun c' =>
      (clean → c'.Tidy Node.Tidy) ∧ c'.isOpen = true := by
  refine Engine.Yields.eval (h.bodies_of_closed hc) fun env r hb => ?_
  refine .bind ((h.items.openIn context (fun _ => h.tidy_of_closed hc) hb).mono fun _ c hq r hb => ?_)
  exact ⟨⟨hq, Nat.le_refl _, fun _ => rfl⟩, hb⟩

end

theorem frameOf (c : ItemCursor) (context : Context) : (ev.frameOf c context).Balanced clean := by
  unfold Evaluator.frameOf
  split
  · exact Balanced.inherited.locate (Balanced.inherited.fail _) c.position
  · exact Balanced.inherited.locate (h.frame c.node context) c.position

theorem plans : ev.plans.Within fun _ x => x.Balanced clean where
  evaluate p context := h.itemsOf p.closed_cursor context
  rows p context := h.rowsOf p.closed_cursor context
  planFrame p context := h.frameOf p.cursor context
  firstOnHost p context := h.openAndTake p.closed_cursor context
  emptyOnHost p context := h.openAndPeek p.closed_cursor context

/-! ## The clauses before -/

section
variable {u : Feed} (ht : clean → u.Tidy) (hb : Books clean lost r.owed u.openBodies)
include ht hb

theorem openFeed (context : Context) :
    Accounts clean env (ev.openFeed context) u r lost Feed.openBodies fun _ u' => clean → u'.Tidy := by
  refine .read_bind ?_
  cases u with
  | start pending => exact .write hb ht
  | clause c =>
    have hheld (c : TupleCursor) : (Feed.clause c).openBodies = c.bodies + 0 := tupleBodies_eq c
    exact .whole hheld (hheld c) hb fun hb =>
      (h.tuples.openIn context (fun hc => tidyTuples_iff.mp (ht hc)) hb).mono fun _ _ ⟨ht, _⟩ hc =>
        tidyTuples_iff.mpr (ht hc)

theorem nextTuple :
    Accounts clean env ev.nextTuple u r lost Feed.openBodies fun _ u' => clean → u'.Tidy := by
  refine .read_bind ?_
  cases u with
  | start pending =>
    exact .write_pure hb ht
  | clause c =>
    have hheld (c : TupleCursor) : (Feed.clause c).openBodies = c.bodies + 0 := tupleBodies_eq c
    exact .whole hheld (hheld c) hb fun hb =>
      (h.tuples.next? (fun hc => tidyTuples_iff.mp (ht hc)) hb).mono fun _ _ ⟨ht, _⟩ hc =>
        tidyTuples_iff.mpr (ht hc)

theorem feedRows (context : Context) :
    Accounts clean env (ev.feedRows context) u r lost Feed.openBodies fun _ u' =>
      clean → u'.Tidy ∧ u'.openBodies = u.openBodies := by
  refine .read_bind ?_
  cases u with
  | start pending => exact .pure hb fun hc => ⟨ht hc, rfl⟩
  | clause c =>
    have hheld (c : TupleCursor) : (Feed.clause c).openBodies = c.bodies + 0 := tupleBodies_eq c
    refine .whole hheld (hheld c) hb fun hb =>
      (h.tuples.collection_tidy context (fun hc => tidyTuples_iff.mp (ht hc)) hb).mono fun _ c' hq hc => ?_
    exact ⟨tidyTuples_iff.mpr (hq hc).1, by rw [hheld, hheld, (hq hc).2]⟩

theorem gatherTuples {α : Type} {f : Tuple → Engine α} (hf : ∀ tuple, (f tuple).Balanced clean)
    (limit : Nat) (gathered : List α) :
    Accounts clean env (ev.gatherTuples f limit gathered) u r lost Feed.openBodies fun _ u' =>
      clean → u'.Tidy := by
  induction limit generalizing u r gathered with
  | zero => exact .exhausted hb
  | succ limit ih =>
    refine .bind ((h.nextTuple ht hb).mono fun next u ht r hb => ?_)
    cases next with
    | none => exact .pure hb ht
    | some tuple => exact .balanced_bind hb (hf tuple) fun a r hb => ih ht hb (a :: gathered)

omit h ht in
theorem closeFeed {Q : Unit → Feed → Prop} (hq : Q () u.closed) :
    Accounts clean env closeFeed u r lost Feed.openBodies Q :=
  .read_bind (.write_bind (.closeBodies
    (hb.congr (by rw [u.openBodies_closed, Nat.zero_add])) hq))

theorem gatherAll {α : Type} {f : Tuple → Engine α} (hf : ∀ tuple, (f tuple).Balanced clean)
    (context : Context) :
    Accounts clean env (ev.gatherAll f context) u r lost Feed.openBodies fun _ u' => clean → u'.Tidy := by
  refine .bind ((h.openFeed ht hb context).mono fun _ u ht r hb => ?_)
  refine .bind ((h.gatherTuples ht hb hf ev.limit []).mono fun gathered u ht r hb => ?_)
  exact .bind (closeFeed hb fun r hb => .pure hb fun _ => u.tidy_closed)

end

/-! ## Calls -/

theorem openBody (f : FunctionItem) (context : Context) :
    (ev.openBody f context).Yields clean Call.openBodies fun call => clean → call.Tidy := by
  refine (h.opened f.body.closed_cursor context).opened (fun c ⟨ht, _⟩ hc => tidyItems_iff.mpr (ht hc))
    (fun c => ?_) fun _ c ⟨_, ho⟩ => ?_
  · rw [Call.openBodies, itemBodies_eq]
    split <;> omega
  · rw [Call.openBodies, itemBodies_eq, if_pos ho]

theorem startCall (call : FunctionItem × Invocation) :
    (ev.startCall call).Yields clean Call.openBodies fun call => clean → call.Tidy := by
  obtain ⟨f, left | inner⟩ := call
  · exact .pure rfl fun _ => trivial
  · exact h.openBody f inner

/-- Function bodies that are closed when a call of a body ends. -/
def bodiesOfCall (body : ItemCursor) : Nat := if body.isOpen then body.bodies + 1 else 0

theorem bodyNext {body : ItemCursor} (ho : body.isOpen = true) (ht : clean → body.Tidy Node.Tidy)
    (hb : Books clean lost r.owed (bodiesOfCall body)) :
    Accounts clean env ev.bodyNext body r lost bodiesOfCall fun _ body' =>
      clean → body'.Tidy Node.Tidy := by
  -- The body itself is out of reach for its own cursor.
  have hle (body : ItemCursor) : lost + bodiesOfCall body ≤ lost + (1 : Nat) + body.bodies := by
    rw [bodiesOfCall]
    split <;> omega
  have hb : Books clean lost r.owed (body.bodies + 1) := hb.congr (if_pos ho).symm
  refine .bind_of ((h.items.next? ht hb.shift).mono fun next body ⟨ht, hopen⟩ r hb => ?_) hle
  rw [ho] at hopen
  cases next with
  | some i =>
    refine .pure ?_ ht
    exact hb.unshift.congr (if_pos hopen)
  | none =>
    refine .bind (.bind_of (h.items.release hb fun r hb => ?_) hle)
    have hclosed : bodiesOfCall body.closed = body.closed.bodies := (h.items.bodies_closed body).symm
    exact .closeBodies (hb.unshift.congr (by rw [hclosed])) fun r hb =>
      .pure hb fun _ => h.items.tidy_closed body

theorem callNext {call : Call} (ht : clean → call.Tidy) (hb : Books clean lost r.owed call.openBodies) :
    Accounts clean env ev.callNext call r lost Call.openBodies fun _ call' => clean → call'.Tidy := by
  refine .read_bind ?_
  cases call with
  | idle => exact .pure hb ht
  | partially result =>
    exact .write_pure hb fun _ => trivial
  | running body type produced =>
    have hheld (produced : Nat) (body : ItemCursor) :
        (Call.running body type produced).openBodies = bodiesOfCall body + 0 := by
      rw [Call.openBodies, itemBodies_eq]
      rfl
    dsimp only
    split
    · exact .pure hb ht
    · next ho =>
      refine .bind (.part (hheld produced) (hheld produced body) hb fun hb =>
        (h.bodyNext (by simpa using ho) (fun hc => tidyItems_iff.mp (ht hc)) hb).mono
          fun next body ht r hb => ?_)
      have ht (hc : clean) : tidyItems body := tidyItems_iff.mpr (ht hc)
      cases next with
      | none => exact .ofResult_bind hb fun _ => .pure hb ht
      | some i =>
        have hb : Books clean lost r.owed (Call.running body type (produced + 1)).openBodies :=
          hb.congr ((hheld _ body).trans (hheld _ body).symm)
        exact .write_bind (.environment_bind (.ofResult_bind hb fun _ => .pure hb ht))

/-! ## Members of sequences -/

section
variable {before rest : List ItemCursor} {current : ItemCursor} (context : Context)

omit h in
theorem bodies_sequence (before rest : List ItemCursor) (inside : Option Context) (current : ItemCursor) :
    (Node.sequence before (current :: rest) inside).openBodies =
      current.bodies + (memberBodies before + memberBodies rest) := by
  rw [Node.openBodies, memberBodies, itemBodies_eq]
  omega

omit h in
theorem tidy_sequence {inside : Option Context} : (Node.sequence before (current :: rest) inside).Tidy ↔
    tidyMembers before ∧ current.Tidy Node.Tidy ∧ tidyMembers rest := by
  rw [Node.Tidy, tidyMembers, tidyItems_iff]

theorem memberNext (ht : clean → current.Tidy Node.Tidy)
    (hb : Books clean lost r.owed (Node.sequence before (current :: rest) (some context)).openBodies) :
    Accounts clean env (ev.memberNext context before current rest)
      (.sequence before (current :: rest) (some context)) r lost Node.openBodies fun p n =>
        n = .sequence before (p.2 :: rest) (some context) ∧ (clean → p.2.Tidy Node.Tidy) := by
  have hheld := bodies_sequence before rest (some context)
  refine .bind (.part hheld (hheld current) hb fun hb => (h.items.next? ht hb).mono
    fun next current ⟨ht, _⟩ r hb => ?_)
  cases next with
  | some i => exact .pure hb ⟨rfl, ht⟩
  | none =>
    exact .bind (.part hheld (hheld current) hb fun hb => h.items.release hb fun r hb =>
      .pure hb ⟨rfl, fun _ => h.items.tidy_closed current⟩)

theorem sequenceNext (ht : clean → (Node.sequence before (current :: rest) (some context)).Tidy)
    (hb : Books clean lost r.owed (Node.sequence before (current :: rest) (some context)).openBodies) :
    Accounts clean env (ev.sequenceNext context rest before current)
      (.sequence before (current :: rest) (some context)) r lost Node.openBodies fun _ n =>
        clean → n.Tidy := by
  have hthrough {before rest : List ItemCursor} {current : ItemCursor} :
      (Node.sequence (before ++ [current]) rest (some context)).openBodies =
        (Node.sequence before (current :: rest) (some context)).openBodies := by
    simp only [Node.openBodies, memberBodies_append, memberBodies]
    omega
  induction rest generalizing before current r with
  | nil =>
    refine .bind ((h.memberNext context (fun hc => (tidy_sequence.mp (ht hc)).2.1) hb).mono
      fun ⟨next, current⟩ n ⟨hn, hcurrent⟩ r hb => ?_)
    subst hn
    have ht (hc : clean) : (Node.sequence before [current] (some context)).Tidy :=
      tidy_sequence.mpr ⟨(tidy_sequence.mp (ht hc)).1, hcurrent hc, trivial⟩
    cases next with
    | some i => exact .pure hb ht
    | none =>
      exact .write_pure (hb.congr hthrough) fun hc => ⟨tidyMembers_append.mpr (ht hc), trivial⟩
  | cons member rest ih =>
    refine .bind ((h.memberNext context (fun hc => (tidy_sequence.mp (ht hc)).2.1) hb).mono
      fun ⟨next, current⟩ n ⟨hn, hcurrent⟩ r hb => ?_)
    subst hn
    have ht (hc : clean) : tidyMembers (before ++ [current]) ∧ member.Tidy Node.Tidy ∧ tidyMembers rest := by
      obtain ⟨hbefore, _, hmember, hrest⟩ := tidy_sequence.mp (ht hc)
      exact ⟨tidyMembers_append.mpr ⟨hbefore, tidyItems_iff.mpr (hcurrent hc), trivial⟩,
        tidyItems_iff.mp hmember, hrest⟩
    cases next with
    | some i =>
      exact .pure hb fun hc => tidy_sequence.mpr
        ⟨(tidyMembers_append.mp (ht hc).1).1, hcurrent hc, tidyItems_iff.mpr (ht hc).2.1, (ht hc).2.2⟩
    | none =>
      have hheld := bodies_sequence (before ++ [current]) rest (some context)
      refine .bind (.bind (.part hheld (hthrough.symm.trans (hheld member)) hb fun hb =>
        (h.items.openIn context (fun hc => (ht hc).2.1) hb).mono fun _ member' ⟨hmember, _⟩ r hb =>
          .pure hb fun r hb => ?_))
      exact ih (fun hc => tidy_sequence.mpr ⟨(ht hc).1, hmember hc, (ht hc).2.2⟩) hb

end

end Evaluator.Accounted
end HybridQuery
