import HybridQuery.Proofs.Bodies.Evaluations

/-!
# Books of clauses

The loops of clauses keep the books: the source of a `for` clause and the result of a `return` hold what was
opened for them, next to the clauses before.

* `Evaluator.Accounted.walkOn`, `Evaluator.Accounted.bindNext`, `Evaluator.Accounted.projectNext` and their
  like: one lemma for each function of `Evaluator`.
-/

namespace HybridQuery

open Engine (Balanced)

variable {clean : Prop} {env : Environment} {lost : Int} {r : RunRecord}

namespace Evaluator.Accounted

variable {ev : Evaluator} (h : ev.Accounted clean)
include h

/-! ## Navigation -/

theorem startWalk {input : ItemCursor} (step : NavigationStep) (context : Context)
    (ht : clean → input.Tidy Node.Tidy) (hb : Books clean lost r.owed input.bodies) :
    Accounts clean env (ev.startWalk step context) input r lost Cursor.bodies fun _ input' =>
      clean → input'.Tidy Node.Tidy :=
  .balanced_bind hb (h.plans.stepOperand Balanced.inherited step) fun _ _ hb =>
    .bind ((h.items.openIn context ht hb).mono fun _ _ ⟨ht, _⟩ _ hb => .pure hb ht)

/-- Function bodies that a navigation holds. -/
def bodiesOfWalk (s : Walk × ItemCursor) : Nat := s.2.bodies

theorem walkOn (step : NavigationStep) (limit : Nat) {s : Walk × ItemCursor}
    (ht : clean → s.2.Tidy Node.Tidy) (hb : Books clean lost r.owed (bodiesOfWalk s)) :
    Accounts clean env (ev.walkOn step limit) s r lost bodiesOfWalk fun _ s' =>
      clean → s'.2.Tidy Node.Tidy := by
  induction limit generalizing s r with
  | zero => exact .exhausted hb
  | succ limit ih =>
    obtain ⟨⟨inner, operand, buffer, place⟩, input⟩ := s
    refine .read_bind ?_
    cases buffer with
    | cons i rest =>
      exact .write_pure hb ht
    | nil =>
      refine .bind (.part (k := 0) (fun _ => rfl) rfl hb fun hb => (h.items.next? ht hb).mono
        fun next input ⟨ht, _⟩ r hb => ?_)
      cases next with
      | none =>
        refine .pure hb ?_
        exact ht
      | some i =>
        refine .write_bind (.balanced_bind ?_ (h.plans.applyStep Balanced.inherited step _ _ i)
          fun _ r hb => .write_bind (ih ht hb))
        exact hb

theorem navigateRows {input : ItemCursor} (step : NavigationStep) (mode : Mode) (context : Context)
    (ht : clean → input.Tidy Node.Tidy) (hb : Books clean lost r.owed input.bodies) :
    Accounts clean env (ev.navigateRows step mode context) input r lost Cursor.bodies fun _ input' =>
      clean → input'.Tidy Node.Tidy ∧ input'.bodies = input.bodies := by
  unfold Evaluator.navigateRows
  split
  · exact .read_bind (.balanced_bind hb
      (h.plans.stepFrame Balanced.inherited step (h.frameOf input context)) fun _ _ hb =>
        .pure hb fun hc => ⟨ht hc, rfl⟩)
  · refine .balanced_bind hb (h.plans.stepOperand Balanced.inherited step) fun operand r hb => ?_
    refine .bind ((h.items.collection_tidy context ht hb).mono fun rows input' hq r hb => ?_)
    exact .lift hb (h.plans.stepRows Balanced.inherited step operand rows) fun _ => hq

/-! ## `for` -/

theorem openSource {source : ItemCursor} (context : Context) (ht : clean → source.Tidy Node.Tidy)
    (hb : Books clean lost r.owed source.bodies) :
    Accounts clean env (ev.openSource context) source r lost Cursor.bodies fun _ source' =>
      clean → source'.Tidy Node.Tidy := by
  refine .read_bind ?_
  split
  · exact (h.items.reset context hb).mono fun _ _ hq => hq.1
  · exact (h.items.openIn context ht hb).mono fun _ _ hq => hq.1

/-- Function bodies that a `for` clause holds. -/
def bodiesOfFor (s : ForState) : Nat := s.2.1.bodies + s.2.2.openBodies

/-- The source of a `for` clause and the clauses before are tidy. -/
def TidyFor (s : ForState) : Prop := s.2.1.Tidy Node.Tidy ∧ s.2.2.Tidy

theorem currentBound (v : ForVariables) (allowingEmpty : Bool) {s : ForState}
    (ht : clean → TidyFor s) (hb : Books clean lost r.owed (bodiesOfFor s)) :
    Accounts clean env (ev.currentBound v allowingEmpty s) s r lost bodiesOfFor fun _ s' =>
      clean → TidyFor s' := by
  obtain ⟨⟨inner, current, index⟩, source, feed⟩ := s
  cases current with
  | none => exact .pure hb ht
  | some tuple =>
    refine .bind (.part (fun _ => rfl) rfl hb fun hb => (h.items.next? (fun hc => (ht hc).1) hb).mono
      fun next source ⟨hsource, _⟩ r hb => ?_)
    cases next
    all_goals
      refine .write_bind (.pure ?_ ?_)
      · exact hb
      · exact fun hc => ⟨hsource hc, (ht hc).2⟩

theorem bindNext (v : ForVariables) (allowingEmpty : Bool) (limit : Nat) {s : ForState}
    (ht : clean → TidyFor s) (hb : Books clean lost r.owed (bodiesOfFor s)) :
    Accounts clean env (ev.bindNext v allowingEmpty limit) s r lost bodiesOfFor fun _ s' =>
      clean → TidyFor s' := by
  induction limit generalizing s r with
  | zero => exact .exhausted hb
  | succ limit ih =>
    rw [bindNext_succ]
    refine .read_bind (.bind ((h.currentBound v allowingEmpty ht hb).mono fun bound s ht r hb => ?_))
    obtain ⟨b, source, feed⟩ := s
    cases bound with
    | some tuple => exact .pure hb ht
    | none =>
      refine .read_bind (.bind (.part (fun _ => Nat.add_comm _ _) (Nat.add_comm _ _) hb fun hb =>
        (h.nextTuple (fun hc => (ht hc).2) hb).mono fun next feed hfeed r hb => ?_))
      cases next with
      | none => exact .pure hb fun hc => ⟨(ht hc).1, hfeed hc⟩
      | some tuple =>
        refine .bind (.part (fun _ => rfl) rfl hb fun hb => (h.openSource _ (fun hc => (ht hc).1) hb).mono
          fun _ source hsource r hb => .write_bind ?_)
        exact ih (fun hc => ⟨hsource hc, hfeed hc⟩) hb

theorem forRows {u : Feed} (v : ForVariables) (allowingEmpty : Bool) (source : ItemCursor)
    (context : Context) (ht : clean → u.Tidy) (hb : Books clean lost r.owed u.openBodies) :
    Accounts clean env (ev.forRows v allowingEmpty source.closed context) u r lost Feed.openBodies
      fun _ u' => clean → u'.Tidy ∧ u'.openBodies = u.openBodies := by
  refine .read_bind ?_
  split
  · exact .balanced_bind hb (h.rowsOf source.closed_closed context) fun _ _ hb =>
      .pure hb fun hc => ⟨ht hc, rfl⟩
  · refine .bind ((h.feedRows ht hb context).mono fun tuples u' hq r hb => ?_)
    exact .lift hb (PlanEvaluator.Within.expandedRows Balanced.inherited v allowingEmpty
      (h.itemsOf source.closed_closed) tuples) fun _ => hq

/-! ## `let`, `where` and `count` -/

/-- Function bodies that a `count` clause holds. -/
def bodiesOfCount (s : Nat × Feed) : Nat := s.2.openBodies

section
variable {u : Feed} (ht : clean → u.Tidy) (hb : Books clean lost r.owed u.openBodies)
include ht hb

/-- The distributed form of a clause that transforms the distributed tuples of the clauses before. -/
theorem feedRows_bind {α : Type} {f : Collection Tuple → Engine α} (context : Context)
    (hf : ∀ tuples, (f tuples).Balanced clean) :
    Accounts clean env (do
      let tuples ← ev.feedRows context
      Step.lift (f tuples)) u r lost Feed.openBodies fun _ u' =>
        clean → u'.Tidy ∧ u'.openBodies = u.openBodies :=
  .bind ((h.feedRows ht hb context).mono fun tuples _ hq _ hb => .lift hb (hf tuples) fun _ => hq)

theorem letNext (name : String) (value : Plan) (context : Context) :
    Accounts clean env (ev.letNext name value context) u r lost Feed.openBodies fun _ u' =>
      clean → u'.Tidy := by
  refine .bind ((h.nextTuple ht hb).mono fun next u ht r hb => ?_)
  cases next with
  | none => exact .pure hb ht
  | some tuple =>
    exact .balanced_bind hb (h.plans.value Balanced.inherited value) fun _ _ hb => .pure hb ht

theorem keepNext (condition : Plan) (context : Context) (limit : Nat) :
    Accounts clean env (ev.keepNext condition context limit) u r lost Feed.openBodies fun _ u' =>
      clean → u'.Tidy := by
  induction limit generalizing u r with
  | zero => exact .exhausted hb
  | succ limit ih =>
    refine .bind ((h.nextTuple ht hb).mono fun next u ht r hb => ?_)
    cases next with
    | none => exact .pure hb ht
    | some tuple =>
      refine .balanced_bind hb (h.plans.truth Balanced.inherited condition) fun kept r hb => ?_
      cases kept with
      | true => exact .pure hb ht
      | false => exact ih ht hb

theorem countNext (name : String) (counter : Nat) :
    Accounts clean env (ev.countNext name) (counter, u) r lost bodiesOfCount fun _ s' =>
      clean → s'.2.Tidy := by
  refine .read_bind (.bind (.part (k := 0) (fun _ => rfl) rfl hb fun hb =>
    (h.nextTuple ht hb).mono fun next u ht r hb => ?_))
  cases next with
  | none =>
    refine .pure hb ?_
    exact ht
  | some tuple =>
    exact .write_pure hb ht

end

/-! ## `return` -/

/-- Function bodies that a `return` holds. -/
def bodiesOfReturn (s : ReturnState) : Nat := s.1.openBodies + currentBodies s.2

/-- The clauses before a `return` and the cursor of the last tuple are tidy. -/
def TidyReturn (s : ReturnState) : Prop := s.1.Tidy ∧ tidyCurrent s.2

omit h in
theorem bodiesOfReturn_some (feed : Feed) (c : ItemCursor) :
    bodiesOfReturn (feed, some c) = c.bodies + feed.openBodies := by
  rw [bodiesOfReturn, currentBodies, itemBodies_eq]
  exact Nat.add_comm _ _

/-- There is no cursor of the last tuple once it has no item left. -/
theorem currentNext {s : ReturnState} (ht : clean → TidyReturn s)
    (hb : Books clean lost r.owed (bodiesOfReturn s)) :
    Accounts clean env ev.currentNext s r lost bodiesOfReturn fun next s' =>
      (clean → TidyReturn s') ∧ (next = none → s'.2 = none) := by
  obtain ⟨feed, current⟩ := s
  refine .read_bind ?_
  cases current with
  | none => exact .pure hb ⟨ht, fun _ => rfl⟩
  | some c =>
    refine .bind (.part (bodiesOfReturn_some feed) (bodiesOfReturn_some feed c) hb fun hb =>
      (h.items.next? (fun hc => tidyItems_iff.mp (ht hc).2) hb).mono fun next c ⟨hcurrent, _⟩ r hb => ?_)
    cases next with
    | some i => exact .pure hb ⟨fun hc => ⟨(ht hc).1, tidyItems_iff.mpr (hcurrent hc)⟩, nofun⟩
    | none =>
      refine .bind (.part (bodiesOfReturn_some feed) (bodiesOfReturn_some feed c) hb fun hb =>
        h.items.release hb fun r hb => ?_)
      refine .write_pure (hb.congr ?_) ⟨fun hc => ⟨(ht hc).1, trivial⟩, fun _ => rfl⟩
      rw [bodiesOfReturn_some, h.items.bodies_closed, Nat.zero_add]
      rfl

theorem projectNext (result : Plan) (context : Context) (limit : Nat) {s : ReturnState}
    (ht : clean → TidyReturn s) (hb : Books clean lost r.owed (bodiesOfReturn s)) :
    Accounts clean env (ev.projectNext result context limit) s r lost bodiesOfReturn fun _ s' =>
      clean → TidyReturn s' := by
  induction limit generalizing s r with
  | zero => exact .exhausted hb
  | succ limit ih =>
    refine .bind ((h.currentNext ht hb).mono fun next ⟨feed, current⟩ ⟨ht, hnone⟩ r hb => ?_)
    cases next with
    | some i => exact .pure hb ht
    | none =>
      obtain rfl : current = none := hnone rfl
      refine .read_bind (.bind (.part (k := 0) (fun _ => rfl) rfl hb fun hb =>
        (h.nextTuple (fun hc => (ht hc).1) hb).mono fun next feed hfeed r hb => ?_))
      cases next with
      | none => exact .pure hb fun hc => ⟨hfeed hc, trivial⟩
      | some tuple =>
        refine .lift_bind hb (h.opened result.closed_cursor _) fun c r ⟨hcurrent, _⟩ hb => ?_
        refine .write_bind (ih (fun hc => ⟨hfeed hc, tidyItems_iff.mpr (hcurrent hc)⟩) (hb.congr ?_))
        rw [bodiesOfReturn_some]
        exact Nat.add_comm _ _

end Evaluator.Accounted
end HybridQuery
