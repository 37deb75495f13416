import HybridQuery.Proofs.Meaning.Settling
import HybridQuery.Proofs.Promotion
import HybridQuery.Proofs.Spreading.Steps

/-!
# Return types

A body that is pulled is checked against the return type of its function item by item, before anything
is known of the items to come; a distributed one is counted first, and its items are promoted in
partitions. Both come to the promotion of the sequence of its items.

* `Step.pullAll`, `Evaluator.pullBody`: pulling until nothing is left.
* `Meaning.result_checked_ofList`: the check item by item admits what the check of a whole sequence
  admits.
* `Enforces`: what a computation settles on is what a promotion comes to.
* `returnType_enforced_alike`: both forms of a call enforce its return type.
-/

namespace HybridQuery

open Filter

variable {env : Environment} {α β σ : Type}

/-! ## Pulling until nothing is left -/

/-- Pulls until nothing is left, in a limited number of rounds. -/
def Step.pullAll (pull : Step σ (Option α)) : Nat → Step σ (List α)
  | 0 => Run.exhausted
  | rounds + 1 => do
    match ← pull with
    | none => return []
    | some a => return a :: (← Step.pullAll pull rounds)

theorem Pulls.pullAll {L : Prop} {pull : Step σ (Option α)} {I : σ → Prop} {s : σ} {t : Trace α}
    {rounds : Nat} (h : Pulls L env pull I s t) (hrounds : L ∨ t.toList.length < rounds) :
    Gives L env (Step.pullAll pull rounds) s I t.result := by
  induction t generalizing s rounds with
  | failed f =>
    cases rounds with
    | zero => exact .exhausted (hrounds.resolve_right (by simp))
    | succ rounds => exact gives_error.mpr (.bind h.2)
  | done =>
    cases rounds with
    | zero => exact .exhausted (hrounds.resolve_right (by simp))
    | succ rounds =>
      refine .bind (h.2.mono ?_ fun _ => id)
      rintro _ s' ⟨rfl, hs⟩
      exact .pure hs
  | item a t ih =>
    cases rounds with
    | zero => exact .exhausted (hrounds.resolve_right (by simp))
    | succ rounds =>
      have hrounds : L ∨ t.toList.length < rounds := by simpa [Trace.toList] using hrounds
      refine .bind (h.2.mono ?_ fun _ => id)
      rintro _ s' ⟨rfl, hs⟩
      exact (ih hs hrounds).bind_of fun rest s'' _ hs => .pure hs

/-- Computations one after the other are steps one after the other that leave a state alone. -/
theorem Step.eval_lift_bind (s : σ) (x : Engine α) (k : α → Engine β) :
    Step.eval s (do Step.lift (k (← Step.lift x))) = x >>= k := by
  funext env r
  simp only [Step.eval, Step.lift, Bind.bind, ReaderT.bind, EStateM.bind]
  cases x env r with
  | error f r' => rfl
  | ok a r' =>
    dsimp only
    cases k a env r' <;> rfl

/-- Opens the body of a function and pulls its results until nothing is left. -/
def Evaluator.pullBody (ev : Evaluator) (f : FunctionItem) (context : Context) : Engine Sequence := do
  let call ← ev.openBody f context
  Step.eval call (Step.pullAll ev.callNext ev.limit)

/-- What pulling a body means. -/
theorem meant_pullBody (f : FunctionItem) (inner : Context) :
    Meant env (fun depth => (Evaluator.ofDepth depth).pullBody f inner) fun depth =>
      Engine.given fun env => ((Meaning.ofDepth depth).callItems env (f, .fully inner)).result := by
  refine .of_marked (fun _ => inner.scopes) fun {K F L depth} hK h => .given ?_
  have hknown : inner.Known K.marks := by rw [hK]; exact fun _ _ => rfl
  filter_upwards [h.plan f.body inner hknown,
    h.limit ((Meaning.ofDepth depth).callItems env (f, .fully inner)).toList.length] with j hj hl
  have hopen : (∃ e, (Meaning.ofDepth depth).callItems env (f, .fully inner) = .failed e ∧
      Fails L env (Step.lift ((Evaluator.ofDepth (depth + j)).openBody f inner)) f.body.cursor.node e) ∨
      Ensures env (Step.lift ((Evaluator.ofDepth (depth + j)).openBody f inner)) f.body.cursor.node
        (fun call _ => Pulls L env (Evaluator.ofDepth (depth + j)).callNext (fun _ => True) call
          ((Meaning.ofDepth depth).callItems env (f, .fully inner))) (Spent L) :=
    Evaluator.starts_call fun _ hinner => by cases hinner; exact hj
  rw [Evaluator.pullBody, ← Step.eval_lift_bind f.body.cursor.node]
  refine Gives.eval (I := fun _ => True) ?_
  obtain ⟨e, he, hfails⟩ | hopen := hopen
  · rw [he]
    exact gives_error.mpr hfails.bind
  · exact .bind (hopen.mono (fun _ _ hp => .lift (hp.pullAll hl).eval trivial) fun _ => id)

/-! ## Item by item -/

theorem SequenceType.promoteProduced_eq (type : SequenceType) (c : Catalogue) (produced : Nat)
    (i : Item) : type.promoteProduced c produced i = (do
      type.checkProduced produced
      c.promote i type.itemType) := by
  unfold promoteProduced
  split
  next h =>
    obtain rfl : type = .unconstrained := by simpa [isUnconstrained] using h
    exact (c.promote_item i).symm
  next => rfl

theorem Trace.ahead_ofList (l : List α) : (ofList l).ahead = ofList l := by
  induction l with
  | nil => rfl
  | cons a l ih =>
    cases l with
    | nil => rfl
    | cons b l => exact congrArg (item a) ih

theorem cons_map_eq_ok {ε : Type} {a : α} {d : Except ε (List α)} {l : List α} :
    (a :: ·) <$> d = .ok l ↔ ∃ rest, d = .ok rest ∧ a :: rest = l := by
  cases d <;> simp [Functor.map, Except.map]

namespace Meaning

variable {type : SequenceType} {c : Catalogue}

theorem checked_cons (produced : Nat) (i : Item) (items : Sequence) :
    (checked type c produced (.ofList (i :: items))).result = (do
      (type.checkProduced (produced + 1)).toEngine.raised
      let j ← (TypeResult.toEngine (c.promote i type.itemType)).raised
      (j :: ·) <$> (checked type c (produced + 1) (.ofList items)).result) := by
  rw [Trace.ofList, checked, SequenceType.promoteProduced_eq]
  cases type.checkProduced (produced + 1) with
  | error fault => rfl
  | ok => cases c.promote i type.itemType <;> rfl

/-- The check item by item comes to the check of the whole: a number of items that is admitted is not
exceeded on the way, and one that is not is noticed in the end. -/
theorem result_checked_ofList {produced : Nat} {items results : Sequence} :
    (checked type c produced (.ofList items)).result = .ok results ↔
      type.checkCount (produced + items.length) = .ok () ∧
        (items.mapM fun i => c.promote i type.itemType) = .ok results := by
  induction items generalizing produced results with
  | nil =>
    rw [Trace.ofList, checked, List.length_nil, Nat.add_zero, List.mapM_nil]
    cases type.checkCount produced with
    | error fault => exact ⟨fun h => (by cases h), fun h => (by cases h.1)⟩
    | ok => exact ⟨fun h => ⟨rfl, congrArg _ (Except.ok.inj h)⟩, fun h => congrArg _ (Except.ok.inj h.2)⟩
  | cons i items ih =>
    have hlength : produced + (i :: items).length = produced + 1 + items.length := by
      rw [List.length_cons]
      omega
    rw [checked_cons, hlength, List.mapM_cons]
    cases hproduced : type.checkProduced (produced + 1) with
    | error fault =>
      refine ⟨fun h => (by cases h), fun h => ?_⟩
      have hwithin := SequenceType.checkProduced_of_checkCount (Nat.succ_pos produced) (by omega) h.1
      rw [hproduced] at hwithin
      cases hwithin
    | ok =>
      cases c.promote i type.itemType with
      | error fault => exact ⟨fun h => (by cases h), fun h => (by cases h.2)⟩
      | ok j =>
        change (j :: ·) <$> (checked type c (produced + 1) (.ofList items)).result = .ok results ↔
          _ ∧ (j :: ·) <$> (items.mapM fun i => c.promote i type.itemType) = .ok results
        rw [cons_map_eq_ok, cons_map_eq_ok]
        simp only [ih, and_assoc, exists_and_left]

/-- The check item by item admits what promotion of the sequence admits, and gives the same items. -/
theorem result_checked_eq_ok_iff {items results : Sequence} :
    (checked type c 0 (.ofList items)).result = .ok results ↔
      c.promoteSequence items type = .ok results := by
  rw [result_checked_ofList, Nat.zero_add, Catalogue.promoteSequence_eq]
  cases type.checkCount items.length with
  | error fault => exact ⟨fun h => (by cases h.1), fun h => (by cases h)⟩
  | ok => exact ⟨And.right, fun h => ⟨rfl, h⟩⟩

/-- The check ends in a result, or in a fault that says what is wrong. -/
theorem exists_result_checked (produced : Nat) (items : Sequence) :
    ∃ d : EngineResult Sequence,
      (checked type c produced (.ofList items)).result = d.raised := by
  induction items generalizing produced with
  | nil =>
    rw [Trace.ofList, checked]
    cases type.checkCount produced with
    | error fault => exact ⟨.error _, rfl⟩
    | ok => exact ⟨.ok [], rfl⟩
  | cons i items ih =>
    rw [checked_cons]
    cases type.checkProduced (produced + 1) with
    | error fault => exact ⟨.error _, rfl⟩
    | ok =>
      cases c.promote i type.itemType with
      | error fault => exact ⟨.error _, rfl⟩
      | ok j =>
        obtain ⟨d, hd⟩ := ih (produced + 1)
        refine ⟨(j :: ·) <$> d, ?_⟩
        rw [hd]
        cases d <;> rfl

end Meaning

/-! ## Both forms of a call -/

/-- A computation settles on a value that reads back as what a promotion comes to, or on an error if
that fails. -/
structure Enforces (env : Environment) (x : ℕ → Engine α) (read : α → Sequence)
    (promoted : TypeResult Sequence) : Prop where
  succeeds_iff : ∀ items, (∃ a, Settles env x (.ok a) ∧ read a = items) ↔ promoted = .ok items
  fails_iff : (∃ e, Settles env x (.error e)) ↔ ∃ fault, promoted = .error fault

theorem Enforces.of_settles {x : ℕ → Engine α} {read : α → Sequence} {promoted : TypeResult Sequence}
    {d : EngineResult α} (h : Settles env x d)
    (hd : ∀ items, read <$> d = .ok items ↔ promoted = .ok items) : Enforces env x read promoted := by
  cases d with
  | ok a =>
    have hpromoted := (hd (read a)).mp rfl
    refine ⟨fun items => ⟨fun ⟨b, hb, hread⟩ => ?_, fun hitems => ⟨a, h, ?_⟩⟩,
      ⟨fun ⟨e, he⟩ => (nomatch h.unique he), fun ⟨fault, hf⟩ => (nomatch hpromoted.symm.trans hf)⟩⟩
    · cases h.unique hb
      rw [hpromoted, hread]
    · exact Except.ok.inj (hpromoted.symm.trans hitems)
  | error e =>
    have hfails : ∀ items, promoted ≠ .ok items := fun items hitems => nomatch (hd items).mpr hitems
    refine ⟨fun items => ⟨fun ⟨b, hb, _⟩ => (nomatch h.unique hb), fun hitems => absurd hitems (hfails items)⟩,
      ⟨fun _ => ?_, fun _ => ⟨e, h⟩⟩⟩
    cases promoted with
    | ok items => exact absurd rfl (hfails items)
    | error fault => exact ⟨fault, rfl⟩

/-- A distributed result is counted, and promoted in its partitions. -/
theorem exists_ends_promoteRows (type : SequenceType) (rows : Collection Item) :
    ∃ d, (PlanEvaluator.promoteRows type rows).Ends env d ∧ ∀ items,
      Collection.records <$> d = .ok items ↔
        env.catalogue.promoteSequence rows.records type = .ok items := by
  unfold PlanEvaluator.promoteRows
  by_cases hu : type.isUnconstrained = true
  · refine ⟨.ok rows, fun r => ⟨r, by rw [if_pos hu]; rfl⟩, fun items => ?_⟩
    rw [Catalogue.promoteSequence, if_pos hu]
    exact ⟨fun h => congrArg _ (Except.ok.inj h), fun h => congrArg _ (Except.ok.inj h)⟩
  · refine ⟨TypeResult.toEngine do
      type.checkCount rows.count
      rows.mapM fun i => env.catalogue.promote i type.itemType, fun r => ⟨r, ?_⟩, fun items => ?_⟩
    · rw [if_neg hu]
      simp only [Run.environment, Bind.bind, ReaderT.bind, EStateM.bind]
      cases type.checkCount rows.count with
      | error fault => rfl
      | ok => cases rows.mapM fun i => env.catalogue.promote i type.itemType <;> rfl
    · rw [Catalogue.promoteSequence_eq, ← Collection.records_mapM, Collection.count_eq]
      cases type.checkCount rows.records.length with
      | error fault => exact ⟨fun h => (by cases h), fun h => (by cases h)⟩
      | ok =>
        cases rows.mapM fun i => env.catalogue.promote i type.itemType with
        | error fault => exact ⟨fun h => (by cases h), fun h => (by cases h)⟩
        | ok d => exact ⟨fun h => congrArg _ (Except.ok.inj h), fun h => congrArg _ (Except.ok.inj h)⟩

/-- A body that yields items is pulled as the check item by item has it. -/
theorem exists_settles_pullBody {f : FunctionItem} {inner : Context} {items : Sequence}
    (hbody : Settles env (fun depth => (Evaluator.ofDepth depth).plans.evaluate f.body inner)
      (.ok items)) :
    ∃ d, Settles env (fun depth => (Evaluator.ofDepth depth).pullBody f inner) d ∧ ∀ results,
      d = .ok results ↔ env.catalogue.promoteSequence items f.signature.returnType = .ok results := by
  have hknown : inner.Known fun _ => inner.scopes := fun _ _ => rfl
  obtain ⟨depth, hitems⟩ := (hknown.meant_evaluate f.body).settles_iff.mp hbody
  rw [show (Meaning.ofDepth depth).plans.evaluate f.body inner = Engine.given fun env =>
    ((Meaning.ofDepth depth).items env inner f.body).result from rfl, Engine.result_given] at hitems
  have htrace := Trace.eq_ofList_of_result hitems
  obtain ⟨d, hd⟩ := Meaning.exists_result_checked 0 items
  refine ⟨d, (meant_pullBody f inner).settles_of_result depth ?_, fun results => ?_⟩
  · rw [Engine.result_given, Meaning.callItems, htrace, Trace.ahead_ofList, hd]
  · rw [← Meaning.result_checked_eq_ok_iff, hd]
    cases d <;> simp [EngineResult.raised, Except.mapError]

/-- **Return types are enforced alike.** Pulling a body that yields items until nothing is left comes to
the promotion of the sequence of these items to the return type; so does the distributed form of a call,
whatever the partitions that hold the items of the body. -/
theorem returnType_enforced_alike (items : Sequence) (f : FunctionItem) (inner : Context) :
    (Settles env (fun depth => (Evaluator.ofDepth depth).plans.evaluate f.body inner) (.ok items) →
      Enforces env (fun depth => (Evaluator.ofDepth depth).pullBody f inner) id
        (env.catalogue.promoteSequence items f.signature.returnType)) ∧
    ∀ (name : String) (arguments : List (Option Plan)) (mode : Mode) (context : Context)
      (rows : Collection Item),
      Settles env (fun depth => (Evaluator.ofDepth depth).plans.fullCall name arguments context)
        (.ok (f, inner)) →
      Settles env (fun depth => (Evaluator.ofDepth depth).plans.bodyRows mode f inner) (.ok rows) →
      rows.records = items →
      Enforces env
        (fun depth => (Evaluator.ofDepth depth).plans.callRows name arguments mode context)
        Collection.records (env.catalogue.promoteSequence items f.signature.returnType) := by
  refine ⟨fun hbody => ?_, fun name arguments mode context rows hcall hrows hitems => ?_⟩
  · obtain ⟨d, hd, hpromoted⟩ := exists_settles_pullBody hbody
    exact .of_settles hd fun results => by rw [id_map, hpromoted]
  · obtain ⟨d, hd, hpromoted⟩ := exists_ends_promoteRows f.signature.returnType rows
    rw [hitems] at hpromoted
    exact .of_settles (hcall.bind (hrows.bind ⟨0, fun _ _ => hd⟩)) hpromoted

/-- Two integers in two partitions, in a function that declares decimal numbers. -/
theorem enforced_over_two_partitions :
    let integer (n : Int) : Plan := .mk .host .unknown (.compute (.literal (.integer n)))
    let f : FunctionItem :=
      { handle := none
        name := some "f"
        parameters := []
        signature := ⟨[], .of .decimal .oneOrMore⟩
        body := .mk .rows .unknown (.compute (.builtin .parallelize
          [.mk .host .unknown (.sequence [integer 1, integer 2]), integer 2]))
        closure := .empty }
    let env : Environment := ⟨1, none, .empty, .empty, .info, [f]⟩
    let promoted : TypeResult Sequence := .ok [.decimal ⟨1, 0⟩, .decimal ⟨2, 0⟩]
    Enforces env (fun depth => (Evaluator.ofDepth depth).pullBody f (.detached .empty)) id promoted ∧
      Enforces env (fun depth => (Evaluator.ofDepth depth).plans.callRows "f" [] .rows .root)
        Collection.records promoted := by
  intro integer f env promoted
  have hbody : Settles env
      (fun depth => (Evaluator.ofDepth depth).plans.evaluate f.body (.detached .empty))
      (.ok [.integer 1, .integer 2]) := (meant_evaluate _ rfl).settles_of_value? 3 rfl
  have hcall : Settles env
      (fun depth => (Evaluator.ofDepth depth).plans.fullCall "f" [] .root)
      (.ok (f, .detached .empty)) :=
    (Meant.of_follows fun h => h.plans.fullCall (.of_unmarked rfl) "f" []).settles_of_value? 0 rfl
  have hrows : Settles env
      (fun depth => (Evaluator.ofDepth depth).plans.bodyRows .rows f (.detached .empty))
      (.ok ⟨[[.integer 1], [.integer 2]]⟩) :=
    (Meant.of_follows fun h => h.plans.bodyRows (.of_unmarked rfl) .rows f).settles_of_value? 3 rfl
  obtain ⟨hpulled, hcalled⟩ :=
    @returnType_enforced_alike env [.integer 1, .integer 2] f (.detached .empty)
  exact ⟨hpulled hbody, hcalled "f" [] .rows .root _ hcall hrows rfl⟩

end HybridQuery
