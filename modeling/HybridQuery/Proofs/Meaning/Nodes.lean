import HybridQuery.Proofs.Meaning.Evaluators

/-!
# Nodes of expressions follow their meaning

For each kind of node: preparing it and pulling it again and again gives the trace that the meaning of
the node says, provided that everything below it keeps to its meaning.

* `Evaluator.starts_sequence`, `Evaluator.starts_navigate`, `Evaluator.starts_flwor` and their like: one
  lemma for each kind of node. Where a node loops, the relation between its state and what is left of
  its trace is stated first, and one round of the loop is shown to keep it.
* `Evaluator.collects_node`, `Evaluator.frames_node`: the distributed and the columnar form.
-/

namespace HybridQuery
namespace Evaluator

open Filter

variable {K : Memory} {L : Prop} {env : Environment} {ev : Evaluator} {M : Meaning}
  {context : Context} {position : SourcePosition}

/-- Starting the node of an operation and pulling it gives a trace. -/
abbrev StartsNode (K : Memory) (L : Prop) (env : Environment) (ev : Evaluator) (context : Context)
    (position : SourcePosition) (operation : Operation) (n : Node) (t : Trace Item) : Prop :=
  Starts L env (ev.startNode context) ev.pullNode (operation.Shapes K position) n t

/-! ## Nodes that hold all their items -/

theorem pulls_computed (computation : Computation) (items : List Item) :
    Pulls L env ev.pullNode ((Operation.compute computation).Shapes K position)
      (.computed computation items) (.ofList items) := by
  induction items with
  | nil => exact ⟨.compute, .bind (.read (.pure ⟨rfl, .compute⟩))⟩
  | cons i rest ih => exact ⟨.compute, .bind (.read (.bind (.write (.pure ⟨rfl, ih⟩))))⟩

theorem starts_compute {computation : Computation} {n : Node} {d : Except Failure Sequence}
    (h : Answers L env (ev.plans.compute context computation) d)
    (hn : (Operation.compute computation).Shapes K position n) :
    StartsNode K L env ev context position (.compute computation) n (.ofResult d) := by
  cases hn
  cases d with
  | error f => exact .inl ⟨f, rfl, .after (.read (.bind h.fails))⟩
  | ok items =>
    exact .inr (.bind (.read (.bind (h.lift (.write (pulls_computed computation items))
      fun _ => id))))

theorem pulls_varRef (name : String) (items : List Item) :
    Pulls L env ev.pullNode ((Operation.varRef name).Shapes K position)
      (.varRef name position items) (.ofList items) := by
  induction items with
  | nil => exact ⟨.varRef, .bind (.read (.pure ⟨rfl, .varRef⟩))⟩
  | cons i rest ih => exact ⟨.varRef, .bind (.read (.bind (.write (.pure ⟨rfl, ih⟩))))⟩

theorem starts_varRef {name : String} {n : Node} (hn : (Operation.varRef name).Shapes K position n) :
    StartsNode K L env ev context position (.varRef name) n
      (Engine.trace (do Engine.items (← Run.ofResult (context.binding name)) position) env) := by
  cases hn
  cases hb : context.binding name with
  | error e =>
    refine .inl ⟨.raised e, rfl, .after (.read (.bind ?_))⟩
    rw [hb]
    exact .raised
  | ok value =>
    have ha : Answers L env (Engine.items value position)
        ((Engine.items value position).result env) :=
      (Tends.items (F := ⊥) (L := L) value position).1.answers
    have ht : Engine.trace (do Engine.items (← Run.ofResult (.ok value)) position) env =
        .ofResult ((Engine.items value position).result env) := rfl
    rw [ht]
    cases hd : (Engine.items value position).result env with
    | error f =>
      rw [hd] at ha
      refine .inl ⟨f, rfl, .after (.read (.after ?_))⟩
      rw [hb]
      exact .pure (.bind ha.fails)
    | ok items =>
      rw [hd] at ha
      refine .inr (.bind (.read (.bind ?_)))
      rw [hb]
      exact .pure (.bind (ha.lift (.write (pulls_varRef name items)) fun _ => id))

/-! ## Conditionals and ranges -/

theorem starts_conditional {condition yes no : Plan} {n : Node} {d : Except Failure Bool}
    (hcond : Answers L env (ev.plans.truth condition context) d)
    (hyes : ev.KeepsPlan K L env M yes context) (hno : ev.KeepsPlan K L env M no context)
    (hn : (Operation.conditional condition yes no).Shapes K position n) :
    StartsNode K L env ev context position (.conditional condition yes no) n
      (.attempt d fun chosen => (M.items env context (if chosen then yes else no)).ahead) := by
  obtain _ | _ | _ | _ | ⟨hy, hn⟩ := hn
  rename_i chosen yes' no'
  refine .of_step (fun Q E h => .bind (.read h)) (.lift hcond fun chosen _ => ?_)
  cases chosen with
  | true =>
    refine .part (hyes.starts hy) (fun _ => id) fun _ yes' hp => .pure ?_
    refine hp.through (w := fun yes' => Node.conditional condition (some true) yes' no')
      (fun _ h => .conditional h.1 hn) fun yes' Q E _ h => .bind (.read ?_)
    refine .bind (.part (h.mono (fun _ _ h => ?_) fun _ => id))
    exact .pure h
  | false =>
    refine .part (hno.starts hn) (fun _ => id) fun _ no' hp => .pure ?_
    refine hp.through (w := fun no' => Node.conditional condition (some false) yes' no')
      (fun _ h => .conditional hy h.1) fun no' Q E _ h => .bind (.read ?_)
    refine .bind (.part (h.mono (fun _ _ h => ?_) fun _ => id))
    exact .pure h

theorem pulls_range_over {first last : Plan} {next : Option Int64} {greatest : Int64}
    (h : ∀ n, next = some n → ¬n ≤ greatest) :
    Pulls L env ev.pullNode ((Operation.range first last).Shapes K position)
      (.range first last next greatest) .done := by
  refine ⟨.range, .bind (.read ?_)⟩
  cases next with
  | none => exact .pure ⟨rfl, .range⟩
  | some n =>
    have hn := h n rfl
    simp only [hn, ↓reduceIte]
    exact .bind (.write (.pure ⟨rfl, .range⟩))

theorem pulls_range {first last : Plan} (count : Nat) {n greatest : Int64}
    (h : (greatest.toInt - n.toInt + 1).toNat = count) :
    Pulls L env ev.pullNode ((Operation.range first last).Shapes K position)
      (.range first last (some n) greatest) (.ofList (Meaning.countUp n count)) := by
  induction count generalizing n with
  | zero =>
    refine pulls_range_over fun m hm => ?_
    cases hm
    rw [Int64.le_iff_toInt_le]
    omega
  | succ count ih =>
    have hle : n ≤ greatest := by
      rw [Int64.le_iff_toInt_le]
      omega
    refine ⟨.range, .bind (.read ?_)⟩
    simp only [hle, ↓reduceIte]
    refine .bind (.write (.pure ⟨rfl, ?_⟩))
    have hmaxValue : Int64.maxValue.toInt = 9223372036854775807 := rfl
    have hgreatest := greatest.toInt_le
    by_cases hmax : n = Int64.maxValue
    · -- there is no integer after the greatest one
      subst hmax
      obtain rfl : count = 0 := by omega
      rw [if_pos rfl]
      exact pulls_range_over (by simp)
    · rw [if_neg hmax]
      have hn : n.toInt ≠ Int64.maxValue.toInt := fun h => hmax (Int64.toInt_inj.mp h)
      have hadd : (n + 1).toInt = n.toInt + 1 := by
        rw [Int64.toInt_add]
        refine Int.bmod_eq_of_le ?_ ?_ <;>
          simp only [show (1 : Int64).toInt = 1 from rfl] <;> have := n.le_toInt <;> omega
      exact ih (by omega)

theorem starts_range {first last : Plan} {n : Node} {low high : Except Failure (Option Int64)}
    (hlow : Answers L env (ev.plans.rangeBound first context) low)
    (hhigh : Answers L env (ev.plans.rangeBound last context) high)
    (hn : (Operation.range first last).Shapes K position n) :
    StartsNode K L env ev context position (.range first last) n
      (.attempt low fun low => .attempt high fun high => .ofList (Meaning.rangeItems low high)) := by
  cases hn
  refine .of_step (fun Q E h => .bind (.read h)) (.lift hlow fun low _ => .lift hhigh fun high _ => ?_)
  rcases low with _ | low <;> rcases high with _ | high
  · exact .inr (.write (pulls_range_over (by simp)))
  · exact .inr (.write (pulls_range_over (by simp)))
  · exact .inr (.write (pulls_range_over (by simp)))
  · exact .inr (.write (pulls_range _ rfl))

/-! ## Sequences -/

section
variable {before rest : List ItemCursor} {current : ItemCursor} {p : Plan} {s : Node}

theorem memberNext_item {i : Item} {t : Trace Item}
    (h : Pulls L env ev.items.next? (p.Shapes K) current (.item i t)) :
    Ensures env (ev.memberNext context before current rest) s
      (fun o s' => o.1 = some i ∧ s' = .sequence before (o.2 :: rest) (some context) ∧
        Pulls L env ev.items.next? (p.Shapes K) o.2 t) (Spent L) := by
  refine .bind (.part (h.2.mono ?_ fun _ => id))
  rintro o c ⟨rfl, hp⟩
  exact .pure ⟨rfl, rfl, hp⟩

theorem memberNext_done (h : Pulls L env ev.items.next? (p.Shapes K) current .done) :
    Ensures env (ev.memberNext context before current rest) s
      (fun o _ => o.1 = none ∧ p.Shapes K o.2) (Spent L) := by
  refine .bind (.part (h.2.mono ?_ fun _ => id))
  rintro o c ⟨rfl, hp⟩
  exact .bind (.part (ensures_release (.pure ⟨rfl, hp.released⟩)))

theorem memberNext_failed {f : Failure}
    (h : Pulls L env ev.items.next? (p.Shapes K) current (.failed f)) :
    Fails L env (ev.memberNext context before current rest) s f := .bind (.part h.2)

/-- What is left of a sequence whose members before the current one are through. -/
inductive SequenceRuns (K : Memory) (L : Prop) (env : Environment) (ev : Evaluator) (M : Meaning)
    (context : Context) (members : List Plan) : Node → Trace Item → Prop where
  | current {through rest : List Plan} {p : Plan} {before after : List ItemCursor} {c : ItemCursor}
    {t : Trace Item} : members = through ++ p :: rest → MembersShape K through before →
    MembersShape K rest after → Pulls L env ev.items.next? (p.Shapes K) c t →
    SequenceRuns K L env ev M context members (.sequence before (c :: after) (some context))
      (t.append (M.memberItems env context rest))
  | ended {before : List ItemCursor} : MembersShape K members before →
    SequenceRuns K L env ev M context members (.sequence before [] (some context)) .done

theorem hands_sequenceNext {members : List Plan} (hc : context.Known K.marks)
    (hkeeps : ∀ p ∈ members, ev.KeepsPlan K L env M p context) (after : List Plan) :
    ∀ {through : List Plan} {p : Plan} {before rest : List ItemCursor} {c : ItemCursor}
      {t : Trace Item} {s : Node}, members = through ++ p :: after → MembersShape K through before →
      MembersShape K after rest → Pulls L env ev.items.next? (p.Shapes K) c t →
      Hands L env (ev.sequenceNext context rest before c) s
        ((Operation.sequence members).Shapes K position) (SequenceRuns K L env ev M context members)
        (t.append (M.memberItems env context after)) := by
  have hknown : ∀ c : Context, some context = some c → c.Known K.marks := by
    rintro c ⟨⟩
    exact hc
  induction after with
  | nil =>
    intro through p before rest c t s hm hb hr hp
    cases hr
    cases t with
    | failed f => exact .fails (memberNext_failed hp)
    | item i t =>
      refine .bind ((memberNext_item hp).mono ?_ fun _ => id)
      rintro ⟨o, c'⟩ s' ⟨rfl, rfl, hp'⟩
      exact .some (.current hm hb .nil hp')
    | done =>
      refine .bind ((memberNext_done hp).mono ?_ fun _ => id)
      rintro ⟨o, c'⟩ s' ⟨rfl, hc⟩
      refine .bind (.write (.none (.sequence ?_ hknown)))
      rw [hm, List.append_nil]
      exact hb.append (.cons hc .nil)
  | cons q after ih =>
    intro through p before rest c t s hm hb hr hp
    obtain _ | ⟨hd, hr⟩ := hr
    rename_i d rest
    cases t with
    | failed f => exact .fails (memberNext_failed hp)
    | item i t =>
      refine .bind ((memberNext_item hp).mono ?_ fun _ => id)
      rintro ⟨o, c'⟩ s' ⟨rfl, rfl, hp'⟩
      exact .some (.current hm hb (.cons hd hr) hp')
    | done =>
      refine .bind ((memberNext_done hp).mono ?_ fun _ => id)
      rintro ⟨o, c'⟩ s' ⟨rfl, hc⟩
      have hq := (hkeeps q (by simp [hm])).starts hd
      obtain ⟨f, hf, hx⟩ | hx := hq
      · rw [Trace.done_append, Meaning.memberItems, hf]
        exact .fails (.bind (.part hx))
      · refine .bind (.bind (.part (hx.mono (fun _ d' hd' => .pure ?_) fun _ => id)))
        refine ih (by simp [hm]) (hb.append (.cons hc .nil)) hr (hd'.mono fun _ => And.left)

theorem pulls_sequence {members : List Plan} (hc : context.Known K.marks)
    (hkeeps : ∀ p ∈ members, ev.KeepsPlan K L env M p context) {n : Node} {t : Trace Item}
    (h : SequenceRuns K L env ev M context members n t) :
    Pulls L env ev.pullNode ((Operation.sequence members).Shapes K position) n t := by
  have hknown : ∀ c : Context, some context = some c → c.Known K.marks := by
    rintro c ⟨⟩
    exact hc
  refine Pulls.of_relation (fun n t h => ?_) (fun n t h => ?_) t n h
  · cases h with
    | current hm hb hr hp => exact .sequence (hm ▸ hb.append (.cons hp.inv hr)) hknown
    | ended hb => exact .sequence (by rwa [List.append_nil]) hknown
  · cases h with
    | current hm hb hr hp =>
      exact .bind (.read (hands_sequenceNext hc hkeeps _ hm hb hr hp))
    | ended hb => exact .bind (.read (.none (.sequence (by rwa [List.append_nil]) hknown)))

theorem starts_sequence {members : List Plan} {n : Node} (hc : context.Known K.marks)
    (hkeeps : ∀ p ∈ members, ev.KeepsPlan K L env M p context)
    (hn : (Operation.sequence members).Shapes K position n) :
    StartsNode K L env ev context position (.sequence members) n
      (M.memberItems env context members) := by
  obtain _ | _ | ⟨hm, -⟩ := hn
  rename_i before after old
  refine .of_step (fun Q E h => .bind (.read h)) ?_
  dsimp only
  generalize before ++ after = cursors at hm ⊢
  cases hm with
  | nil => exact .inr (.write (pulls_sequence hc hkeeps (.ended .nil)))
  | @cons _ p ps c cs hp hs =>
    refine .part ((hkeeps p (by simp)).starts hp) (fun f hf => ?_) fun _ c' hc' => .pure ?_
    · rw [Meaning.memberItems, hf]
      rfl
    · exact pulls_sequence hc hkeeps
        (.current (List.nil_append _).symm .nil hs (hc'.mono fun _ => And.left))

end

/-! ## Navigation -/

/-- What is left of a navigation: results that are not handed out, and input. -/
structure WalkRuns (K : Memory) (L : Prop) (env : Environment) (ev : Evaluator) (context : Context)
    (step : NavigationStep) (input : Plan) (operand : StepOperand) (f : Nat → Item → Trace Item)
    (s : Walk × ItemCursor) (u t : Trace Item) : Prop where
  context_eq : s.1.context = context
  operand_eq : s.1.operand = operand
  pulls : Pulls L env ev.items.next? (input.Shapes K) s.2 u
  applies : ∀ q ∈ u.toList.zipIdx (s.1.place + 1), ∃ d,
    Answers L env (ev.plans.applyStep step operand q.2 q.1 context) d ∧ f q.2 q.1 = .ofResult d
  trace : t = (Trace.ofList s.1.buffer).append (u.bindFrom f (s.1.place + 1))

section
variable {step : NavigationStep} {operand : StepOperand} {input : Plan} {f : Nat → Item → Trace Item}

/-- A round of the loop takes an input item, so that there are no more rounds than input items. -/
theorem hands_walkOn {limit : Nat} {s : Walk × ItemCursor} {u t : Trace Item}
    (hlimit : L ∨ u.toList.length + 1 < limit)
    (h : WalkRuns K L env ev context step input operand f s u t) :
    Hands L env (ev.walkOn step limit) s (fun s' => input.Shapes K s'.2)
      (fun s' t' => ∃ u', u'.toList.length ≤ u.toList.length ∧
        WalkRuns K L env ev context step input operand f s' u' t') t := by
  induction limit generalizing s u t with
  | zero => exact .exhausted (hlimit.resolve_right (by simp))
  | succ limit ih =>
    obtain ⟨⟨context, operand, buffer, place⟩, c⟩ := s
    obtain ⟨rfl, rfl, hp, ha, rfl⟩ := h
    refine .bind (.read ?_)
    cases buffer with
    | cons i rest => exact .bind (.write (.some ⟨u, le_rfl, rfl, rfl, hp, ha, rfl⟩))
    | nil =>
      refine .pull hp (fun hu c' hc' => ?_) (fun e hu => by rw [hu]; rfl) fun i u' hu c' hc' => ?_
      · subst hu
        exact .none hc'
      · subst hu
        simp only [Trace.toList, List.zipIdx_cons, List.mem_cons, forall_eq_or_imp,
          List.length_cons] at ha hlimit
        obtain ⟨⟨d, hd, hf⟩, ha⟩ := ha
        refine .bind (.write ?_)
        simp only [Trace.ofList, Trace.done_append, Trace.bindFrom, hf]
        cases d with
        | error e => exact .fails hd.fails
        | ok found =>
          refine .bind (hd.lift (.bind (.write ?_)) fun _ => id)
          have hruns : WalkRuns K L env ev context step input operand f
              (⟨context, operand, found, place + 1⟩, c') u'
              ((Trace.ofList found).append (u'.bindFrom f (place + 1 + 1))) :=
            ⟨rfl, rfl, hc', ha, rfl⟩
          refine (ih (hlimit.imp_right fun h => by omega) hruns).mono ?_
          rintro s t ⟨u, hu, h⟩
          exact ⟨u, hu.trans (Nat.le_succ _), h⟩

theorem pulls_navigate {s : Walk × ItemCursor} {u t : Trace Item}
    (hlimit : L ∨ u.toList.length + 1 < ev.limit)
    (h : WalkRuns K L env ev context step input operand f s u t) :
    Pulls L env ev.pullNode ((Operation.navigate step input).Shapes K position)
      (.navigate step (some s.1) s.2) t := by
  have hwalk : Pulls L env (ev.walkOn step ev.limit) (fun s => input.Shapes K s.2) s t := by
    refine Pulls.of_relation (R := fun s t => ∃ u, (L ∨ u.toList.length + 1 < ev.limit) ∧
      WalkRuns K L env ev context step input operand f s u t) ?_ ?_ t s ⟨u, hlimit, h⟩
    · rintro s t ⟨u, -, h⟩
      exact h.pulls.inv
    · rintro s t ⟨u, hu, h⟩
      refine (hands_walkOn hu h).mono ?_
      rintro s t ⟨u', hle, h⟩
      exact ⟨u', hu.imp_right fun h => by omega, h⟩
  refine hwalk.through (w := fun s : Walk × ItemCursor => Node.navigate step (some s.1) s.2)
    (fun _ h => Operation.Shapes.navigate h) fun s Q E _ h => .bind (.read ?_)
  refine .bind (.part (h.mono (fun _ _ h => ?_) fun _ => id))
  exact .pure h

/-- The operand is evaluated, and then the input is opened. -/
theorem starts_navigate {n : Node} {d : Except Failure StepOperand}
    (hoperand : Answers L env (ev.plans.stepOperand step context) d)
    (hinput : ev.KeepsPlan K L env M input context)
    (happly : ∀ operand, d = .ok operand →
      ∀ q ∈ (M.items env context input).ahead.toList.zipIdx 1,
        Answers L env (ev.plans.applyStep step operand q.2 q.1 context)
          ((M.plans.applyStep step operand q.2 q.1 context).result env))
    (hlimit : L ∨ (M.items env context input).ahead.toList.length + 1 < ev.limit)
    (hn : (Operation.navigate step input).Shapes K position n) :
    StartsNode K L env ev context position (.navigate step input) n
      (.attempt d fun operand => (M.items env context input).ahead.bindFrom
        (fun place i => (M.plans.applyStep step operand place i context).trace env) 1) := by
  obtain _ | _ | _ | _ | _ | ⟨hin⟩ := hn
  refine .of_step (fun Q E h => .bind (.read h)) ?_
  cases d with
  | error e => exact .inl ⟨e, rfl, .bind (.part (.bind hoperand.fails))⟩
  | ok operand =>
    obtain ⟨f, hf, hx⟩ | hx := hinput.starts hin
    · refine .inl ⟨f, ?_, .bind (.part (.after (hoperand.lift (.bind hx) fun _ => id)))⟩
      rw [Trace.attempt_ok, hf]
      rfl
    · refine .inr (.bind (.part (.bind (hoperand.lift (.bind (hx.mono ?_ fun _ => id))
        fun _ => id))))
      rintro - c hc
      have hruns : WalkRuns K L env ev context step input operand
          (fun place i => (M.plans.applyStep step operand place i context).trace env)
          (⟨context, operand, [], 0⟩, c) (M.items env context input).ahead
          ((M.items env context input).ahead.bindFrom
            (fun place i => (M.plans.applyStep step operand place i context).trace env) 1) :=
        ⟨rfl, rfl, hc.mono fun _ => And.left, fun q hq => ⟨_, happly operand rfl q hq, rfl⟩, rfl⟩
      exact .pure (.write (pulls_navigate hlimit hruns))

end

/-! ## Calls -/

/-- What is left of a call whose body is under way. -/
def CallRuns (K : Memory) (L : Prop) (env : Environment) (ev : Evaluator) (p : Plan) (type : SequenceType)
    (call : Call) (t : Trace Item) : Prop :=
  ∃ body produced u, call = .running body type produced ∧
    Pulls L env ev.items.next? (fun c => p.Shapes K c ∧ c.isOpen = true) body u ∧
    t = Meaning.checked type env.catalogue produced u

theorem hands_callNext {p : Plan} {type : SequenceType} {call : Call} {t : Trace Item}
    (h : CallRuns K L env ev p type call t) :
    Hands L env ev.callNext call (fun _ => True) (CallRuns K L env ev p type) t := by
  obtain ⟨body, produced, u, rfl, hp, rfl⟩ := h
  refine .bind (.read ?_)
  simp only [hp.inv.2, Bool.not_true, Bool.false_eq_true, ↓reduceIte]
  cases u with
  | failed f => exact .fails (.part (.bind hp.2))
  | done =>
    refine .bind (.part (.bind (hp.2.mono ?_ fun _ => id)))
    rintro o c ⟨rfl, -⟩
    refine .bind (.bind (ensures_release (ensures_lift fun _ => .pure ?_)))
    exact .ofResult fun _ _ => .none trivial
  | item i u =>
    refine .bind (.part (.bind (hp.2.mono ?_ fun _ => id)))
    rintro o c ⟨rfl, hc⟩
    refine .pure (.bind (.write (.bind (.environment (.ofResult fun j _ => ?_)))))
    exact .some ⟨c, produced + 1, u, rfl, hc, rfl⟩

theorem pulls_call {p : Plan} {type : SequenceType} {call : Call} {t : Trace Item}
    (h : CallRuns K L env ev p type call t) : Pulls L env ev.callNext (fun _ => True) call t :=
  .of_relation (fun _ _ _ => trivial) (fun _ _ => hands_callNext) t call h

theorem pulls_partially (f : FunctionItem) :
    Pulls L env ev.callNext (fun _ => True) (.partially (some (.function f)))
      (.one (.function f)) := by
  refine ⟨trivial, .bind (.read (.bind (.write (.pure ⟨rfl, trivial, ?_⟩))))⟩
  exact .bind (.read (.bind (.write (.pure ⟨rfl, trivial⟩))))

/-- Opening the body of a call that passed its checks. -/
theorem starts_call {call : FunctionItem × Invocation} {n : Node}
    (hbody : ∀ inner, call.2 = .fully inner → ev.KeepsPlan K L env M call.1.body inner) :
    (∃ f, M.callItems env call = .failed f ∧ Fails L env (Step.lift (ev.startCall call)) n f) ∨
      Ensures env (Step.lift (ev.startCall call)) n
        (fun state _ => Pulls L env ev.callNext (fun _ => True) state (M.callItems env call))
        (Spent L) := by
  obtain ⟨f, left | inner⟩ := call
  · exact .inr (ensures_lift fun _ => pulls_partially left)
  · obtain ⟨e, he, hx⟩ | hx := (hbody inner rfl).starts f.body.shapes_cursor
    · refine .inl ⟨e, by rw [Meaning.callItems, he]; rfl, hx.imp_right fun hx => ?_⟩
      exact .lift_bind (.lift_eval (.bind (hx.mono (fun _ _ h => h.elim) fun _ => id)))
    · refine .inr (.lift_bind (.lift_eval (.bind (hx.mono (fun _ c hc => ?_) fun _ => id))))
      refine .read (.lift_bind (ensures_lift fun _ => ?_))
      exact ensures_lift fun _ => pulls_call ⟨c, 0, _, rfl, hc, rfl⟩

theorem starts_staticCall {name : String} {arguments : List (Option Plan)} {n : Node}
    {d : Except Failure (FunctionItem × Invocation)}
    (hcall : Answers L env (ev.plans.namedCall name arguments context) d)
    (hbody : ∀ f inner, d = .ok (f, .fully inner) → ev.KeepsPlan K L env M f.body inner)
    (hn : (Operation.staticCall name arguments).Shapes K position n) :
    StartsNode K L env ev context position (.staticCall name arguments) n
      (.attempt d (M.callItems env)) := by
  cases hn
  refine .of_step (fun Q E h => .bind (.read h)) (.lift hcall fun call hd => ?_)
  obtain ⟨f, hf, h⟩ | h := starts_call (n := .staticCall name arguments _)
    (fun inner hi => hbody call.1 inner (by rw [hd, ← hi]))
  · exact .inl ⟨f, hf, h.bind⟩
  · refine .inr (.bind (h.mono (fun state _ hp => .write ?_) fun _ => id))
    refine hp.through (w := fun call => Node.staticCall name arguments call)
      (fun _ _ => Operation.Shapes.staticCall) fun call Q E _ h => .bind (.read ?_)
    refine .bind (.part (h.mono (fun _ _ h => ?_) fun _ => id))
    exact .pure h

theorem starts_dynamicCall {function : Plan} {arguments : List (Option Plan)} {n : Node}
    {d : Except Failure (FunctionItem × Invocation)}
    (hcall : Answers L env (ev.plans.computedCall function arguments position context) d)
    (hbody : ∀ f inner, d = .ok (f, .fully inner) → ev.KeepsPlan K L env M f.body inner)
    (hn : (Operation.dynamicCall function arguments).Shapes K position n) :
    StartsNode K L env ev context position (.dynamicCall function arguments) n
      (.attempt d (M.callItems env)) := by
  cases hn
  refine .of_step (fun Q E h => .bind (.read h)) (.lift hcall fun call hd => ?_)
  obtain ⟨f, hf, h⟩ | h := starts_call (n := .dynamicCall function arguments position _)
    (fun inner hi => hbody call.1 inner (by rw [hd, ← hi]))
  · exact .inl ⟨f, hf, h.bind⟩
  · refine .inr (.bind (h.mono (fun state _ hp => .write ?_) fun _ => id))
    refine hp.through (w := fun call => Node.dynamicCall function arguments position call)
      (fun _ _ => Operation.Shapes.dynamicCall) fun call Q E _ h => .bind (.read ?_)
    refine .bind (.part (h.mono (fun _ _ h => ?_) fun _ => id))
    exact .pure h

/-! ## Pipelines -/

/-- What is left of the result for the last tuple. -/
def CurrentRuns (K : Memory) (L : Prop) (env : Environment) (ev : Evaluator) (result : Plan) :
    Option ItemCursor → Trace Item → Prop
  | none, u => u = .done
  | some c, u => Pulls L env ev.items.next? (result.Shapes K) c u

/-- What is left of a pipeline: results for the last tuple, and tuples. -/
structure ProjectRuns (K : Memory) (L : Prop) (env : Environment) (ev : Evaluator) (M : Meaning)
    (context : Context) (pipeline : Pipeline) (result : Plan) (s : Feed × Option ItemCursor)
    (v : Trace Tuple) (t : Trace Item) : Prop where
  feed : Pulls L env ev.nextTuple (pipeline.Shapes K) s.1 v
  keeps : ∀ tuple ∈ v.toList, ev.KeepsPlan K L env M result (tuple.scope context)
  trace : ∃ u, CurrentRuns K L env ev result s.2 u ∧
    t = u.append (v.bind fun tuple => (M.items env (tuple.scope context) result).ahead)

section
variable {pipeline : Pipeline} {result : Plan}

/-- The cursor of the last tuple. -/
theorem hands_currentNext {feed : Feed} {current : Option ItemCursor} {u : Trace Item}
    (h : CurrentRuns K L env ev result current u) :
    Hands L env ev.currentNext (feed, current) (fun s' => s' = (feed, none))
      (fun s' u' => ∃ c, s' = (feed, some c) ∧ CurrentRuns K L env ev result (some c) u') u := by
  refine .bind (.read ?_)
  cases current with
  | none =>
    subst h
    exact .none rfl
  | some c =>
    refine .pull h (fun hu c' hc' => ?_) (fun f hu => hu) fun i u' hu c' hc' => ?_
    · subst hu
      exact .bind (.part (ensures_release (.bind (.write (.none rfl)))))
    · subst hu
      exact .some ⟨c', rfl, hc'⟩

/-- Opening a fresh cursor of the result for a tuple. -/
theorem starts_openResult {context : Context} {s : Feed × Option ItemCursor}
    (h : ev.KeepsPlan K L env M result context) :
    (∃ f, (M.items env context result).ahead = .failed f ∧
      Fails L env (Step.lift (ev.openResult result context)) s f) ∨
      Ensures env (Step.lift (ev.openResult result context)) s
        (fun c _ => CurrentRuns K L env ev result (some c) (M.items env context result).ahead)
        (Spent L) := by
  obtain ⟨f, hf, hx⟩ | hx := h.starts result.shapes_cursor
  · exact .inl ⟨f, hf, hx.imp_right fun hx =>
      .lift_eval (.bind (hx.mono (fun _ _ h => h.elim) fun _ => id))⟩
  · exact .inr (.lift_eval (.bind (hx.mono (fun _ _ hc => .read (hc.mono fun _ => And.left))
      fun _ => id)))

/-- A round of the loop takes a tuple, so that there are no more rounds than tuples. -/
theorem hands_projectNext {limit : Nat} {s : Feed × Option ItemCursor} {v : Trace Tuple}
    {t : Trace Item} (hlimit : L ∨ v.toList.length + 1 < limit)
    (h : ProjectRuns K L env ev M context pipeline result s v t) :
    Hands L env (ev.projectNext result context limit) s (fun s' => pipeline.Shapes K s'.1)
      (fun s' t' => ∃ v', v'.toList.length ≤ v.toList.length ∧
        ProjectRuns K L env ev M context pipeline result s' v' t') t := by
  induction limit generalizing s v t with
  | zero => exact .exhausted (hlimit.resolve_right (by simp))
  | succ limit ih =>
    obtain ⟨feed, current⟩ := s
    obtain ⟨hfeed, hkeeps, u, hu, rfl⟩ := h
    have hcurrent : Hands L env ev.currentNext (feed, current) _ _ _ := hands_currentNext hu
    cases u with
    | failed f => exact .fails (hands_failed.mp hcurrent)
    | item i u =>
      refine .bind ((hands_item.mp hcurrent).mono ?_ fun _ => id)
      rintro o s' ⟨rfl, c, rfl, hc⟩
      exact .some ⟨v, le_rfl, hfeed, hkeeps, u, hc, rfl⟩
    | done =>
      refine .bind ((hands_done.mp hcurrent).mono ?_ fun _ => id)
      rintro o s' ⟨rfl, rfl⟩
      refine .bind (.read (.pull hfeed (fun hv feed' hf => ?_) (fun e hv => by rw [hv]; rfl)
        fun tuple v' hv feed' hf => ?_))
      · subst hv
        exact .none hf
      · subst hv
        simp only [Trace.toList, List.mem_cons, forall_eq_or_imp, List.length_cons] at hkeeps hlimit
        simp only [Trace.done_append, Trace.item_bind]
        obtain ⟨f, ht, hx⟩ | hx := starts_openResult (s := (feed', none)) hkeeps.1
        · rw [ht]
          exact .fails hx
        · refine .bind (hx.mono (fun c _ hc => .bind (.write ?_)) fun _ => id)
          have hruns : ProjectRuns K L env ev M context pipeline result (feed', some c) v' _ :=
            ⟨hf, hkeeps.2, _, hc, rfl⟩
          refine (ih (hlimit.imp_right fun h => by omega) hruns).mono ?_
          rintro s t ⟨v, hv, h⟩
          exact ⟨v, hv.trans (Nat.le_succ _), h⟩

theorem pulls_flwor {s : Feed × Option ItemCursor} {v : Trace Tuple} {t : Trace Item}
    (hlimit : L ∨ v.toList.length + 1 < ev.limit)
    (h : ProjectRuns K L env ev M context pipeline result s v t) :
    Pulls L env ev.pullNode ((Operation.flwor pipeline result).Shapes K position)
      (.flwor result (some context) s.1 s.2) t := by
  have hproject : Pulls L env (ev.projectNext result context ev.limit)
      (fun s => pipeline.Shapes K s.1) s t := by
    refine Pulls.of_relation (R := fun s t => ∃ v, (L ∨ v.toList.length + 1 < ev.limit) ∧
      ProjectRuns K L env ev M context pipeline result s v t) ?_ ?_ t s ⟨v, hlimit, h⟩
    · rintro s t ⟨v, -, h⟩
      exact h.feed.inv
    · rintro s t ⟨v, hv, h⟩
      refine (hands_projectNext hv h).mono ?_
      rintro s t ⟨v', hle, h⟩
      exact ⟨v', hv.imp_right fun h => by omega, h⟩
  refine hproject.through
    (w := fun s : Feed × Option ItemCursor => Node.flwor result (some context) s.1 s.2)
    (fun _ h => Operation.Shapes.flwor h) fun s Q E _ h => .bind (.read ?_)
  refine .bind (.part (h.mono (fun _ _ h => ?_) fun _ => id))
  exact .pure h

theorem starts_flwor {n : Node} (hfeed : ev.KeepsFeed K L env M pipeline context)
    (hkeeps : ∀ tuple ∈ (M.feed env context pipeline).toList,
      ev.KeepsPlan K L env M result (tuple.scope context))
    (hlimit : L ∨ (M.feed env context pipeline).toList.length + 1 < ev.limit)
    (hn : (Operation.flwor pipeline result).Shapes K position n) :
    StartsNode K L env ev context position (.flwor pipeline result) n
      ((M.feed env context pipeline).bind fun tuple =>
        (M.items env (tuple.scope context) result).ahead) := by
  obtain _ | _ | _ | _ | _ | _ | _ | _ | ⟨hf⟩ := hn
  refine .of_step (fun Q E h => .bind (.read h)) (.part (hfeed.opens _ hf)
    (fun f hv => by rw [hv]; rfl) fun _ feed' hp => .write ?_)
  exact pulls_flwor (s := (feed', none)) hlimit ⟨hp, hkeeps, .done, rfl, rfl⟩

end

/-! ## Distributed and columnar forms -/

theorem memberRows_steady {members : List Plan} {done : Collection Item}
    (h : ∀ p ∈ members, (M.rows p context).Steady env) :
    (M.memberRows context done members).Steady env := by
  induction members generalizing done with
  | nil => exact fun _ => rfl
  | cons p rest ih =>
    exact Tends.steady_bind (h p (by simp)) fun rows => ih fun q hq => h q (by simp [hq])

theorem gives_memberRows {members : List Plan} {d : Collection Item}
    (hkeeps : ∀ p ∈ members, ev.KeepsPlan K L env M p context)
    (hsteady : ∀ p ∈ members, (M.rows p context).Steady env) :
    ∀ {through : List Plan} {before after : List ItemCursor} {n : Node},
      MembersShape K through before → MembersShape K members after →
      (Operation.sequence (through ++ members)).Shapes K position n →
      Gives L env (ev.memberRows context d before after) n
        ((Operation.sequence (through ++ members)).Shapes K position)
        ((M.memberRows context d members).result env) := by
  induction members generalizing d with
  | nil =>
    intro through before after n hb ha hn
    cases ha
    exact .pure hn
  | cons p rest ih =>
    intro through before after n hb ha hn
    obtain _ | ⟨hp, ha⟩ := ha
    have hrest : ∀ q ∈ rest, (M.rows q context).Steady env := fun q hq => hsteady q (by simp [hq])
    rw [Meaning.memberRows, Engine.result_bind fun rows _ => memberRows_steady hrest]
    refine ((hkeeps p (by simp)).rows _ hp).part fun rows c _ hc => ?_
    have := ih (fun q hq => hkeeps q (by simp [hq])) hrest (d := d.union rows)
      (hb.append (.cons hc .nil)) ha (n := .sequence [] (before ++ c :: _) none)
      (.sequence (by simpa using hb.append (.cons hc ha)) fun _ h => nomatch h)
    simpa using this

theorem Follows.operationRows_steady {F : Filter ℕ} {evs : ℕ → Evaluator}
    (h : Follows K F L env evs M) (hc : context.Known K.marks) (mode : Mode)
    (operation : Operation) : (M.operationRows mode context operation).Steady env := by
  cases operation with
  | compute computation =>
    cases computation with
    | builtin b arguments => exact (h.plans.sourceRows hc b arguments).1
    | _ => exact fun _ => rfl
  | varRef name => exact ((Tends.ofResult (F := F) (L := L) _).bind fun v => .rows v).1
  | sequence members => exact memberRows_steady fun p _ => h.rows p context hc
  | navigate step input =>
    simp only [Meaning.operationRows]
    split
    · exact Tends.steady_bind (h.plans.stepFrame_steady hc (h.frame input context hc)) fun _ _ => rfl
    · exact ((h.plans.stepOperand hc step).bind fun operand =>
        (Tends.of_steady (h.rows input context hc)).bind fun rows =>
          h.plans.stepRows step operand rows context).1
  | staticCall name arguments => exact (h.plans.callRows hc name arguments mode).1
  | flwor pipeline result =>
    exact Tends.steady_bind (h.feedRows pipeline context hc) fun tuples =>
      (h.plans.projectedRows result tuples).1
  | range | conditional | dynamicCall => exact fun _ => rfl

theorem Follows.navigateRows {F : Filter ℕ} {evs : ℕ → Evaluator} (h : Follows K F L env evs M)
    (hc : context.Known K.marks) (mode : Mode) (step : NavigationStep) (input : Plan) :
    ∀ᶠ j in F, ∀ c, input.Shapes K c →
      Gives L env ((evs j).navigateRows step mode context) c (input.Shapes K)
        ((M.operationRows mode context (.navigate step input)).result env) := by
  filter_upwards [h.plan input context hc, (h.plans.stepOperand hc step).2,
    eventually_of_ok fun operand (_ : (M.plans.stepOperand step context).result env = .ok operand) =>
      eventually_of_ok fun rows (_ : (M.rows input context).result env = .ok rows) =>
        (h.plans.stepRows step operand rows context).2] with j hj hoperand hstep c hin
  cases hm : mode.isColumnar with
  | true =>
    simp only [Meaning.operationRows, Evaluator.navigateRows, hm, ↓reduceIte]
    rw [Engine.result_bind fun _ _ _ => rfl]
    refine .bind (.read ((Gives.lift (PlanEvaluator.Follows.stepFrame_answers
      (h.frame input context hc) hoperand (hj.frame c hin)) hin).bind_of fun frame c _ hc => ?_))
    exact .pure hc
  | false =>
    simp only [Meaning.operationRows, Evaluator.navigateRows, hm, Bool.false_eq_true, ↓reduceIte]
    rw [Engine.result_bind fun operand _ => Tends.steady_bind (h.rows input context hc) fun rows =>
      (h.plans.stepRows step operand rows context).1]
    refine (Gives.lift hoperand hin).bind_of fun operand c hd hin => ?_
    rw [Engine.result_bind fun rows _ => (h.plans.stepRows step operand rows context).1]
    exact (hj.rows c hin).bind_of fun rows c hd' hin => .lift (hstep operand hd rows hd') hin

theorem Follows.collectNode {F : Filter ℕ} {evs : ℕ → Evaluator} (h : Follows K F L env evs M)
    (hc : context.Known K.marks) (mode : Mode) (operation : Operation)
    (position : SourcePosition) : ∀ᶠ j in F, ∀ n, operation.Shapes K position n →
      Gives L env ((evs j).collectNode mode context) n (operation.Shapes K position)
        ((M.operationRows mode context operation).result env) := by
  cases operation with
  | compute computation =>
    cases computation with
    | builtin b arguments =>
      filter_upwards [(h.plans.sourceRows hc b arguments).2] with j hj n hn
      cases hn
      exact .bind (.read (.lift hj .compute))
    | _ =>
      refine .of_forall fun j n hn => ?_
      cases hn
      exact .bind (.read (gives_error.mpr .raised))
  | varRef name =>
    refine .of_forall fun j n hn => ?_
    cases hn
    refine .bind (.read ?_)
    simp only [Meaning.operationRows]
    rw [Engine.result_bind fun value _ => (Tends.rows (F := F) (L := L) value).1,
      Engine.result_ofResult]
    exact (Gives.ofResult .varRef).bind_of fun value _ _ hn =>
      .lift (Tends.rows (F := F) (L := L) value).1.answers hn
  | sequence members =>
    filter_upwards [eventually_forall_mem (l := members) fun p => h.plan p context hc] with j hj n hn
    obtain _ | _ | ⟨hm, hknown⟩ := hn
    exact .bind (.read (gives_memberRows hj (fun p _ => h.rows p context hc) .nil hm
      (.sequence hm hknown)))
  | navigate step input =>
    filter_upwards [h.navigateRows hc mode step input] with j hj n hn
    obtain _ | _ | _ | _ | _ | ⟨hin⟩ := hn
    exact .bind (.read ((hj _ hin).whole fun c hc => .navigate hc))
  | staticCall name arguments =>
    filter_upwards [(h.plans.callRows hc name arguments mode).2] with j hj n hn
    cases hn
    exact .bind (.read (.lift hj .staticCall))
  | flwor pipeline result =>
    filter_upwards [h.feed pipeline context hc,
      eventually_of_ok fun tuples (_ : (M.feedRows context pipeline).result env = .ok tuples) =>
        (h.plans.projectedRows result tuples).2] with j hfeed hj n hn
    obtain _ | _ | _ | _ | _ | _ | _ | _ | ⟨hf⟩ := hn
    refine .bind (.read ?_)
    have hrows : Gives L env ((evs j).returnRows result context) _ (pipeline.Shapes K) _ :=
      (hfeed.rows _ hf).bind_of fun tuples feed hd hs => .lift (hj tuples hd) hs
    simp only [Meaning.operationRows]
    rw [Engine.result_bind fun tuples _ =>
      (h.plans.projectedRows result tuples).1]
    exact hrows.whole fun feed hf => Operation.Shapes.flwor hf
  | range | conditional | dynamicCall =>
    refine .of_forall fun j n hn => ?_
    cases hn
    exact .bind (.read (gives_error.mpr .raised))

theorem Follows.operationFrame_steady {F : Filter ℕ} {evs : ℕ → Evaluator}
    (h : Follows K F L env evs M) (hc : context.Known K.marks) (operation : Operation) :
    (M.operationFrame context operation).Steady env := by
  cases operation with
  | compute computation =>
    cases computation with
    | builtin b arguments => exact (h.plans.sourceFrame hc b arguments).1
    | _ => exact fun _ => rfl
  | varRef name =>
    refine Tends.steady_bind (Tends.ofResult (F := F) (L := L) _).1 fun value => ?_
    cases value <;> exact fun _ => rfl
  | navigate step input => exact h.plans.stepFrame_steady hc (h.frame input context hc)
  | staticCall name arguments => exact (h.plans.callFrame hc name arguments).1
  | sequence | range | conditional | dynamicCall | flwor => exact fun _ => rfl

theorem Follows.frameNode {F : Filter ℕ} {evs : ℕ → Evaluator} (h : Follows K F L env evs M)
    (hc : context.Known K.marks) (operation : Operation) (position : SourcePosition) :
    ∀ᶠ j in F, ∀ n, operation.Shapes K position n →
      Answers L env ((evs j).frameNode n context) ((M.operationFrame context operation).result env) := by
  cases operation with
  | compute computation =>
    cases computation with
    | builtin b arguments =>
      filter_upwards [(h.plans.sourceFrame hc b arguments).2] with j hj n hn
      cases hn
      exact hj
    | _ =>
      refine .of_forall fun j n hn => ?_
      cases hn
      exact (Tends.fail (F := F) (L := L) _).1.answers
  | varRef name =>
    refine .of_forall fun j n hn => ?_
    cases hn
    exact (h.operationFrame_steady hc (.varRef name)).answers
  | navigate step input =>
    filter_upwards [h.plan input context hc, (h.plans.stepOperand hc step).2] with j hj hoperand n hn
    obtain _ | _ | _ | _ | _ | ⟨hin⟩ := hn
    exact PlanEvaluator.Follows.stepFrame_answers (h.frame input context hc) hoperand
      (hj.frame _ hin)
  | staticCall name arguments =>
    filter_upwards [(h.plans.callFrame hc name arguments).2] with j hj n hn
    cases hn
    exact hj
  | sequence | range | conditional | dynamicCall | flwor =>
    refine .of_forall fun j n hn => ?_
    cases hn
    exact (Tends.fail (F := F) (L := L) _).1.answers

/-! ## All nodes -/

/-- The body of a call is kept to, if there is one to evaluate. -/
theorem Follows.bodies {F : Filter ℕ} {evs : ℕ → Evaluator} (h : Follows K F L env evs M)
    {d : Except Failure (FunctionItem × Invocation)}
    (hd : ∀ f inner, d = .ok (f, .fully inner) → inner.handle = none) :
    ∀ᶠ j in F, ∀ f inner, d = .ok (f, .fully inner) → (evs j).KeepsPlan K L env M f.body inner := by
  rcases d with e | ⟨f, left | inner⟩
  · exact .of_forall fun j f inner hf => nomatch hf
  · exact .of_forall fun j f inner hf => nomatch hf
  · filter_upwards [h.plan f.body inner (.of_unmarked (hd f inner rfl))] with j hj f' inner' hf
    cases hf
    exact hj

theorem Follows.startNode {F : Filter ℕ} {evs : ℕ → Evaluator} (h : Follows K F L env evs M)
    (hc : context.Known K.marks) (operation : Operation) (position : SourcePosition) :
    ∀ᶠ j in F, ∀ n, operation.Shapes K position n →
      StartsNode K L env (evs j) context position operation n
        (M.operationItems env context position operation) := by
  cases operation with
  | compute computation =>
    filter_upwards [(h.plans.compute hc computation).2] with j hj n hn
    exact starts_compute hj hn
  | varRef name => exact .of_forall fun j n hn => starts_varRef hn
  | sequence members =>
    filter_upwards [eventually_forall_mem (l := members) fun p => h.plan p context hc] with j hj n hn
    exact starts_sequence hc hj hn
  | range first last =>
    filter_upwards [(h.plans.rangeBound hc first).2, (h.plans.rangeBound hc last).2] with j hf hl n hn
    exact starts_range hf hl hn
  | conditional condition yes no =>
    filter_upwards [(h.plans.truth hc condition).2, h.plan yes context hc, h.plan no context hc]
      with j hcond hy hn n hs
    exact starts_conditional hcond hy hn hs
  | navigate step input =>
    filter_upwards [(h.plans.stepOperand hc step).2, h.plan input context hc, h.limit _,
      eventually_of_ok fun operand (_ : (M.plans.stepOperand step context).result env = .ok operand) =>
        eventually_forall_mem (l := (M.items env context input).ahead.toList.zipIdx 1) fun q =>
          (h.plans.applyStep step operand q.2 q.1 context).2] with j hoperand hinput hl happly n hn
    exact starts_navigate hoperand hinput happly hl hn
  | staticCall name arguments =>
    filter_upwards [(h.plans.namedCall hc name arguments).2, h.bodies fun f inner hd =>
      h.plans.namedCall_unmarked hc hd] with j hcall hbody n hn
    exact starts_staticCall hcall hbody hn
  | dynamicCall function arguments =>
    filter_upwards [(h.plans.computedCall hc function arguments position).2, h.bodies fun f inner hd =>
      h.plans.computedCall_unmarked hc hd] with j hcall hbody n hn
    exact starts_dynamicCall hcall hbody hn
  | flwor pipeline result =>
    filter_upwards [h.feed pipeline context hc, h.limit _,
      eventually_forall_mem (l := (M.feed env context pipeline).toList) fun tuple =>
        h.plan result (tuple.scope context) (tuple.known_scope context)] with j hfeed hl hkeeps n hn
    exact starts_flwor hfeed hkeeps hl hn

end Evaluator
end HybridQuery
