import HybridQuery.Proofs.Cursors.Nodes
import HybridQuery.Proofs.Meaning.Success

/-!
# Cursors forget their past

A host opens, resets, pulls, closes and copies the cursors of a plan in any order, in any contexts, and
some of its calls fail. Whatever it did, opening a cursor in a context makes it hand out the value of
the plan in that context.

* `CursorCall`, `HostAction`: what a host does. `Host.performAll` does it.
* `Host.Within.performAll`: all cursors of a host stay cursors of its plan.
* `HandsOut`, `IsOver`: what it takes to be a cursor over given items.
* `Memory.within_ofDepth`: what a cursor kept in its past is what the meaning of any depth says, as far
  as it says anything.
* `Host.isOver_of_settles`: every cursor is a cursor over the value of its plan.
-/

namespace HybridQuery

open Filter

variable {env : Environment} {marks : Nat → List Bindings}

/-! ## Hosts -/

/-- What can be asked of a cursor. -/
inductive CursorCall where
  | openIn (context : Context)
  | reset (context : Context)
  | next
  | close
  | collection (context : Context)
  | frame (context : Context)

namespace CursorCall

/-- The context that a call names is one that handles tell apart. -/
def Known (marks : Nat → List Bindings) : CursorCall → Prop
  | openIn context | reset context | collection context | frame context => context.Known marks
  | next | close => True

/-- Carries out a call and drops what it gives. -/
def run (ev : Evaluator) : CursorCall → Step ItemCursor Unit
  | openIn context => ev.items.openIn context
  | reset context => ev.items.reset context
  | next => do
    let _ ← ev.items.next
  | close => Cursor.release
  | collection context => do
    let _ ← ev.items.collection context
  | frame context => do
    let c ← Step.read
    let _ ← Step.lift (ev.frameOf c context)

end CursorCall

/-- What a host does with its cursors. -/
inductive HostAction where
  | call (index : Nat) (call : CursorCall)
  /-- Adds a copy of a cursor behind the others. -/
  | copy (index : Nat)

namespace HostAction

/-- The contexts of an action are told apart by their handles. -/
def Known (marks : Nat → List Bindings) : HostAction → Prop
  | .call _ asked => asked.Known marks
  | .copy _ => True

/-- Whether an action calls the cursor at an index. -/
def Calls (index : Nat) : HostAction → Prop
  | .call called _ => called = index
  | .copy _ => False

end HostAction

/-- What a step leaves behind, also when it fails. -/
def Step.leaves {σ β : Type} (x : Step σ β) (env : Environment) (s : σ × RunRecord) :
    σ × RunRecord :=
  match x env s with
  | .ok _ s => s
  | .error _ s => s

/-- A host: its cursors, and what was recorded. -/
structure Host where
  cursors : List ItemCursor
  record : RunRecord

namespace Host

/-- Does one thing. A call that fails leaves the cursor as it is then. -/
def perform (env : Environment) (ev : Evaluator) (host : Host) : HostAction → Host
  | .call index call =>
    match host.cursors[index]? with
    | some c =>
      let (c, record) := (call.run ev).leaves env (c, host.record)
      ⟨host.cursors.set index c, record⟩
    | none => host
  | .copy index =>
    match host.cursors[index]? with
    | some c => { host with cursors := host.cursors ++ [c.closed] }
    | none => host

/-- Does one thing after the other. -/
def performAll (env : Environment) (ev : Evaluator) (host : Host) (actions : List HostAction) :
    Host :=
  actions.foldl (perform env ev) host

variable {ev : Evaluator}

/-- A cursor that is not called stays as it is, whatever else is called and copied. -/
theorem perform_of_not_calls {host : Host} {action : HostAction} {index : Nat} {c : ItemCursor}
    (h : ¬ action.Calls index) (hc : host.cursors[index]? = some c) :
    (host.perform env ev action).cursors[index]? = some c := by
  cases action with
  | call called call =>
    rw [perform]
    split
    · exact (List.getElem?_set_ne h).trans hc
    · exact hc
  | copy copied =>
    rw [perform]
    split
    · exact (List.getElem?_append_left (List.getElem?_eq_some_iff.mp hc).1).trans hc
    · exact hc

theorem performAll_of_not_calls {host : Host} {actions : List HostAction} {index : Nat}
    {c : ItemCursor} (h : ∀ action ∈ actions, ¬ action.Calls index)
    (hc : host.cursors[index]? = some c) :
    (host.performAll env ev actions).cursors[index]? = some c := by
  induction actions generalizing host with
  | nil => exact hc
  | cons action actions ih =>
    exact ih (fun a ha => h a (by simp [ha])) (perform_of_not_calls (h action (by simp)) hc)

end Host

/-! ### What hosts keep -/

theorem Keeps.leaves {σ β : Type} {x : Step σ β} {I : σ → Prop} (h : Keeps env x I)
    {s : σ × RunRecord} (hs : I s.1) : I (x.leaves env s).1 := by
  have := h s.1 hs s.2
  rw [Step.leaves]
  cases hx : x env s with
  | ok b s' => rw [hx] at this; exact this
  | error f s' => rw [hx] at this; exact this

theorem CursorCall.keeps {K : Memory} {ev : Evaluator} (h : ev.KeepsShapes K env) (p : Plan)
    {call : CursorCall} (hcall : call.Known K.marks) : Keeps env (call.run ev) (p.Shapes K) := by
  cases call with
  | openIn context => exact h.openIn p context hcall
  | reset context => exact h.reset p context hcall
  | next => exact .bind (h.next p) fun _ => .pure
  | close => exact fun c hc => Rules.leaves_release hc.released hc.released
  | collection context => exact .bind (h.collection p context hcall) fun _ => .pure
  | frame context =>
    exact fun c hc => .bind (.read (.bind (.lift (fun _ => .pure hc) hc)))

/-- All cursors of a host are cursors of a plan, over what may be kept. -/
def Host.Within (K : Memory) (p : Plan) (host : Host) : Prop := ∀ c ∈ host.cursors, p.Shapes K c

namespace Host.Within

variable {K : Memory} {ev : Evaluator} {p : Plan} {host : Host}

theorem perform (hev : ev.KeepsShapes K env) (h : host.Within K p) {action : HostAction}
    (haction : action.Known K.marks) : (host.perform env ev action).Within K p := by
  intro c hc
  cases action with
  | call index call =>
    rw [Host.perform] at hc
    split at hc
    · next called hcalled =>
      obtain hold | rfl := List.mem_or_eq_of_mem_set hc
      · exact h c hold
      · exact (call.keeps hev p haction).leaves (h called (List.mem_of_getElem? hcalled))
    · exact h c hc
  | copy index =>
    rw [Host.perform] at hc
    split at hc
    · next copied hcopied =>
      obtain hold | hnew := List.mem_append.mp hc
      · exact h c hold
      · rw [List.mem_singleton.mp hnew]
        exact (h copied (List.mem_of_getElem? hcopied)).released
    · exact h c hc

theorem performAll (hev : ev.KeepsShapes K env) (h : host.Within K p) {actions : List HostAction}
    (hactions : ∀ action ∈ actions, action.Known K.marks) :
    (host.performAll env ev actions).Within K p := by
  induction actions generalizing host with
  | nil => exact h
  | cons action actions ih =>
    exact ih (h.perform hev (hactions action (by simp))) fun a ha => hactions a (by simp [ha])

end Host.Within

/-! ## Cursors over items -/

section
variable (env : Environment) (ev : Evaluator)

/-- Asking for a result is refused with a flow error and changes nothing. -/
def RefusesNext (c : ItemCursor) : Prop :=
  ∀ record, ∃ e : EngineError,
    ev.items.next env (c, record) = .error (.raised e) (c, record) ∧ e.code = .iteratorFlow

/-- An open cursor that hands out the items of a list one after the other and then has no more. -/
def HandsOut : Sequence → ItemCursor → Prop
  | [], c => c.isOpen = true ∧ c.hasNext = false ∧ RefusesNext env ev c
  | i :: rest, c => c.isOpen = true ∧ c.hasNext = true ∧ ∀ record, ∃ c' record',
    ev.items.next env (c, record) = .ok i (c', record') ∧ HandsOut rest c'

/-- A cursor that hands out some items whenever it is opened in a context. -/
structure IsOver (context : Context) (items : Sequence) (c : ItemCursor) : Prop where
  opens : ∀ record, ∃ c' record',
    ev.items.openIn context env (c, record) = .ok () (c', record') ∧ HandsOut env ev items c'
  resets : ∀ record, ∃ c' record',
    ev.items.reset context env (c, record) = .ok () (c', record') ∧ HandsOut env ev items c'
  refuses : c.hasNext = false → RefusesNext env ev c
  closes : ∀ record, ∃ record', Cursor.release env (c, record) = .ok () (c.closed, record')
  /-- A cursor that was closed, and also a copy of the cursor. -/
  closed : c.closed.isOpen = false ∧ c.closed.hasNext = false
  closes_again : ∀ record, Cursor.release env (c.closed, record) = .ok () (c.closed, record)

end

theorem refusesNext_of_not_hasNext {ev : Evaluator} {c : ItemCursor} (h : c.hasNext = false) :
    RefusesNext env ev c := by
  intro record
  obtain ⟨mode, position, ⟨isOpen, pending⟩, materialized, memo, node⟩ := c
  cases isOpen with
  | false => exact ⟨_, rfl, rfl⟩
  | true =>
    cases pending with
    | none => exact ⟨_, rfl, rfl⟩
    | some i => exact nomatch h

/-- Closing a cursor that is closed changes nothing and counts nothing. -/
theorem Cursor.release_closed (c : ItemCursor) (record : RunRecord) :
    Cursor.release env (c.closed, record) = .ok () (c.closed, record) := by
  have hbodies : CursorNode.openBodies c.closed.node = 0 := Node.openBodies_closed c.node
  change EStateM.Result.ok () (c.closed.closed, _) = _
  rw [c.closed_closed, hbodies]
  rfl

/-! ### From traces -/

theorem Ensures.succeeds {σ β : Type} {x : Step σ β} {s : σ} {Q : β → σ → Prop}
    (h : Ensures env x s Q (Spent False)) (record : RunRecord) :
    ∃ b s' record', x env (s, record) = .ok b (s', record') ∧ Q b s' := by
  have := h record
  cases hx : x env (s, record) with
  | ok b s' => rw [hx] at this; exact ⟨b, s'.1, s'.2, rfl, this⟩
  | error f s' => rw [hx] at this; exact this.1.elim

theorem Trace.ofList_ne_failed {α : Type} (l : List α) (f : Failure) : Trace.ofList l ≠ .failed f := by
  cases l <;> exact fun h => nomatch h

namespace Rules

variable {ev : Evaluator} {mode : Mode} {position : SourcePosition} {S : Node → Prop}
  {V : Nat → Collection Item → Prop} {c : ItemCursor} {items : Sequence}

/-- An open cursor that holds a list hands it out. -/
theorem Holding.handsOut
    (h : ev.items.Holding mode position S V False env c (.ofList items)) :
    HandsOut env ev items c := by
  induction items generalizing c with
  | nil =>
    have hn : c.hasNext = false := by simpa [Trace.ofList, Trace.isEmpty] using h.hasNext
    exact ⟨h.isOpen, hn, refusesNext_of_not_hasNext hn⟩
  | cons i rest ih =>
    have hn : c.hasNext = true := by simpa [Trace.ofList, Trace.isEmpty] using h.hasNext
    refine ⟨h.isOpen, hn, fun record => ?_⟩
    obtain ⟨_, c', record', hnext, rfl, h'⟩ :=
      (h.next.ensures (Trace.ofList_ne_failed rest)).succeeds record
    exact ⟨c', record', hnext, ih h'⟩

theorem Yields.handsOut {x : Step ItemCursor Unit}
    (h : ev.items.Yields mode position S V False env x c () (.ofList items)) (record : RunRecord) :
    ∃ c' record', x env (c, record) = .ok () (c', record') ∧ HandsOut env ev items c' := by
  obtain ⟨_, c', record', hx, -, h'⟩ := (h.ensures (Trace.ofList_ne_failed items)).succeeds record
  exact ⟨c', record', hx, h'.handsOut⟩

end Rules

/-- Driving the cursors of a plan gives a list, and so all of them are cursors over it. -/
theorem Evaluator.KeepsPlan.isOver {K : Memory} {ev : Evaluator} {M : Meaning} {p : Plan}
    {context : Context} {items : Sequence} (h : ev.KeepsPlan K False env M p context)
    (hitems : M.items env context p = .ofList items) {c : ItemCursor} (hc : p.Shapes K c) :
    IsOver env ev context items c where
  opens := (hitems ▸ h.opens c hc).handsOut
  resets := (hitems ▸ h.resets c hc).handsOut
  refuses := refusesNext_of_not_hasNext
  closes _ := ⟨_, rfl⟩
  closed := ⟨rfl, rfl⟩
  closes_again := Cursor.release_closed c

/-! ## What was kept before -/

/-- What a distributed form was when it was kept is what it means at any depth. -/
theorem Meant.standsFor {α : Type} {x y : ℕ → Engine (Collection α)} (h : Meant env x y)
    {depth : Nat} {rows : Collection α} (hrows : StandsFor True ((y depth).result env) rows)
    (other : Nat) : StandsFor False ((y other).result env) rows := by
  have hrows := hrows.resolve_left fun h => h.2 trivial
  exact (h.consistent hrows).imp_left fun h => ⟨h, id⟩

namespace Memory

/-- What may be kept by the meaning of one depth may be kept by the meaning of another one, where that
one says anything. -/
theorem Within.over {K K' : Memory} (h : K.Within K') (depth other : Nat) :
    (K.over True env (NodeMeaning.ofDepth depth)).Within
      (K'.over False env (NodeMeaning.ofDepth other)) where
  marks := h.marks
  items n p handle rows hrows := by
    cases n with
    | zero =>
      have hc : Context.Known K.marks ⟨some handle, K.marks handle⟩ := fun _ hs => by cases hs; rfl
      have := (hc.meant_rows p).standsFor hrows other
      rwa [h.marks] at this
    | succ n => exact h.items n p handle rows hrows
  tuples n mode position operation before handle rows hrows := by
    cases n with
    | zero =>
      have hc : Context.Known K.marks ⟨some handle, K.marks handle⟩ := fun _ hs => by cases hs; rfl
      have := (hc.meant_feedRows (.clause mode position operation before)).standsFor hrows other
      rwa [h.marks] at this
    | succ n => exact h.tuples n mode position operation before handle rows hrows

theorem within_belowDepth (depth more : Nat) :
    (belowDepth marks True env (depth + more)).Within (belowDepth marks False env depth) := by
  induction depth with
  | zero => exact ⟨belowDepth_marks _, fun _ _ _ _ _ => trivial, fun _ _ _ _ _ _ _ _ => trivial⟩
  | succ depth ih =>
    rw [Nat.add_right_comm]
    exact ih.over (depth + more) depth

/-- What cursors keep when they are evaluated deep is what any smaller depth means. -/
theorem within_ofDepth (depth more : Nat) :
    (ofDepth marks True env (depth + more)).Within (ofDepth marks False env depth) :=
  (within_belowDepth depth more).over (depth + more) depth

end Memory

/-! ## Cursors over the values of plans -/

/-- Where the meaning of some depth gives a list of items, every cursor is a cursor over that list. -/
theorem Host.isOver_of_items {p : Plan} {context : Context} {items : Sequence} {depth : Nat}
    (hcontext : context.Known marks)
    (htrace : (Meaning.ofDepth depth).items env context p = .ofList items) :
    ∃ depth, ∀ deeper, depth ≤ deeper → ∀ (actions : List HostAction) (record : RunRecord),
      (∀ action ∈ actions, action.Known marks) →
        let ev := Evaluator.ofDepth deeper
        let host := Host.performAll env ev ⟨[p.cursor], record⟩ actions
        ∀ index c, host.cursors[index]? = some c → IsOver env ev context items c ∧
          ∀ others, (∀ action ∈ others, ¬ action.Calls index) →
            (host.performAll env ev others).cursors[index]? = some c := by
  have hfollows : ∀ᶠ j in atTop, (Evaluator.ofDepth (depth + j)).KeepsPlan
      (.ofDepth marks False env depth) False env (Meaning.ofDepth depth) p context :=
    (Evaluator.follows_eventually marks depth).plan p context (by rwa [Memory.ofDepth_marks])
  obtain ⟨more, hmore⟩ := eventually_atTop.mp hfollows
  refine ⟨depth + more, fun deeper hdeep actions record hactions => ?_⟩
  obtain ⟨j, rfl⟩ := Nat.exists_eq_add_of_le (show depth ≤ deeper by omega)
  intro ev host index c hc
  -- what the past left is a cursor of the plan, and what it keeps is sound
  have hstart : Host.Within (.ofDepth marks True env (depth + j)) p ⟨[p.cursor], record⟩ := by
    intro c hc
    rw [List.mem_singleton.mp hc]
    exact p.shapes_cursor
  have hwithin : host.Within (.ofDepth marks True env (depth + j)) p :=
    hstart.performAll (Evaluator.keepsShapes_ofDepth (depth + j)) fun action ha => by
      rw [Memory.ofDepth_marks]
      exact hactions action ha
  have hshapes : p.Shapes (.ofDepth marks False env depth) c :=
    (hwithin c (List.mem_of_getElem? hc)).mono (Memory.within_ofDepth depth j)
  exact ⟨(hmore j (by omega)).isOver htrace hshapes,
    fun _ hothers => Host.performAll_of_not_calls hothers hc⟩

end HybridQuery
