import HybridQuery.Proofs.Lookups.Frames
import HybridQuery.Proofs.Meaning.Success

/-!
# Look-ups in three modes

An object look-up is evaluated on the host over a list, in rows over any partitions of the list, or in
columns over a frame that holds it. Each of the three is computed once from the key and the input
(`Meaning.result_objectLookup_items`, `_rows`, `_frame`); what they leave of their inputs is compared from
there, one look-up at a time and then along a chain.

* `Plan.objectLookup`, `Plan.objectLookups`: plans of one look-up and of a chain.
* `Plan.SettleInRows`, `Plan.SettleInColumns`: a plan on the host and a distributed one come to the same.
  `Plan.SettleInRows.objectLookup` and `Plan.SettleInColumns.objectLookup` keep this along a look-up.
* `Plan.objectLookups_in_three_modes`: chains of look-ups, and what becomes of one without a key.
-/

namespace HybridQuery

open Sequence (valuesOf)

variable {env : Environment} {context : Context}

/-! ## Plans of look-ups -/

/-- A plan that looks a key up in the items of an input. -/
def Plan.objectLookup (mode : Mode) (position : SourcePosition) (key input : Plan) : Plan :=
  .mk mode position (.navigate (.objectLookup key) input)

/-- A plan that looks keys up one after the other, each at a position. -/
def Plan.objectLookups (mode : Mode) (input : Plan) (keys : List (SourcePosition × Plan)) : Plan :=
  keys.foldl (fun input q => .objectLookup mode q.1 q.2 input) input

/-- What looking a key up leaves of a list: nothing, if there is no key. -/
def Sequence.lookedUp (key : Option String) (items : Sequence) : Sequence :=
  items.flatMap fun i => (key.bind i.member?).toList

theorem Sequence.lookedUp_none (items : Sequence) : lookedUp none items = [] := by
  simp [lookedUp]

theorem Sequence.lookedUp_some (key : String) (items : Sequence) :
    lookedUp (some key) items = valuesOf key items := by
  rw [lookedUp, valuesOf, List.filterMap_eq_flatMap_toList]
  rfl

/-- What looking a key up leaves of the partitions of a collection. -/
def Collection.lookedUp (key : Option String) (c : Collection Item) : Collection Item :=
  ⟨c.partitions.map (Sequence.lookedUp key)⟩

theorem Collection.records_lookedUp (key : Option String) (c : Collection Item) :
    (c.lookedUp key).records = Sequence.lookedUp key c.records := by
  simp only [lookedUp, records, Sequence.lookedUp, List.flatMap_def, List.map_flatten, List.flatten_flatten,
    List.map_map]
  rfl

/-! ## What a look-up means -/

/-- The key that the items of a key expression come to. -/
def Sequence.lookupKey (position : SourcePosition) : Sequence → EngineResult (Option String)
  | [] => .ok none
  | [i] =>
    match i.keyText? with
    | some key => .ok (some key)
    | none => .fail (.lookupKeyNotAtomic i)
  | items => EngineResult.locate (.fail (.notSingle "Object lookup key" items.length)) position

/-- Only from no items there is no key. -/
theorem Sequence.lookupKey_eq_none {position : SourcePosition} {items : Sequence} :
    lookupKey position items = .ok none ↔ items = [] := by
  rcases items with _ | ⟨i, _ | ⟨j, items⟩⟩
  · simp [lookupKey]
  · rw [lookupKey]
    cases i.keyText? <;> simp [EngineResult.fail]
  · simp [lookupKey, EngineResult.locate, EngineResult.fail, Except.mapError]

theorem PlanEvaluator.lookupKey_eq (ev : PlanEvaluator) (p : Plan) (context : Context) :
    ev.lookupKey p context = (do
      Run.ofResult (Sequence.lookupKey p.position (← ev.evaluate p context))) := by
  rw [lookupKey, optionalItem, bind_assoc]
  congr 1
  funext items
  rcases items with _ | ⟨i, _ | ⟨j, items⟩⟩
  · rfl
  · rw [Sequence.lookupKey]
    change (match i.keyText? with
      | some key => pure (some key)
      | none => Run.fail (.lookupKeyNotAtomic i)) = _
    cases i.keyText? <;> rfl
  · rfl

theorem PlanEvaluator.applyStep_objectLookup (ev : PlanEvaluator) (p : Plan) (key : Option String)
    (place : Nat) (i : Item) (context : Context) :
    ev.applyStep (.objectLookup p) (.key key) place i context = pure (key.bind i.member?).toList := by
  cases key <;> rfl

theorem PlanEvaluator.stepRows_objectLookup (ev : PlanEvaluator) (p : Plan) (key : Option String)
    (c : Collection Item) (context : Context) :
    ev.stepRows (.objectLookup p) (.key key) c context = pure (c.lookedUp key) := by
  have hpart (l : List Item) : (do
      return (← l.mapM fun i => ev.applyStep (.objectLookup p) (.key key) 0 i context).flatten) =
        (pure (Sequence.lookedUp key l) : Engine Sequence) := by
    rw [mapM_eq_pure fun i _ => ev.applyStep_objectLookup p key 0 i context]
    rfl
  change c.flatMapM (fun i => ev.applyStep (.objectLookup p) (.key key) 0 i context) = _
  rw [Collection.flatMapM, mapM_eq_pure fun l _ => hpart l]
  rfl

theorem Trace.result_bindFrom_ofList {α β : Type} (f : α → List β) (place : Nat) (t : Trace α) :
    (bindFrom (fun _ a => ofList (f a)) place t).result = (do return (← t.result).flatMap f) := by
  induction t generalizing place with
  | done | failed => rfl
  | item a t ih =>
    rw [bindFrom, result_append, result_ofList, ih, result]
    cases t.result <;> rfl

theorem Engine.result_map {α β : Type} (f : α → β) (x : Engine α) :
    (f <$> x).result env = f <$> x.result env :=
  Engine.result_bind (f := fun a => pure (f a)) fun _ _ _ => rfl

namespace Meaning

variable (M : Meaning) (env) (context)

/-- The key of a look-up, if it has one. -/
def keyResult (key : Plan) : Except Failure (Option String) := do
  (Sequence.lookupKey key.position (← (M.items env context key).result)).raised

variable {env context}

theorem result_lookupKey (key : Plan) :
    (M.plans.lookupKey key context).result env = M.keyResult env context key := by
  rw [PlanEvaluator.lookupKey_eq, Engine.result_bind fun l _ => (Tends.ofResult (F := ⊥) (L := True) _).1,
    keyResult]
  simp only [Engine.result_ofResult]
  exact congrArg (· >>= _) Engine.result_given

theorem result_lookupItems (key input : Plan) (position : SourcePosition) :
    (M.operationItems env context position (.navigate (.objectLookup key) input)).result = (do
      let k ← M.keyResult env context key
      return Sequence.lookedUp k (← (M.items env context input).result)) := by
  rw [operationItems, Trace.result_attempt, PlanEvaluator.stepOperand, Engine.result_map,
    result_lookupKey]
  cases M.keyResult env context key with
  | error f => rfl
  | ok k =>
    have htrace (place : Nat) (i : Item) :
        (M.plans.applyStep (.objectLookup key) (.key k) place i context).trace env =
          .ofList (k.bind i.member?).toList := by
      rw [PlanEvaluator.applyStep_objectLookup]
      rfl
    change (Trace.bindFrom (fun place i => _) 1 _).result = _
    simp only [htrace]
    rw [Trace.result_bindFrom_ofList, Trace.result_ahead]
    rfl

theorem result_lookupRows (key input : Plan) (hsteady : (M.rows input context).Steady env) :
    (M.operationRows .rows context (.navigate (.objectLookup key) input)).result env = (do
      let k ← M.keyResult env context key
      return (← (M.rows input context).result env).lookedUp k) := by
  have hpure {k : Option String} : (do
      return (← M.rows input context).lookedUp k).Steady env :=
    Tends.steady_bind hsteady fun _ _ => rfl
  change Engine.result (StepOperand.key <$> M.plans.lookupKey key context >>= fun operand =>
    M.rows input context >>= fun rows =>
      M.plans.stepRows (.objectLookup key) operand rows context) env = _
  rw [bind_map_left]
  simp only [PlanEvaluator.stepRows_objectLookup]
  rw [Engine.result_bind fun _ _ => hpure, result_lookupKey]
  cases M.keyResult env context key with
  | error f => rfl
  | ok k => exact Engine.result_bind fun _ _ _ => rfl

theorem result_lookupFrame (key input : Plan) (hsteady : (M.frame input context).Steady env) :
    (M.operationFrame context (.navigate (.objectLookup key) input)).result env = (do
      match ← M.keyResult env context key with
      | some k => return (← (M.frame input context).result env).select k
      | none => .error (.raised (.of .lookupKeyMissing))) := by
  rw [operationFrame, PlanEvaluator.stepFrame, PlanEvaluator.stepOperand, bind_map_left,
    Engine.result_bind fun k _ => ?steady, result_lookupKey]
  · cases M.keyResult env context key with
    | error f => rfl
    | ok k =>
      cases k with
      | none => rfl
      | some k => exact Engine.result_bind fun _ _ _ => rfl
  · cases k with
    | none => exact fun _ => rfl
    | some k => exact Tends.steady_bind hsteady fun _ _ => rfl

/-- A look-up has no key exactly if its key expression yields no items. -/
theorem keyResult_eq_none_iff {key : Plan} :
    M.keyResult env context key = .ok none ↔ (M.items env context key).result = .ok [] := by
  rw [keyResult]
  cases (M.items env context key).result with
  | error f => exact ⟨nofun, nofun⟩
  | ok items =>
    change (Sequence.lookupKey key.position items).raised = .ok none ↔ _
    rw [Except.ok.injEq, ← @Sequence.lookupKey_eq_none key.position items]
    cases Sequence.lookupKey key.position items <;> simp [EngineResult.raised, Except.mapError]

end Meaning

/-! ## Evaluated look-ups -/

theorem Context.known_scopes (context : Context) : context.Known fun _ => context.scopes := fun _ _ => rfl

namespace Meaning

variable (depth : Nat) (position : SourcePosition) (key input : Plan)

theorem ofDepth_steady :
    ((ofDepth depth).rows input context).Steady env ∧ ((ofDepth depth).frame input context).Steady env := by
  have h : Evaluator.Follows (.ofDepth (fun _ => context.scopes) True env depth) _ _ env _ _ :=
    Evaluator.follows_within (fun _ => context.scopes) depth
  have hc : context.Known (Memory.ofDepth (fun _ => context.scopes) True env depth).marks := by
    rw [Memory.ofDepth_marks]
    exact context.known_scopes
  exact ⟨h.rows input context hc, h.frame input context hc⟩

theorem result_objectLookup_items :
    ((ofDepth (depth + 1)).items env context (.objectLookup .host position key input)).result =
      (do
        let k ← (ofDepth depth).keyResult env context key
        return Sequence.lookedUp k (← ((ofDepth depth).items env context input).result) :
          Except Failure Sequence).mapError (·.locate position) :=
  (Trace.result_locate _ position).trans (congrArg _ ((ofDepth depth).result_lookupItems key input position))

theorem result_objectLookup_rows :
    ((ofDepth (depth + 1)).rows (.objectLookup .rows position key input) context).result env =
      (do
        let k ← (ofDepth depth).keyResult env context key
        return (← ((ofDepth depth).rows input context).result env).lookedUp k :
          Except Failure (Collection Item)).mapError (·.locate position) :=
  Engine.result_locate.trans
    (congrArg _ ((ofDepth depth).result_lookupRows key input (ofDepth_steady depth input).1))

theorem result_objectLookup_frame :
    ((ofDepth (depth + 1)).frame (.objectLookup .columns position key input) context).result env =
      (do
        match ← (ofDepth depth).keyResult env context key with
        | some k => return (← ((ofDepth depth).frame input context).result env).select k
        | none => .error (.raised (.of .lookupKeyMissing)) :
          Except Failure (Frame Item)).mapError (·.locate position) :=
  Engine.result_locate.trans
    (congrArg _ ((ofDepth depth).result_lookupFrame key input (ofDepth_steady depth input).2))

end Meaning

/-! ## Look-ups that come to the same -/

section
variable (env context)

/-- Two plans come to the same items: one of them on the host, the other in rows. -/
def Plan.SettleInRows (host rows : Plan) : Prop :=
  SettleAlike env (fun items (c : Collection Item) => c.records = items)
    (fun depth => (Evaluator.ofDepth depth).plans.evaluate host context)
    (fun depth => (Evaluator.ofDepth depth).plans.rows rows context)

/-- Two plans come to items and to a frame that are related. -/
def Plan.SettleInColumns (R : Sequence → Frame Item → Prop) (host columns : Plan) : Prop :=
  SettleAlike env R (fun depth => (Evaluator.ofDepth depth).plans.evaluate host context)
    (fun depth => (Evaluator.ofDepth depth).plans.planFrame columns context)

/-- A key expression that yields no items. -/
def Plan.SettlesEmpty (key : Plan) : Prop :=
  Settles env (fun depth => (Evaluator.ofDepth depth).plans.evaluate key context) (.ok [])

end

variable {key host rows columns : Plan}

theorem Plan.SettleInRows.objectLookup (h : host.SettleInRows env context rows)
    (position : SourcePosition) (key : Plan) :
    (Plan.objectLookup .host position key host).SettleInRows env context
      (.objectLookup .rows position key rows) := by
  have hc := context.known_scopes
  refine .of_meant (hc.meant_evaluate _) (hc.meant_rows _) ((eventually_add_iff 1).mp ?_)
  filter_upwards [h.eventually (hc.meant_evaluate _) (hc.meant_rows _)] with depth hinput
  simp only [Meaning.plans, Engine.result_given] at hinput ⊢
  rw [Meaning.result_objectLookup_items, Meaning.result_objectLookup_rows]
  refine Alike.mapError ?_ _
  cases (Meaning.ofDepth depth).keyResult env context key with
  | error f => exact .error f
  | ok k => exact hinput.bind fun items c hc => .ok (by rw [c.records_lookedUp, hc])

theorem Plan.not_keyResult_none (hkey : ¬ key.SettlesEmpty env context) (depth : Nat) :
    (Meaning.ofDepth depth).keyResult env context key ≠ .ok none := fun h =>
  hkey ((context.known_scopes.meant_evaluate key).settles_of_result depth
    (Engine.result_given.trans (Meaning.keyResult_eq_none_iff _ |>.mp h)))

theorem Plan.SettleInColumns.objectLookup {R : Sequence → Frame Item → Prop}
    (h : host.SettleInColumns env context R columns) (hR : ∀ items frame, R items frame → frame.Holds items)
    (position : SourcePosition) (hkey : ¬ key.SettlesEmpty env context) :
    (Plan.objectLookup .host position key host).SettleInColumns env context
      (fun items frame => frame.Holds items ∧ frame.toRows.records = items)
      (.objectLookup .columns position key columns) := by
  have hc := context.known_scopes
  refine .of_meant (hc.meant_evaluate _) (hc.meant_planFrame _) ((eventually_add_iff 1).mp ?_)
  filter_upwards [h.eventually (hc.meant_evaluate _) (hc.meant_planFrame _)] with depth hinput
  simp only [Meaning.plans, Engine.result_given] at hinput ⊢
  rw [Meaning.result_objectLookup_items, Meaning.result_objectLookup_frame]
  refine Alike.mapError ?_ _
  have hk := Plan.not_keyResult_none hkey depth
  cases hkey : (Meaning.ofDepth depth).keyResult env context key with
  | error f => exact .error f
  | ok k =>
    cases k with
    | none => exact absurd hkey hk
    | some k =>
      refine hinput.bind fun items frame hf => .ok ?_
      have hf := hR _ _ hf
      rw [Sequence.lookedUp_some]
      exact ⟨hf.select k, hf.records_select k⟩

/-! ### Look-ups without a key -/

theorem Plan.SettlesEmpty.eventually (hkey : key.SettlesEmpty env context) :
    ∀ᶠ depth in Filter.atTop, (Meaning.ofDepth depth).keyResult env context key = .ok none := by
  filter_upwards [(context.known_scopes.meant_evaluate key).settles_iff_eventually.mp hkey] with depth hd
  exact (Meaning.keyResult_eq_none_iff _).mpr (Engine.result_given.symm.trans hd)

/-- On the host a look-up without a key yields nothing, once its input is computed. -/
theorem Plan.SettlesEmpty.yields_nothing (hkey : key.SettlesEmpty env context) {items : Sequence}
    (h : Settles env (fun depth => (Evaluator.ofDepth depth).plans.evaluate host context) (.ok items))
    (position : SourcePosition) :
    Settles env (fun depth => (Evaluator.ofDepth depth).plans.evaluate
      (.objectLookup .host position key host) context) (.ok []) := by
  have hc := context.known_scopes
  have hd := (hc.meant_evaluate host).settles_iff_eventually.mp h
  obtain ⟨depth, hk, hd⟩ := (hkey.eventually.and hd).exists
  refine (hc.meant_evaluate _).settles_of_result (depth + 1) ?_
  simp only [Meaning.plans, Engine.result_given] at hd ⊢
  rw [Meaning.result_objectLookup_items, hk, hd, ← Sequence.lookedUp_none items]
  rfl

/-- In columns a look-up without a key is refused before its input is computed. -/
theorem Plan.SettlesEmpty.refused_in_columns (hkey : key.SettlesEmpty env context) (columns : Plan)
    (position : SourcePosition) :
    Settles env (fun depth => (Evaluator.ofDepth depth).plans.planFrame
      (.objectLookup .columns position key columns) context)
      (EngineResult.locate (.fail .lookupKeyMissing) position) := by
  obtain ⟨depth, hk⟩ := hkey.eventually.exists
  refine (context.known_scopes.meant_planFrame _).settles_of_result (depth + 1) ?_
  rw [Meaning.result_objectLookup_frame, hk]
  rfl

/-! ## Chains of look-ups -/

theorem Plan.SettleInRows.objectLookups (h : host.SettleInRows env context rows)
    (keys : List (SourcePosition × Plan)) :
    (Plan.objectLookups .host host keys).SettleInRows env context (.objectLookups .rows rows keys) := by
  induction keys generalizing host rows with
  | nil => exact h
  | cons q keys ih => exact ih (h.objectLookup q.1 q.2)

theorem Plan.SettleInColumns.objectLookups
    (h : host.SettleInColumns env context
      (fun items frame => frame.Holds items ∧ frame.toRows.records = items) columns)
    {keys : List (SourcePosition × Plan)} (hkeys : ∀ q ∈ keys, ¬ q.2.SettlesEmpty env context) :
    (Plan.objectLookups .host host keys).SettleInColumns env context
      (fun items frame => frame.Holds items ∧ frame.toRows.records = items)
      (.objectLookups .columns columns keys) := by
  induction keys generalizing host columns with
  | nil => exact h
  | cons q keys ih =>
    simp only [List.mem_cons, forall_eq_or_imp] at hkeys
    exact ih (h.objectLookup (fun _ _ h => h.1) q.1 hkeys.1) hkeys.2

theorem Plan.objectLookups_append (mode : Mode) (input : Plan) (keys : List (SourcePosition × Plan))
    (position : SourcePosition) (key : Plan) :
    objectLookups mode input (keys ++ [(position, key)]) =
      objectLookup mode position key (objectLookups mode input keys) :=
  List.foldl_concat ..

/-- **Look-ups mean the same in three modes.** Objects make a frame, wherever they are cut. Keys are looked
up one after the other in a list on the host, in the same items in rows, and in a frame of them, be it made
of objects or projected before. On the host and in rows this fails alike or gives the same items in the
same order. In columns it does so too, unless a key expression yields no items: such a look-up gives
nothing on the host and in rows, and is refused in columns. -/
theorem Plan.objectLookups_in_three_modes (env : Environment) (context : Context) :
    (∀ c : Collection Item, (∀ i ∈ c.records, i.isObject = true) →
      ∃ frame, Frame.ofObjects c = .ok frame) ∧
    ∀ (c : Collection Item) (frame : Frame Item) (host rows columns : Plan),
      frame.Holds c.records →
      Settles env (fun depth => (Evaluator.ofDepth depth).plans.evaluate host context) (.ok c.records) →
      Settles env (fun depth => (Evaluator.ofDepth depth).plans.rows rows context) (.ok c) →
      Settles env (fun depth => (Evaluator.ofDepth depth).plans.planFrame columns context) (.ok frame) →
      ∀ keys : List (SourcePosition × Plan),
        (objectLookups .host host keys).SettleInRows env context (objectLookups .rows rows keys) ∧
        (keys ≠ [] → (∀ q ∈ keys, ¬ q.2.SettlesEmpty env context) →
          (objectLookups .host host keys).SettleInColumns env context
            (fun items frame => frame.toRows.records = items) (objectLookups .columns columns keys)) ∧
        ∀ (position : SourcePosition) (key : Plan), key.SettlesEmpty env context →
          Settles env (fun depth => (Evaluator.ofDepth depth).plans.planFrame
            (objectLookups .columns columns (keys ++ [(position, key)])) context)
            (EngineResult.locate (.fail .lookupKeyMissing) position) ∧
          ∀ items,
            Settles env (fun depth => (Evaluator.ofDepth depth).plans.evaluate
              (objectLookups .host host keys) context) (.ok items) →
            Settles env (fun depth => (Evaluator.ofDepth depth).plans.evaluate
              (objectLookups .host host (keys ++ [(position, key)])) context) (.ok []) := by
  refine ⟨fun c h => Frame.exists_ofObjects h,
    fun c frame host rows columns hframe hhost hrows hcolumns keys =>
      ⟨?_, fun hne hkeys => ?_, fun position key hkey => ?_⟩⟩
  · have h : host.SettleInRows env context rows := .of_settles hhost hrows rfl
    exact h.objectLookups keys
  · obtain _ | ⟨q, keys⟩ := keys
    · exact absurd rfl hne
    simp only [List.mem_cons, forall_eq_or_imp] at hkeys
    have h : host.SettleInColumns env context (fun items frame => frame.Holds items) columns :=
      .of_settles hhost hcolumns hframe
    have hfirst := h.objectLookup (fun _ _ h => h) q.1 hkeys.1
    exact SettleAlike.mono (hfirst.objectLookups hkeys.2) fun _ _ h => h.2
  · rw [objectLookups_append, objectLookups_append]
    exact ⟨hkey.refused_in_columns _ position, fun _ h => hkey.yields_nothing h position⟩

/-- Two look-ups in a frame of three objects in two partitions; the second key is not in every value of the
first one. -/
theorem Plan.objectLookups_in_two_partitions :
    let env : Environment := ⟨1, none, .empty, .empty, .info, []⟩
    let c : Collection Item :=
      ⟨[[.object [("p", .object [("q", .integer 9)])], .object [("r", .null)]],
        [.object [("p", .integer 3)]]]⟩
    let name (s : String) : Plan := .mk .host .unknown (.compute (.literal (.string s)))
    ∃ frame, Frame.ofObjects c = .ok frame ∧
      let context := Context.detached
        (((BindingsOf.single "xs" (.items c.records)).bind "parts" (.rows c)).bind "frame" (.columns frame))
      ∃ projected,
        Settles env (fun depth => (Evaluator.ofDepth depth).plans.planFrame
          (objectLookups .columns (.mk .columns .unknown (.varRef "frame"))
            [(.unknown, name "p"), (.unknown, name "q")]) context) (.ok projected) ∧
        projected.toRows.records = [.integer 9] := by
  intro env c name
  refine ⟨_, rfl, ?_⟩
  intro context
  have hkey (s : String) : ¬ (name s).SettlesEmpty env context := fun h => by
    have hname : Settles env (fun depth => (Evaluator.ofDepth depth).plans.evaluate (name s) context)
        (.ok [.string s]) := (meant_evaluate _ rfl).settles_of_value? 2 rfl
    cases h.unique hname
  have hall := (objectLookups_in_three_modes env context).2 c _ (.hostVariable "xs" .unknown)
    (.mk .rows .unknown (.varRef "parts")) (.mk .columns .unknown (.varRef "frame")) (.objects rfl)
    ((meant_evaluate _ rfl).settles_of_value? 2 rfl) ((meant_rows _ rfl).settles_of_value? 2 rfl)
    ((meant_planFrame _ rfl).settles_of_value? 2 rfl) [(.unknown, name "p"), (.unknown, name "q")]
  exact (hall.2.1 (by simp) (by simp [hkey])).left _ ((meant_evaluate _ rfl).settles_of_value? 5 rfl)

/-- A key expression that yields no items is an empty key on the host and in rows, and a fault in columns. -/
theorem Plan.empty_key_refused_in_columns :
    let env : Environment := ⟨1, none, .empty, .empty, .info, []⟩
    let c : Collection Item := ⟨[[.object [("k", .integer 1)]]]⟩
    let noKey : Plan := .mk .host .unknown (.sequence [])
    ∃ frame, Frame.ofObjects c = .ok frame ∧
      let context := Context.detached
        (((BindingsOf.single "xs" (.items c.records)).bind "parts" (.rows c)).bind "frame" (.columns frame))
      Settles env (fun depth => (Evaluator.ofDepth depth).plans.evaluate
        (.objectLookup .host .unknown noKey (.hostVariable "xs" .unknown)) context) (.ok []) ∧
      Settles env (fun depth => (Evaluator.ofDepth depth).plans.rows
        (.objectLookup .rows .unknown noKey (.mk .rows .unknown (.varRef "parts"))) context) (.ok ⟨[[]]⟩) ∧
      Settles env (fun depth => (Evaluator.ofDepth depth).plans.planFrame
        (.objectLookup .columns .unknown noKey (.mk .columns .unknown (.varRef "frame"))) context)
        (.error ⟨.lookupKeyMissing, some .unknown⟩) := by
  refine ⟨_, rfl, ?_, ?_, ?_⟩
  · exact (meant_evaluate _ rfl).settles_of_value? 5 rfl
  · exact (meant_rows _ rfl).settles_of_value? 5 rfl
  · exact (meant_planFrame _ rfl).settles_of_result 5 rfl

end HybridQuery
