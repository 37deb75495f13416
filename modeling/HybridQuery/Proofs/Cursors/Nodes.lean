import HybridQuery.Proofs.Cursors.Keeping

/-!
# Driving nodes keeps their shapes

A node is driven by driving the cursors below it. If the protocol keeps their shapes, driving keeps the
shape of the node, whatever it holds and however the step ends.

* `Evaluator.KeepsShapes.startNode`, `Evaluator.KeepsShapes.pullNode`,
  `Evaluator.KeepsShapes.collectNode`: expressions.
* `Evaluator.KeepsShapes.startClause`, `Evaluator.KeepsShapes.pullClause`,
  `Evaluator.KeepsShapes.collectClause`: clauses.
* `Evaluator.keepsShapes_ofDepth`: evaluators of any depth, by induction on it.
-/

namespace HybridQuery
namespace Evaluator

/-- The states of a `for` clause that is pulled. -/
def ForShape (K : Memory) (source : Plan) (before : Pipeline) (s : ForState) : Prop :=
  source.Shapes K s.2.1 ∧ before.Shapes K s.2.2

namespace KeepsShapes

variable {K : Memory} {env : Environment} {ev : Evaluator} (h : ev.KeepsShapes K env)
  {context : Context}
include h

theorem next? (p : Plan) : Keeps env ev.items.next? (p.Shapes K) := Rules.keeps_next? (h.next p)

/-! ## Expressions on the host -/

theorem startWalk (step : NavigationStep) (hc : context.Known K.marks) (input : Plan) :
    Keeps env (ev.startWalk step context) (input.Shapes K) :=
  .bind .lift fun _ => .bind (h.openIn input context hc) fun _ => .pure

theorem startNode (operation : Operation) (position : SourcePosition) (hc : context.Known K.marks) :
    Keeps env (ev.startNode context) (operation.Shapes K position) := by
  intro n hn
  refine .bind (.read ?_)
  cases hn with
  | compute => exact .bind (.lift (fun _ => .write .compute) .compute)
  | varRef =>
    exact .bind (.ofResult (fun _ => .bind (.lift (fun _ => .write .varRef) .varRef)) .varRef)
  | @sequence _ members _ before after old hm hknown =>
    have hknown : ∀ c : Context, some context = some c → c.Known K.marks := by
      rintro c ⟨⟩
      exact hc
    dsimp only
    generalize before ++ after = cursors at hm
    cases hm with
    | nil => exact .write (.sequence .nil hknown)
    | cons hp hs =>
      exact (h.openIn _ context hc).part hp (fun c hp => .sequence (.cons hp hs) hknown)
        fun _ c hp => .pure (.sequence (.cons hp hs) hknown)
  | range =>
    refine .bind (.lift (fun low => .bind (.lift (fun high => ?_) .range)) .range)
    cases low <;> cases high <;> exact .write .range
  | conditional hyes hno =>
    refine .bind (.lift (fun chosen => ?_) (.conditional hyes hno))
    cases chosen with
    | true =>
      exact (h.openIn _ context hc).part hyes (fun _ hyes => .conditional hyes hno)
        fun _ _ hyes => .pure (.conditional hyes hno)
    | false =>
      exact (h.openIn _ context hc).part hno (fun _ hno => .conditional hyes hno)
        fun _ _ hno => .pure (.conditional hyes hno)
  | navigate hin =>
    exact (h.startWalk _ hc _).part hin (fun _ hin => .navigate hin)
      fun _ _ hin => .write (.navigate hin)
  | staticCall =>
    exact .bind (.lift (fun _ => .bind (.lift (fun _ => .write .staticCall) .staticCall)) .staticCall)
  | dynamicCall =>
    exact .bind (.lift (fun _ => .bind (.lift (fun _ => .write .dynamicCall) .dynamicCall))
      .dynamicCall)
  | flwor hf =>
    exact (h.openFeed _ context hc).part hf (fun _ hf => .flwor hf) fun _ _ hf => .write (.flwor hf)

/-- The members of a sequence are opened one after the other, in the context of the sequence. -/
theorem sequenceNext {members : List Plan} {position : SourcePosition} (hc : context.Known K.marks)
    (after : List Plan) : ∀ {through : List Plan} {p : Plan} {before rest : List ItemCursor}
      {current : ItemCursor} {s : Node}, members = through ++ p :: after →
      MembersShape K through before → p.Shapes K current → MembersShape K after rest →
      Leaves env (ev.sequenceNext context rest before current) s
        (fun _ => (Operation.sequence members).Shapes K position)
        ((Operation.sequence members).Shapes K position) := by
  have hknown : ∀ c : Context, some context = some c → c.Known K.marks := by
    rintro c ⟨⟩
    exact hc
  -- the current member hands out an item, or it is through and closed
  have hnext {through : List Plan} {p : Plan} {after : List Plan} {before rest : List ItemCursor}
      {current : ItemCursor} {s : Node} (hm : members = through ++ p :: after)
      (hb : MembersShape K through before) (hp : p.Shapes K current) (hr : MembersShape K after rest) :
      Leaves env (ev.memberNext context before current rest) s
        (fun o s' => (Operation.sequence members).Shapes K position s' ∧ p.Shapes K o.2)
        ((Operation.sequence members).Shapes K position) := by
    have hwhole (c : ItemCursor) (hp : p.Shapes K c) :
        (Operation.sequence members).Shapes K position
          (.sequence before (c :: rest) (some context)) :=
      .sequence (hm ▸ hb.append (.cons hp hr)) hknown
    refine (h.next? p).part hp hwhole fun o c hp => ?_
    cases o with
    | some i => exact .pure ⟨hwhole c hp, hp⟩
    | none =>
      have hclosed := hp.released
      exact .bind (.part (Rules.leaves_release (.pure ⟨hwhole _ hclosed, hclosed⟩)
        (hwhole _ hclosed)))
  induction after with
  | nil =>
    intro through p before rest current s hm hb hp hr
    cases hr
    refine .bind ((hnext hm hb hp .nil).mono ?_ fun _ => id)
    rintro ⟨o, c⟩ s' ⟨hs, hp⟩
    cases o with
    | some i => exact .pure hs
    | none =>
      refine .bind (.write (.pure (.sequence ?_ hknown)))
      rw [List.append_nil, hm]
      exact hb.append (.cons hp .nil)
  | cons q after ih =>
    intro through p before rest current s hm hb hp hr
    obtain _ | ⟨hq, hr⟩ := hr
    refine .bind ((hnext hm hb hp (.cons hq hr)).mono ?_ fun _ => id)
    rintro ⟨o, c⟩ s' ⟨hs, hp⟩
    cases o with
    | some i => exact .pure hs
    | none =>
      have hb' := hb.append (.cons hp .nil)
      refine .bind ((h.openIn q context hc).part hq (fun d hq => ?_) fun _ d hq => ?_)
      · refine .sequence ?_ hknown
        rw [hm]
        simpa using hb'.append (.cons hq hr)
      · exact .pure (ih (by simp [hm]) hb' hq hr)

theorem walkOn (step : NavigationStep) (limit : Nat) (input : Plan) :
    Keeps env (ev.walkOn step limit) (fun s => input.Shapes K s.2) := by
  induction limit with
  | zero => exact .exhausted
  | succ limit ih =>
    rintro ⟨walk, c⟩ hin
    refine .bind (.read ?_)
    obtain ⟨context, operand, buffer, place⟩ := walk
    cases buffer with
    | cons i rest => exact .bind (.write (.pure hin))
    | nil =>
      refine (h.next? input).part hin (fun _ hin => hin) fun o c hin => ?_
      cases o with
      | none => exact .pure hin
      | some i =>
        exact .bind (.write (.bind (.lift (fun found => .bind (.write (ih _ hin))) hin)))

omit h in
/-- The cursor of the last tuple is no part of the shape. -/
theorem currentNext (pipeline : Pipeline) :
    Keeps env ev.currentNext (fun s => pipeline.Shapes K s.1) := by
  rintro ⟨feed, current⟩ hf
  refine .bind (.read ?_)
  cases current with
  | none => exact .pure hf
  | some c =>
    refine Keeps.trivial.part trivial (fun _ _ => hf) fun o c _ => ?_
    cases o with
    | some i => exact .pure hf
    | none =>
      exact Keeps.trivial.part trivial (fun _ _ => hf) fun _ _ _ => .bind (.write (.pure hf))

theorem projectNext (result : Plan) (limit : Nat) (pipeline : Pipeline) :
    Keeps env (ev.projectNext result context limit) (fun s => pipeline.Shapes K s.1) := by
  induction limit with
  | zero => exact .exhausted
  | succ limit ih =>
    refine .bind (currentNext pipeline) fun o => ?_
    rintro ⟨feed, current⟩ hf
    cases o with
    | some i => exact .pure hf
    | none =>
      refine .bind (.read ((h.nextTuple pipeline).part hf (fun _ hf => hf) fun o feed hf => ?_))
      cases o with
      | none => exact .pure hf
      | some tuple => exact .bind (.lift (fun c => .bind (.write (ih _ hf))) hf)

theorem pullNode (operation : Operation) (position : SourcePosition) :
    Keeps env ev.pullNode (operation.Shapes K position) := by
  intro n hn
  refine .bind (.read ?_)
  cases hn with
  | @compute _ computation _ buffer =>
    cases buffer with
    | nil => exact .pure .compute
    | cons i rest => exact .bind (.write (.pure .compute))
  | @varRef _ name _ items =>
    cases items with
    | nil => exact .pure .varRef
    | cons i rest => exact .bind (.write (.pure .varRef))
  | @sequence _ members _ before after old hm hknown =>
    rcases after with _ | ⟨current, rest⟩
    · exact .pure (.sequence hm hknown)
    rcases old with _ | old
    · exact .pure (.sequence hm hknown)
    obtain ⟨through, after, rfl, hb, hr⟩ := hm.append_inv
    obtain _ | ⟨hp, hr⟩ := hr
    exact h.sequenceNext (hknown old rfl) _ rfl hb hp hr
  | @range _ first last _ next greatest =>
    cases next with
    | none => exact .pure .range
    | some n =>
      by_cases hle : n ≤ greatest
      · simp only [hle, ↓reduceIte]
        exact .bind (.write (.pure .range))
      · simp only [hle, ↓reduceIte]
        exact .bind (.write (.pure .range))
  | @conditional _ condition yes no _ chosen yes' no' hyes hno =>
    rcases chosen with _ | _ | _
    · exact .pure (.conditional hyes hno)
    · exact (h.next? no).whole hno fun _ hno => .conditional hyes hno
    · exact (h.next? yes).whole hyes fun _ hyes => .conditional hyes hno
  | @navigate _ step input _ walk input' hin =>
    cases walk with
    | none => exact .pure (.navigate hin)
    | some walk =>
      exact (h.walkOn step ev.limit input).whole (T := fun s => input.Shapes K s.2) hin
        fun _ hin => .navigate hin
  | staticCall => exact Keeps.trivial.whole trivial fun _ _ => .staticCall
  | dynamicCall => exact Keeps.trivial.whole trivial fun _ _ => .dynamicCall
  | @flwor _ pipeline result _ context feed current hf =>
    cases context with
    | none => exact .pure (.flwor hf)
    | some context =>
      exact (h.projectNext result ev.limit pipeline).whole (T := fun s => pipeline.Shapes K s.1) hf
        fun _ hf => .flwor hf

/-! ## Distributed forms of expressions -/

theorem memberRows {members : List Plan} {position : SourcePosition} (hc : context.Known K.marks)
    (after : List Plan) : ∀ {through : List Plan} {before rest : List ItemCursor}
      {done : Collection Item} {s : Node}, members = through ++ after →
      MembersShape K through before → MembersShape K after rest →
      (Operation.sequence members).Shapes K position s →
      Leaves env (ev.memberRows context done before rest) s
        (fun _ => (Operation.sequence members).Shapes K position)
        ((Operation.sequence members).Shapes K position) := by
  induction after with
  | nil =>
    intro through before rest done s hm hb hr hs
    cases hr
    exact .pure hs
  | cons p after ih =>
    intro through before rest done s hm hb hr hs
    obtain _ | ⟨hp, hr⟩ := hr
    have hwhole (c : ItemCursor) (hp : p.Shapes K c) : (Operation.sequence members).Shapes K position
        (.sequence [] (before ++ c :: _) none) :=
      .sequence (hm ▸ hb.append (.cons hp hr)) fun _ h => nomatch h
    refine (h.collection p context hc).part hp hwhole fun rows c hp => ?_
    exact ih (by simp [hm]) (hb.append (.cons hp .nil)) hr (hwhole c hp)

theorem navigateRows (step : NavigationStep) (mode : Mode) (hc : context.Known K.marks)
    (input : Plan) : Keeps env (ev.navigateRows step mode context) (input.Shapes K) := by
  unfold Evaluator.navigateRows
  split
  · exact fun c hin => .bind (.read (.bind (.lift (fun _ => .pure hin) hin)))
  · exact .bind .lift fun _ => .bind (h.collection input context hc) fun _ => .lift

theorem returnRows (result : Plan) (hc : context.Known K.marks) (pipeline : Pipeline) :
    Keeps env (ev.returnRows result context) (pipeline.Shapes K) :=
  .bind (h.feedRows pipeline context hc) fun _ => .lift

theorem collectNode (mode : Mode) (operation : Operation) (position : SourcePosition)
    (hc : context.Known K.marks) :
    Keeps env (ev.collectNode mode context) (operation.Shapes K position) := by
  intro n hn
  refine .bind (.read ?_)
  cases hn with
  | @compute _ computation =>
    cases computation with
    | builtin b arguments => exact .lift (fun _ => .compute) .compute
    | _ => exact .raise .compute
  | varRef => exact .bind (.ofResult (fun _ => .lift (fun _ => .varRef) .varRef) .varRef)
  | sequence hm hknown =>
    exact h.memberRows hc _ (List.nil_append _).symm .nil hm (.sequence hm hknown)
  | navigate hin => exact (h.navigateRows _ mode hc _).whole hin fun _ hin => .navigate hin
  | staticCall => exact .lift (fun _ => .staticCall) .staticCall
  | flwor hf => exact (h.returnRows _ hc _).whole hf fun _ hf => .flwor hf
  | range => exact .raise .range
  | conditional hyes hno => exact .raise (.conditional hyes hno)
  | dynamicCall => exact .raise .dynamicCall

/-! ## Clauses on the host -/

omit h in
theorem closeFeed (pipeline : Pipeline) : Keeps env closeFeed (pipeline.Shapes K) := fun _ hf =>
  .bind (.read (.bind (.write (.lift (fun _ => hf.closed) hf.closed))))

theorem gatherTuples {α : Type} (f : Tuple → Engine α) (limit : Nat) (pipeline : Pipeline) :
    ∀ gathered : List α, Keeps env (ev.gatherTuples f limit gathered) (pipeline.Shapes K) := by
  induction limit with
  | zero => exact fun _ => .exhausted
  | succ limit ih =>
    refine fun gathered => .bind (h.nextTuple pipeline) fun o => ?_
    cases o with
    | none => exact .pure
    | some tuple => exact .bind .lift fun a => ih _

theorem gatherAll {α : Type} (f : Tuple → Engine α) (hc : context.Known K.marks)
    (pipeline : Pipeline) : Keeps env (ev.gatherAll f context) (pipeline.Shapes K) :=
  .bind (h.openFeed pipeline context hc) fun _ =>
    .bind (h.gatherTuples f ev.limit pipeline []) fun _ => .bind (closeFeed pipeline) fun _ => .pure

theorem orderedTuples (keys : List (OrderKey Plan)) (hc : context.Known K.marks)
    (pipeline : Pipeline) : Keeps env (ev.orderedTuples keys context) (pipeline.Shapes K) :=
  .bind (h.gatherAll _ hc pipeline) fun _ => .bind (fun _ hf => .ofResult (fun _ => hf) hf)
    fun _ => .pure

theorem groupedTuples (keys : List (GroupKey Plan)) (position : SourcePosition)
    (hc : context.Known K.marks) (pipeline : Pipeline) :
    Keeps env (ev.groupedTuples keys position context) (pipeline.Shapes K) :=
  .bind (h.gatherAll _ hc pipeline) fun _ => .lift

theorem startClause (operation : ClauseOperation) (position : SourcePosition) (before : Pipeline)
    (hc : context.Known K.marks) :
    Keeps env (ev.startClause context) (operation.Shapes K position before) := by
  intro n hn
  refine .bind (.read ?_)
  cases hn with
  | forEach hs hf =>
    exact (h.openFeed before context hc).part hf (fun _ hf => .forEach hs hf)
      fun _ _ hf => .write (.forEach hs hf)
  | letBe hf =>
    exact (h.openFeed before context hc).part hf (fun _ hf => .letBe hf)
      fun _ _ hf => .write (.letBe hf)
  | keepWhere hf =>
    exact (h.openFeed before context hc).part hf (fun _ hf => .keepWhere hf)
      fun _ _ hf => .write (.keepWhere hf)
  | orderBy hf =>
    exact (h.orderedTuples _ hc before).part hf (fun _ hf => .orderBy hf)
      fun _ _ hf => .write (.orderBy hf)
  | groupBy hf =>
    exact (h.groupedTuples _ position hc before).part hf (fun _ hf => .groupBy hf)
      fun _ _ hf => .write (.groupBy hf)
  | count hf =>
    exact (h.openFeed before context hc).part hf (fun _ hf => .count hf)
      fun _ _ hf => .pure (.count hf)

theorem openSource (source : Plan) (hc : context.Known K.marks) :
    Keeps env (ev.openSource context) (source.Shapes K) := by
  intro c hs
  refine .bind (.read ?_)
  cases c.isOpen with
  | true => exact h.reset source context hc c hs
  | false => exact h.openIn source context hc c hs

theorem currentBound (v : ForVariables) (allowingEmpty : Bool) (source : Plan) (before : Pipeline)
    {s : ForState} (hs : ForShape K source before s) :
    Leaves env (ev.currentBound v allowingEmpty s) s (fun _ => ForShape K source before)
      (ForShape K source before) := by
  obtain ⟨⟨inner, current, index⟩, c, feed⟩ := s
  obtain ⟨hs, hf⟩ := hs
  cases current with
  | none => exact .pure ⟨hs, hf⟩
  | some tuple =>
    refine (h.next? source).part hs (fun _ hs => ⟨hs, hf⟩) fun next c hs => ?_
    cases next with
    | none => exact .bind (.write (.pure ⟨hs, hf⟩))
    | some i => exact .bind (.write (.pure ⟨hs, hf⟩))

/-- The sources of a `for` clause are opened in the scopes of tuples, which nothing is kept for. -/
theorem bindNext (v : ForVariables) (allowingEmpty : Bool) (limit : Nat) (source : Plan)
    (before : Pipeline) :
    Keeps env (ev.bindNext v allowingEmpty limit) (ForShape K source before) := by
  induction limit with
  | zero => exact .exhausted
  | succ limit ih =>
    rw [bindNext_succ]
    refine fun s hs => .bind (.read (.bind ((h.currentBound v allowingEmpty source before hs).mono
      (fun bound s hs => ?_) fun _ => id)))
    cases bound with
    | some tuple => exact .pure hs
    | none =>
      obtain ⟨b, c, feed⟩ := s
      obtain ⟨hs, hf⟩ := hs
      refine .bind (.read ((h.nextTuple before).part hf (fun _ hf => ⟨hs, hf⟩) fun o feed hf => ?_))
      cases o with
      | none => exact .pure ⟨hs, hf⟩
      | some tuple =>
        refine (h.openSource source (tuple.known_scope b.context)).part hs
          (fun _ hs => ⟨hs, hf⟩) fun _ c hs => ?_
        exact .bind (.write (ih _ ⟨hs, hf⟩))

theorem letNext (name : String) (value : Plan) (before : Pipeline) :
    Keeps env (ev.letNext name value context) (before.Shapes K) := by
  refine .bind (h.nextTuple before) fun o => ?_
  cases o with
  | none => exact .pure
  | some tuple => exact .bind .lift fun _ => .pure

theorem keepNext (condition : Plan) (limit : Nat) (before : Pipeline) :
    Keeps env (ev.keepNext condition context limit) (before.Shapes K) := by
  induction limit with
  | zero => exact .exhausted
  | succ limit ih =>
    refine .bind (h.nextTuple before) fun o => ?_
    cases o with
    | none => exact .pure
    | some tuple =>
      refine .bind .lift fun kept => ?_
      cases kept with
      | true => exact .pure
      | false => exact ih

theorem countNext (name : String) (before : Pipeline) :
    Keeps env (ev.countNext name) (fun s => before.Shapes K s.2) := by
  rintro ⟨counter, feed⟩ hf
  refine .bind (.read ((h.nextTuple before).part hf (fun _ hf => hf) fun o feed hf => ?_))
  cases o with
  | none => exact .pure hf
  | some tuple => exact .bind (.write (.pure hf))

theorem pullClause (operation : ClauseOperation) (position : SourcePosition) (before : Pipeline) :
    Keeps env ev.pullClause (operation.Shapes K position before) := by
  intro n hn
  refine .bind (.read ?_)
  cases hn with
  | @forEach _ name place allowingEmpty source _ _ binding c feed hs hf =>
    cases binding with
    | none => exact .pure (.forEach hs hf)
    | some b =>
      exact (h.bindNext ⟨name, place⟩ allowingEmpty ev.limit source before).whole
        ⟨hs, hf⟩ fun _ hf => .forEach hf.1 hf.2
  | @letBe _ name value _ _ context feed hf =>
    cases context with
    | none => exact .pure (.letBe hf)
    | some context => exact (h.letNext name value before).whole hf fun _ hf => .letBe hf
  | @keepWhere _ condition _ _ context feed hf =>
    cases context with
    | none => exact .pure (.keepWhere hf)
    | some context =>
      exact (h.keepNext condition ev.limit before).whole hf fun _ hf => .keepWhere hf
  | @orderBy _ keys _ _ sorted feed hf =>
    cases sorted with
    | nil => exact .pure (.orderBy hf)
    | cons tuple rest => exact .bind (.write (.pure (.orderBy hf)))
  | @groupBy _ keys _ _ groups feed hf =>
    cases groups with
    | nil => exact .pure (.groupBy hf)
    | cons tuple rest => exact .bind (.write (.pure (.groupBy hf)))
  | @count _ name _ _ counter feed hf =>
    exact (h.countNext name before).whole (T := fun s => before.Shapes K s.2) hf
      fun _ hf => .count hf

/-! ## Distributed forms of clauses -/

theorem forRows (v : ForVariables) (allowingEmpty : Bool) (source : ItemCursor)
    (hc : context.Known K.marks) (before : Pipeline) :
    Keeps env (ev.forRows v allowingEmpty source context) (before.Shapes K) := by
  intro feed hf
  refine .bind (.read ?_)
  cases feed.isStart && source.mode.isParallel with
  | true => exact .bind (.lift (fun _ => .pure hf) hf)
  | false => exact ((h.feedRows before context hc).bind fun _ => .lift) feed hf

theorem countRows (name : String) (hc : context.Known K.marks) (before : Pipeline) :
    Keeps env (ev.countRows name context) (before.Shapes K) :=
  .bind (h.feedRows before context hc) fun _ => .pure

theorem collectClause (operation : ClauseOperation) (position : SourcePosition) (before : Pipeline)
    (hc : context.Known K.marks) :
    Keeps env (ev.collectClause context) (operation.Shapes K position before) := by
  have hrows {f : Collection Tuple → Engine (Collection Tuple)} : Keeps env (do
      let tuples ← ev.feedRows context
      Step.lift (f tuples)) (before.Shapes K) := .bind (h.feedRows before context hc) fun _ => .lift
  intro n hn
  refine .bind (.read ?_)
  cases hn with
  | forEach hs hf => exact (h.forRows _ _ _ hc before).whole hf fun _ hf => .forEach hs hf
  | letBe hf => exact hrows.whole hf fun _ hf => .letBe hf
  | keepWhere hf => exact hrows.whole hf fun _ hf => .keepWhere hf
  | orderBy hf => exact hrows.whole hf fun _ hf => .orderBy hf
  | groupBy hf => exact hrows.whole hf fun _ hf => .groupBy hf
  | count hf => exact (h.countRows _ hc before).whole hf fun _ hf => .count hf

/-! ## Evaluators of bounded depth -/

theorem above (limit : Nat) : (Evaluator.above (fun _ => ev) limit).KeepsNodeShapes K env where
  start operation position _ hc := h.startNode operation position hc
  pull operation position := h.pullNode operation position
  collect mode operation position _ hc := h.collectNode mode operation position hc
  startClause operation position before _ hc := h.startClause operation position before hc
  pullClause operation position before := h.pullClause operation position before
  collectClause _ operation position before _ hc := h.collectClause operation position before hc

end KeepsShapes

theorem keepsNodeShapes_giveUp {K : Memory} {env : Environment} :
    giveUp.KeepsNodeShapes K env where
  start _ _ _ _ := .exhausted
  pull _ _ := .exhausted
  collect _ _ _ _ _ := .exhausted
  startClause _ _ _ _ _ := .exhausted
  pullClause _ _ _ := .exhausted
  collectClause _ _ _ _ _ _ := .exhausted

variable {env : Environment} {marks : Nat → List Bindings}

/-- Evaluators give no result that their meaning does not give, so that what nodes keep is sound. -/
theorem followsNodes_within (depth : Nat) :
    FollowsNodes (.belowDepth marks True env depth) (pure 0) True env
      (fun j => ofDepth (depth + j)) (NodeMeaning.ofDepth depth) :=
  followsNodes_ofDepth (fun _ => .of_forall fun _ => .inl trivial) (by simp) depth

theorem keepsNodeShapes_ofDepth (depth : Nat) :
    (ofDepth depth).KeepsNodeShapes (.belowDepth marks True env depth) env := by
  induction depth with
  | zero => exact keepsNodeShapes_giveUp
  | succ depth ih => exact (ih.driven (followsNodes_within depth)).above depth

/-- **Cursors keep their shape.** Whatever is asked of a cursor of a plan, and however that ends, it
stays a cursor of the plan that keeps what its meaning says. -/
theorem keepsShapes_ofDepth (depth : Nat) :
    (ofDepth depth).KeepsShapes (.ofDepth marks True env depth) env :=
  (keepsNodeShapes_ofDepth depth).driven (followsNodes_within depth)

end Evaluator
end HybridQuery
