import HybridQuery.Proofs.Calling.Peeks
import HybridQuery.Proofs.Cursors.Histories
import HybridQuery.Proofs.Modes.Rules
import HybridQuery.Proofs.Uniform.Clauses

/-!
# Tuples of one stream are uniform

After each clause all tuples bind the same variables, whatever was asked of the clauses before and however
they are evaluated: those that the clauses up to there introduce. So it is enough to look at the first tuple
of a group to know the variables of all its tuples.

* `introduces_compileClauses`, `compileClauses_append`: the chain that a list of clauses is compiled to.
* `Pipeline.Reaches`: the states that a chain of clauses gets into, by anything that is asked of it.
* `Pipeline.Emits`: the tuples that it hands out in such a state, on the host or distributed.
* `Pipeline.Groups`: the groups that a `group by` clause makes of them.
* `streams_uniform`: the tuples after each clause, and the tuples of their groups.
-/

namespace HybridQuery

variable {env : Environment} {c : Catalogue}

/-! ## Compiled clauses -/

theorem keyNames_compileGroupKeys {keys : List (GroupKey Expression)} {plans : List (GroupKey Plan)}
    (h : compileGroupKeys c keys = .ok plans) : keyNames plans = keys.map (·.variableName) := by
  induction keys generalizing plans with
  | nil =>
    cases h
    rfl
  | cons key keys ih =>
    obtain ⟨name, _ | e⟩ := key
    · obtain ⟨rest, hrest, h⟩ := except_bind_eq_ok_iff.mp h
      cases h
      exact congrArg (name :: ·) (ih hrest)
    · obtain ⟨plan, _, h⟩ := except_bind_eq_ok_iff.mp h
      obtain ⟨rest, hrest, h⟩ := except_bind_eq_ok_iff.mp h
      cases h
      exact congrArg (name :: ·) (ih hrest)

/-- A clause is compiled to one that introduces the same variables. -/
theorem introduces_compile {kind : ClauseKind} {operation : ClauseOperation}
    (h : kind.compile c = .ok operation) : operation.introduces = kind.introduces := by
  cases kind with
  | count name =>
    cases h
    rfl
  | groupBy keys =>
    obtain ⟨plans, hplans, h⟩ := except_bind_eq_ok_iff.mp h
    cases h
    exact keyNames_compileGroupKeys hplans
  | forEach | letBe | keepWhere | orderBy =>
    obtain ⟨_, _, h⟩ := except_bind_eq_ok_iff.mp h
    cases h
    rfl

/-- A chain of clauses is compiled clause by clause. -/
theorem compileClauses_append (feed : Pipeline) (first rest : List Clause) :
    compileClauses c feed (first ++ rest) =
      compileClauses c feed first >>= fun stage => compileClauses c stage rest := by
  induction first generalizing feed with
  | nil => rfl
  | cons clause first ih =>
    obtain ⟨kind, position, slot⟩ := clause
    simp only [List.cons_append, compileClauses, ih, bind_assoc]

/-- The variables of a chain are those of the clauses that it is compiled from. -/
theorem introduces_compileClauses {clauses : List Clause} {feed chain : Pipeline}
    (h : compileClauses c feed clauses = .ok chain) :
    chain.introduces = feed.introduces ++ clauses.flatMap (·.kind.introduces) := by
  induction clauses generalizing feed with
  | nil =>
    cases h
    exact (List.append_nil _).symm
  | cons clause clauses ih =>
    obtain ⟨kind, position, slot⟩ := clause
    obtain ⟨mode, _, h⟩ := except_bind_eq_ok_iff.mp h
    obtain ⟨operation, hoperation, h⟩ := except_bind_eq_ok_iff.mp h
    rw [ih h, Pipeline.introduces, introduces_compile hoperation, List.append_assoc]
    rfl

/-! ## What chains of clauses emit -/

/-- A step that gives a value on an empty record has a run that gives it. -/
theorem Step.exists_run_of_value? {σ β : Type} {x : Step σ β} {s : σ} {b : β}
    (h : (Step.eval s x).value? env = some b) : ∃ s', x env (s, .empty) = .ok b s' := by
  obtain ⟨record, hrun⟩ := Engine.exists_run_of_value? h
  rw [Step.eval] at hrun
  cases hx : x env (s, .empty) with
  | ok b' s' =>
    rw [hx] at hrun
    cases hrun
    exact ⟨s', rfl⟩
  | error f s' =>
    rw [hx] at hrun
    cases hrun

/-- What can be asked of a chain of clauses. -/
inductive FeedCall where
  | openIn (context : Context)
  | next
  | close
  | rows (context : Context)

/-- Carries out a call and drops what it gives. -/
def FeedCall.run (ev : Evaluator) : FeedCall → Step Feed Unit
  | openIn context => ev.openFeed context
  | next => do
    let _ ← ev.nextTuple
  | close => Evaluator.closeFeed
  | rows context => do
    let _ ← ev.feedRows context

/-- The clauses before a clause. -/
def ClauseNode.feed : ClauseNode → Feed
  | forEach _ _ _ _ _ feed | letBe _ _ _ feed | keepWhere _ _ feed | orderBy _ _ feed
  | groupBy _ _ _ feed | count _ _ feed => feed

namespace Pipeline

/-- The states that a chain of clauses gets into. It is asked for anything in any order and in any contexts, by
evaluators of any depth, whatever was recorded before, and calls may fail. Clauses ask those before them in the
same way, and whatever is asked of a longer chain leaves its first clauses in such a state, too. -/
inductive Reaches (env : Environment) : Pipeline → Feed → Prop
  | fresh {p} : Reaches env p p.feed
  | asked {p feed} (h : Reaches env p feed) (depth : Nat) (call : FeedCall) (record : RunRecord) :
    Reaches env p ((call.run (.ofDepth depth)).leaves env (feed, record)).1
  | within {mode position operation before c}
    (h : Reaches env (.clause mode position operation before) (.clause c)) : Reaches env before c.node.feed

/-- The tuples that a chain of clauses emits: it hands them out, or they are records of its distributed
form. -/
inductive Emits (env : Environment) (p : Pipeline) : Tuple → Prop
  | handsOut {feed depth record tuple s} (hfeed : p.Reaches env feed)
    (h : (Evaluator.ofDepth depth).nextTuple env (feed, record) = .ok (some tuple) s) : Emits env p tuple
  | collects {feed depth context record rows tuple s} (hfeed : p.Reaches env feed)
    (h : (Evaluator.ofDepth depth).feedRows context env (feed, record) = .ok rows s)
    (htuple : tuple ∈ rows.records) : Emits env p tuple

end Pipeline

theorem FeedUpholds.keeps {ev : Evaluator} {F : Feed → Prop} {T : Tuple → Prop}
    (h : FeedUpholds env ev F T) (call : FeedCall) : Keeps env (call.run ev) F := by
  cases call with
  | openIn context => exact h.openFeed context
  | next => exact h.nextTuple.keeps.bind fun _ => .pure
  | close => exact h.closeFeed
  | rows context => exact (h.feedRows context).keeps.bind fun _ => .pure

theorem ClauseOperation.Holds.feed {bound : List String} {F : Feed → Prop} {operation : ClauseOperation}
    {n : ClauseNode} (h : operation.Holds bound F n) : F n.feed := by
  cases h <;> assumption

namespace Pipeline

variable {p : Pipeline}

theorem Reaches.uniform {feed : Feed} (h : p.Reaches env feed) : p.Uniform feed := by
  induction h with
  | fresh => exact uniform_feed _
  | asked _ depth call record ih =>
    exact ((Evaluator.feedUpholds_ofDepth depth _).keeps call).leaves ih
  | within _ ih =>
    obtain ⟨c, hc, hholds⟩ := ih
    cases hc
    exact hholds.node.feed

theorem Emits.bindsExactly {tuple : Tuple} (h : p.Emits env tuple) : tuple.BindsExactly p.introduces := by
  cases h with
  | @handsOut _ depth _ _ _ hfeed h =>
    exact (Evaluator.feedUpholds_ofDepth depth p).nextTuple.of_run hfeed.uniform h tuple rfl
  | @collects _ depth context _ _ _ _ hfeed h htuple =>
    exact ((Evaluator.feedUpholds_ofDepth depth p).feedRows context).of_run hfeed.uniform h tuple htuple

/-! ### Groups of emitted tuples -/

/-- The groups that a `group by` clause makes after a chain of clauses: of the tuples that it pulls on the
host, or of the records of their distributed form. -/
inductive Groups (env : Environment) (p : Pipeline) (keys : List (GroupKey Plan)) (position : SourcePosition)
    (context : Context) : GroupingKey × List Tuple → Prop
  | onHost {feed depth record pairs s group} (hfeed : p.Reaches env feed)
    (h : (Evaluator.ofDepth depth).gatherAll
      ((Evaluator.ofDepth depth).plans.groupedTuple keys position context) context env (feed, record) =
        .ok pairs s)
    (hgroup : group ∈ Collection.groupPairs GroupingKey.same pairs) : Groups env p keys position context group
  | distributed {feed depth record rows s record' pairs s' group} (hfeed : p.Reaches env feed)
    (hrows : (Evaluator.ofDepth depth).feedRows context env (feed, record) = .ok rows s)
    (h : rows.mapM ((Evaluator.ofDepth depth).plans.groupedTuple keys position context) env record' =
      .ok pairs s')
    (hgroup : group ∈ (pairs.groupByKey GroupingKey.same GroupingKey.bucket).records) :
    Groups env p keys position context group

theorem Groups.bindsExactly {keys : List (GroupKey Plan)} {position : SourcePosition} {context : Context}
    {group : GroupingKey × List Tuple} (h : p.Groups env keys position context group) :
    GroupBindsExactly keys (p.introduces ++ keyNames keys) group := by
  have hkeyed (depth : Nat) (t : Tuple) (ht : t.BindsExactly p.introduces) :
      ((Evaluator.ofDepth depth).plans.groupedTuple keys position context t).GivesOnly env fun pair =>
        pair.1.length = keys.length ∧ pair.2.BindsExactly (p.introduces ++ keyNames keys) :=
    PlanEvaluator.groupedTuple_bindsExactly keys position _ context ht
  cases h with
  | @onHost _ depth _ _ _ _ hfeed h hgroup =>
    have hpairs :=
      ((Evaluator.feedUpholds_ofDepth depth p).gatherAll (hkeyed depth) context).of_run hfeed.uniform h
    exact (gathers_groupPairs GroupingKey.same_equivalence _).bindsExactly hpairs _ hgroup
  | @distributed _ depth _ _ _ _ pairs _ _ hfeed hrows h hgroup =>
    have hrows := ((Evaluator.feedUpholds_ofDepth depth p).feedRows context).of_run hfeed.uniform hrows
    have hpairs := (Engine.Meets.collectionMapM fun t ht => hkeyed depth t (hrows t ht)).of_run h
    exact pairs.gathers_groupByKey.bindsExactly hpairs _ hgroup

end Pipeline

/-! ## Streams -/

/-- **Tuples of one stream are uniform.** However a list of clauses is evaluated, every tuple after the first
`i` of them binds each variable that these introduce once, and no other variable. So the tuple of a group,
which has the variables of the first member of the group, has those of every other member, and what it binds
them to is gathered from all members. -/
theorem streams_uniform {clauses : List Clause} {whole : Pipeline}
    (h : compileClauses c .start clauses = .ok whole) (env : Environment) (i : Nat) :
    ∃ stage, compileClauses c .start (clauses.take i) = .ok stage ∧
      compileClauses c stage (clauses.drop i) = .ok whole ∧
      (∀ tuple, stage.Emits env tuple →
        tuple.BindsExactly ((clauses.take i).flatMap (·.kind.introduces))) ∧
      ∀ keys position context group, stage.Groups env keys position context group →
        ∀ record out record', PlanEvaluator.linearize keys position group env record = .ok out record' →
          ∀ member ∈ group.2, ∀ name,
            (name ∈ out.names ↔ name ∈ member.names) ∧
            (name ∈ member.names → IsOther keys name → ∃ items,
              PlanEvaluator.GathersValues env position name group.2 items ∧
                out.get? name = some (.items items)) := by
  rw [← List.take_append_drop i clauses, compileClauses_append] at h
  obtain ⟨stage, hstage, hwhole⟩ := except_bind_eq_ok_iff.mp h
  refine ⟨stage, hstage, hwhole, fun tuple htuple => ?_, ?_⟩
  · have hbinds := htuple.bindsExactly
    rw [introduces_compileClauses hstage] at hbinds
    exact hbinds
  · intro keys position context group hgroup record out record' hrun member hmember name
    have hbinds := hgroup.bindsExactly
    obtain ⟨hout, hvalues⟩ := (PlanEvaluator.linearize_bindsExactly keys position hbinds
      fun _ => List.mem_append_right _).of_run hrun
    have hnames := (hbinds.members member hmember).mem_iff name
    exact ⟨(hout.mem_iff name).trans hnames.symm, fun hname => hvalues name (hnames.mp hname)⟩

/-- Two tuples of one key, and a tuple after all four clauses: the first clauses are evaluated on the host, and
all of them distributed. -/
theorem streams_uniform_two_in_group :
    let env : Environment := ⟨1, none, .empty, .empty, .info, []⟩
    let e (kind : ExpressionKind) : Expression := .mk kind .unknown ⟨some .host⟩
    let numbers := e (.sequence [e (.literal (.integer 7)), e (.literal (.integer 8))])
    let clauses (mode : Mode) : List Clause :=
      [.forEach "x" (some "at") true numbers, .letBe "y" (e (.literal (.bool true))),
        .groupBy [⟨"y", none⟩], .count "n"].map fun kind => .mk kind .unknown ⟨some mode⟩
    ∃ stage whole, compileClauses .empty .start ((clauses .host).take 2) = .ok stage ∧
      compileClauses .empty .start (clauses .rows) = .ok whole ∧
      (∃ tuple, whole.Emits env tuple ∧ tuple.BindsExactly ["x", "at", "y", "y", "n"]) ∧
      ∃ group out record, stage.Groups env [⟨"y", none⟩] .unknown .root group ∧
        group.2.map Tuple.names = [["x", "at", "y"], ["x", "at", "y"]] ∧
        PlanEvaluator.linearize [⟨"y", none⟩] .unknown group env .empty = .ok out record ∧
        ∀ member ∈ group.2, ∀ name, name ∈ out.names ↔ name ∈ member.names := by
  intro env e numbers clauses
  let keys : List (GroupKey Plan) := [⟨"y", none⟩]
  let ev := Evaluator.ofDepth 9
  let tuplesOf (p : Pipeline) := (Step.eval p.feed (ev.feedRows .root)).value? env
  let pairsOf (p : Pipeline) :=
    (Step.eval p.feed (ev.gatherAll (ev.plans.groupedTuple keys .unknown .root) .root)).value? env
  let groupNames (pairs : List (GroupingKey × Tuple)) :=
    (Collection.groupPairs GroupingKey.same pairs).map fun group =>
      (group.2.map Tuple.names, ((PlanEvaluator.linearize keys .unknown group).value? env).isSome)
  have htuples : (compileClauses .empty .start (clauses .rows)).toOption.map (fun p =>
      (tuplesOf p).map (·.records.length)) = some (some 1) := by decide +kernel
  have hpairs : (compileClauses .empty .start ((clauses .host).take 2)).toOption.map (fun p =>
      (pairsOf p).map groupNames) = some (some [([["x", "at", "y"], ["x", "at", "y"]], true)]) := by
    decide +kernel
  obtain ⟨stage, hstage, -, -, hgroups⟩ := @streams_uniform .empty (clauses .host) _ rfl env 2
  obtain ⟨whole, hwhole, -, hemits, -⟩ := @streams_uniform .empty (clauses .rows) _ rfl env 4
  rw [hstage] at hpairs
  rw [show compileClauses .empty .start (clauses .rows) = .ok whole from hwhole] at htuples
  refine ⟨stage, whole, hstage, hwhole, ?_, ?_⟩
  · obtain ⟨rows, hrows, hlength⟩ := Option.map_eq_some_iff.mp (Option.some.inj htuples)
    obtain ⟨s, hrun⟩ := Step.exists_run_of_value? hrows
    obtain ⟨tuple, hrecords⟩ := List.length_eq_one_iff.mp hlength
    have htuple : whole.Emits env tuple := .collects .fresh hrun (hrecords ▸ List.mem_singleton_self tuple)
    exact ⟨tuple, htuple, hemits tuple htuple⟩
  · obtain ⟨pairs, hpairs, hread⟩ := Option.map_eq_some_iff.mp (Option.some.inj hpairs)
    obtain ⟨s, hrun⟩ := Step.exists_run_of_value? hpairs
    obtain ⟨group, hgroup, hread⟩ := List.map_eq_singleton_iff.mp hread
    obtain ⟨hnames, hout⟩ := Prod.mk.inj hread
    obtain ⟨out, hout⟩ := Option.isSome_iff_exists.mp hout
    obtain ⟨record, hout⟩ := Engine.exists_run_of_value? hout
    have hmade : stage.Groups env keys .unknown .root group :=
      .onHost .fresh hrun (hgroup ▸ List.mem_singleton_self group)
    exact ⟨group, out, record, hmade, hnames, hout, fun member hmember name =>
      (hgroups _ _ _ group hmade _ out record hout member hmember name).1⟩

end HybridQuery
