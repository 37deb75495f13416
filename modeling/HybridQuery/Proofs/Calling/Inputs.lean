import HybridQuery.Proofs.Lookups.Chains
import HybridQuery.Proofs.ReturnTypes
import HybridQuery.Proofs.Streaming

/-!
# What built-in functions make of their arguments

A built-in function evaluates an argument as a whole, in distributed form, or only as far as it takes to
know its first item. Without a cap all of these come to the same items, and so a call comes to an answer
that depends on the items of its arguments alone, not on their modes or on how they are computed.

* `Engine.ComesTo`: what a computation comes to if its failures are not told apart. There is a rule for
  every way to combine computations.
* `PlanEvaluator.Gives`: all ways to evaluate a plan come to the same items. `Meaning.gives_of_evaluate`:
  they do if the plan is evaluated as a whole.
* `Builtin.answer?`: what a built-in function makes of the items of its arguments.
* `PlanEvaluator.Gives.builtinItems`: a call on the host comes to the answer. `Builtin.settles_iff` says it
  of evaluations, in both modes that a call may have.
-/

namespace HybridQuery

variable {env : Environment} {context : Context} {α β : Type}

/-! ## Computations that come to a value -/

theorem TypeResult.toOption_toEngine (r : TypeResult α) : r.toEngine.toOption = r.toOption := by
  cases r <;> rfl

namespace Engine

/-- Whatever was recorded before, a computation comes to a value, or it fails if there is none. -/
structure ComesTo (env : Environment) (x : Engine α) (o : Option α) : Prop where
  steady : x.Steady env
  value : x.value? env = o

namespace ComesTo

variable {x : Engine α} {o : Option α}

theorem of_steady (h : x.Steady env) : ComesTo env x (x.value? env) := ⟨h, rfl⟩

theorem pure (a : α) : ComesTo env (Pure.pure a) (some a) := ⟨fun _ => rfl, rfl⟩

theorem fail (fault : Fault) : ComesTo env (Run.fail (α := α) fault) none := ⟨fun _ => rfl, rfl⟩

theorem ofResult (r : EngineResult α) : ComesTo env (Run.ofResult r) r.toOption := by
  cases r with
  | ok a => exact pure a
  | error e => exact ⟨fun _ => rfl, rfl⟩

theorem environment : ComesTo env Run.environment (some env) := ⟨fun _ => rfl, rfl⟩

theorem materialize (hcap : env.materializationCap = none) (c : Collection α) (position : SourcePosition) :
    ComesTo env (Engine.materialize c position) (some c.records) :=
  ⟨(Tends.materialize (F := ⊥) (L := True) c position).1, value?_materialize hcap c position⟩

/-- Only what is done with the value that a computation comes to matters. -/
theorem bind {k : α → Engine β} {r : α → Option β} (hx : ComesTo env x o)
    (hk : ∀ a, o = some a → ComesTo env (k a) (r a)) : ComesTo env (x >>= k) (o.bind r) := by
  have hok (a : α) (ha : x.result env = .ok a) : ComesTo env (k a) (r a) :=
    hk a (by rw [← hx.value, value?, ha]; rfl)
  refine ⟨(Tends.bind_of (F := ⊥) (L := True) (f := fun _ => k) (.of_steady hx.steady)
    fun a ha => .of_steady (hok a ha).steady).1, ?_⟩
  rw [value?_bind fun a ha => (hok a ha).steady, hx.value]
  cases o with
  | none => rfl
  | some a => exact (hk a rfl).value

theorem map (f : α → β) (hx : ComesTo env x o) : ComesTo env (f <$> x) (o.map f) := by
  have := hx.bind (k := fun a => Pure.pure (f a)) fun a _ => pure (f a)
  cases o <;> exact this

end ComesTo
end Engine

/-! ## One way or another -/

/-- A plan is evaluated to items by every evaluator that is deep enough. -/
abbrev Plan.SettlesOn (env : Environment) (context : Context) (p : Plan) (items : Sequence) : Prop :=
  Settles env (fun depth => (Evaluator.ofDepth depth).plans.evaluate p context) (.ok items)

/-- All ways to evaluate a plan come to the same items. -/
structure PlanEvaluator.Gives (ev : PlanEvaluator) (env : Environment) (context : Context) (p : Plan)
    (items : Sequence) : Prop where
  all : (ev.evaluate p context).ComesTo env (some items)
  first : (ev.firstOnHost p context).ComesTo env (some (items.take 1))
  isEmpty : (ev.emptyOnHost p context).ComesTo env (some items.isEmpty)
  rows : p.mode.isParallel = true →
    ∃ c, (ev.rows p context).ComesTo env (some c) ∧ c.records = items

theorem Trace.result_of_all? {t : Trace α} {l : List α} (h : t.all? = some l) : t.result = .ok l := by
  rw [all?] at h
  cases ht : t.result with
  | error f => rw [ht] at h; cases h
  | ok k => rw [ht] at h; cases h; rfl

theorem Engine.ComesTo.given {r : Environment → Except Failure α} {a : α} (h : r env = .ok a) :
    ComesTo env (Engine.given r) (some a) := by
  refine ⟨(Tends.given (F := ⊥) (L := True) (x := fun _ => Engine.given r) Filter.eventually_bot).1, ?_⟩
  rw [value?_given, h]
  rfl

namespace Meaning

variable (depth : Nat) {p : Plan} {items : Sequence}

/-- Without a cap, a distributed plan is evaluated to the records of its distributed form. -/
theorem value?_evaluate_parallel (hcap : env.materializationCap = none) (hp : p.mode.isParallel = true) :
    ((ofDepth depth).plans.evaluate p context).value? env =
      Collection.records? ((ofDepth depth).rows p context) env := by
  obtain ⟨mode, position, operation⟩ := p
  rw [value?_evaluate]
  cases mode with
  | unset | host => cases hp
  | rows | columns => exact Trace.all?_trace_materialize hcap _ position

/-- A plan that is evaluated as a whole gives the same items in every other way. -/
theorem gives_of_evaluate (hcap : env.materializationCap = none)
    (h : ((ofDepth depth).plans.evaluate p context).value? env = some items) :
    (ofDepth depth).plans.Gives env context p items := by
  have htrace : (ofDepth depth).items env context p = .ofList items :=
    Trace.eq_ofList_of_result (Trace.result_of_all? ((value?_evaluate _ p context).symm.trans h))
  refine ⟨.given (by rw [htrace, Trace.result_ofList]), .given ?_, .given ?_, fun hp => ?_⟩
  · rw [htrace, Trace.ahead_ofList]
    cases items <;> rfl
  · rw [htrace]
    cases items <;> rfl
  · rw [value?_evaluate_parallel depth hcap hp] at h
    obtain ⟨c, hc, hitems⟩ := Option.map_eq_some_iff.mp h
    exact ⟨c, ⟨(ofDepth_steady depth p).1, hc⟩, hitems⟩

end Meaning

/-! ## Answers -/

/-- At most one item, unless there are several. -/
def Sequence.atMostOne? : Sequence → Option (Option Item)
  | [] => some none
  | [i] => some (some i)
  | _ => none

theorem Sequence.toOption_optional (items : Sequence) (what : String) (position : SourcePosition) :
    (items.optional what position).toOption = items.atMostOne? := by
  rcases items with _ | ⟨i, _ | ⟨j, rest⟩⟩ <;> rfl

namespace Builtin

/-- The location that an argument names. -/
def location? (items : Sequence) : Option String :=
  items.atMostOne?.bind fun
    | some (.string location) => some location
    | _ => none

/-- The number of partitions that an argument asks for, if there is one. -/
def partitions? (default : Nat) : Option Sequence → Option Nat
  | none => some default
  | some items =>
    items.atMostOne?.bind fun
      | none => some default
      | some (.integer n) => if n > 0 then some n.toInt.toNat else none
      | some _ => none

/-- What a constructor makes of its argument. -/
def constructed? (type : ItemType) (items : Sequence) : Option Sequence :=
  items.atMostOne?.bind fun
    | none => some []
    | some (.string text) => (Item.cast text type).toOption.map fun i => [i]
    | some i => if i.typeName = type.name then some [i] else none

/-- What is read from an argument. -/
def component? (read : Item → EngineResult Sequence) (items : Sequence) : Option Sequence :=
  items.atMostOne?.bind fun
    | none => some []
    | some i => (read i).toOption

/-- The number of members of an argument. -/
def size? (items : Sequence) : Option Sequence :=
  items.atMostOne?.bind fun
    | none => some []
    | some (.array members) => some [.integer (Int64.ofNat members.length)]
    | some _ => none

variable (b : Builtin) (env : Environment) (items : Sequence) (others : List Sequence)

/-- The distributed form of a source: `items` are those of its first argument, `others` those of each of the
other ones. -/
def rows? : Option (Collection Item) :=
  match b with
  | .jsonFile =>
    (location? items).bind fun location =>
      (partitions? env.defaultPartitions others.head?).bind fun count =>
        (Engine.jsonLines location count).value? env
  | .textFile =>
    (location? items).bind fun location =>
      (partitions? env.defaultPartitions others.head?).bind fun count =>
        ((Engine.textLines location count).value? env).map (·.map .string)
  | .structuredJsonFile =>
    (location? items).bind fun location => ((Engine.jsonFrame location).value? env).map Frame.toRows
  | .parallelize => (partitions? env.defaultPartitions others.head?).map (.parallelize items)
  | _ => none

/-- What a built-in function makes of the items of its arguments. -/
def answer? : Option Sequence :=
  match b with
  | .jsonFile | .textFile | .structuredJsonFile | .parallelize =>
    (b.rows? env items others).map Collection.records
  | .count => some [.integer (Int64.ofNat items.length)]
  | .empty => some [.boolean items.isEmpty]
  | .nonEmpty => some [.boolean (!items.isEmpty)]
  | .sum => items.sum.toOption.map fun i => [i]
  | .keys => some (items.allKeys.map .string)
  | .size => size? items
  | .head => some (items.take 1)
  | .intersect => some [items.intersection]
  | .yearFromDateTime => component? (PlanEvaluator.yearOf b) items
  | .timezoneFromTime => component? (PlanEvaluator.timezoneOf b) items
  | b => b.constructs?.bind fun type => constructed? type items

end Builtin

/-! ## Calls on the host -/

namespace PlanEvaluator

variable (ev : PlanEvaluator) {b : Builtin} {p : Plan} {ps : List Plan}

theorem inputCount_rows (hm : p.mode = .rows) :
    ev.inputCount b (p :: ps) context = Collection.count <$> ev.rows p context := by
  obtain ⟨mode, position, operation⟩ := p
  cases hm
  rfl

theorem inputCount_host (hm : p.mode.isParallel = false) :
    ev.inputCount b (p :: ps) context = List.length <$> ev.evaluate p context := by
  obtain ⟨mode, position, operation⟩ := p
  cases mode with
  | unset | host => rfl
  | rows | columns => cases hm

end PlanEvaluator

namespace PlanEvaluator.Gives

variable {ev : PlanEvaluator} {b : Builtin} {p : Plan} {ps : List Plan} {items : Sequence}
  {others : List Sequence} (hp : ev.Gives env context p items)
include hp

/-! ### A single argument -/

theorem optionalItem (what : String) :
    (ev.optionalItem p context what).ComesTo env items.atMostOne? := by
  rw [← items.toOption_optional what p.position]
  exact hp.all.bind (r := fun items => (items.optional what p.position).toOption)
    fun l _ => .ofResult _

theorem wholeInput : (ev.wholeInput b (p :: ps) context).ComesTo env (some items) := hp.all

theorem atomicInput : (ev.atomicInput b (p :: ps) context).ComesTo env items.atMostOne? :=
  hp.optionalItem _

theorem firstItem : (ev.firstItem b (p :: ps) context).ComesTo env (some (items.take 1)) := by
  change Engine.ComesTo env (if p.mode.isParallel then _ else _) _
  split
  case isTrue hm =>
    obtain ⟨c, hc, rfl⟩ := hp.rows hm
    exact hc.map fun c => c.take 1
  case isFalse => exact hp.first

theorem isEmptyInput : (ev.isEmptyInput b (p :: ps) context).ComesTo env (some items.isEmpty) := by
  change Engine.ComesTo env (if p.mode.isParallel then _ else _) _
  split
  case isTrue hm =>
    obtain ⟨c, hc, rfl⟩ := hp.rows hm
    have hempty : (c.take 1).isEmpty = c.records.isEmpty := by
      rw [Collection.take]
      cases c.records <;> rfl
    rw [← hempty]
    exact hc.map fun c => (c.take 1).isEmpty
  case isFalse => exact hp.isEmpty

theorem inputCount (hm : p.mode ≠ .columns) :
    (ev.inputCount b (p :: ps) context).ComesTo env (some items.length) := by
  cases hmode : p.mode with
  | columns => exact absurd hmode hm
  | rows =>
    obtain ⟨c, hc, rfl⟩ := hp.rows (by rw [hmode]; rfl)
    rw [ev.inputCount_rows hmode]
    exact c.count_eq ▸ hc.map Collection.count
  | unset | host =>
    rw [ev.inputCount_host (by rw [hmode]; rfl)]
    exact hp.all.map List.length

theorem construct (type : ItemType) :
    (ev.construct b (p :: ps) context type).ComesTo env (Builtin.constructed? type items) := by
  refine hp.atomicInput.bind fun o _ => ?_
  rcases o with _ | i
  · exact .pure []
  · cases i with
    | string text =>
      dsimp only
      rw [← TypeResult.toOption_toEngine]
      exact (Engine.ComesTo.ofResult _).map fun i => [i]
    | _ =>
      dsimp only
      split
      · exact .pure _
      · exact .fail _

theorem component (read : Item → EngineResult Sequence) :
    (ev.component b (p :: ps) context read).ComesTo env (Builtin.component? read items) := by
  refine hp.atomicInput.bind fun o _ => ?_
  cases o with
  | none => exact .pure []
  | some i => exact .ofResult (read i)

theorem arraySize : (ev.arraySize b (p :: ps) context).ComesTo env (Builtin.size? items) := by
  refine (hp.optionalItem "size argument").bind fun o _ => ?_
  rcases o with _ | i
  · exact .pure []
  · cases i <;> first | exact .pure _ | exact .fail _

/-! ### Sources -/

theorem sourceLocation :
    (ev.sourceLocation b (p :: ps) context).ComesTo env (Builtin.location? items) := by
  refine (hp.optionalItem "Source location").bind fun o _ => ?_
  rcases o with _ | i
  · exact .fail _
  · cases i <;> first | exact .pure _ | exact .fail _

omit hp in
theorem sourcePartitions (hps : List.Forall₂ (ev.Gives env context) ps others) :
    (ev.sourcePartitions (p :: ps) context).ComesTo env
      (Builtin.partitions? env.defaultPartitions others.head?) := by
  refine Engine.ComesTo.environment.bind
    (r := fun e => Builtin.partitions? e.defaultPartitions others.head?) fun e he => ?_
  cases he
  cases hps with
  | nil => exact .pure _
  | cons hq _ =>
    refine (hq.optionalItem "Partition count").bind fun o _ => ?_
    rcases o with _ | i
    · exact .pure _
    · cases i with
      | integer n =>
        dsimp only
        split
        · exact .pure _
        · exact .fail _
      | _ => exact .fail _

omit hp in
/-- The records of a source are counted, which changes nothing about them. -/
theorem counted (f : α → Collection Item) {x : Engine α} {o : Option α} (hx : x.ComesTo env o) :
    (x >>= fun a => countRecords (f a)).ComesTo env (o.map f) := by
  rw [Option.map_eq_bind]
  exact hx.bind fun a _ => ⟨fun _ => rfl, rfl⟩

theorem sourceFrame : (ev.sourceFrame .structuredJsonFile (p :: ps) context).ComesTo env
    ((Builtin.location? items).bind fun location => (Engine.jsonFrame location).value? env) := by
  refine hp.sourceLocation.bind fun location _ => .of_steady ?_
  exact (Tends.environment.bind (F := ⊥) (L := True) fun e =>
    (Follows.jsonLines location e.defaultPartitions).bind fun _ => .ofResult _).1

theorem sourceRows (hps : List.Forall₂ (ev.Gives env context) ps others) :
    (ev.sourceRows b (p :: ps) context).ComesTo env (b.rows? env items others) := by
  cases b with
  | jsonFile =>
    refine hp.sourceLocation.bind fun location _ => (sourcePartitions hps).bind fun count _ => ?_
    have hlines : (Engine.jsonLines location count).ComesTo env _ :=
      .of_steady (Follows.jsonLines (F := ⊥) (L := True) location count).1
    rw [← Option.map_id' (x := (Engine.jsonLines location count).value? env)]
    exact counted id hlines
  | textFile =>
    refine hp.sourceLocation.bind fun location _ => (sourcePartitions hps).bind fun count _ => ?_
    exact counted (·.map .string)
      (.of_steady (Follows.textLines (F := ⊥) (L := True) location count).1)
  | structuredJsonFile =>
    have hframe : (ev.sourceFrame .structuredJsonFile (p :: ps) context).ComesTo env _ := hp.sourceFrame
    have hrows := counted Frame.toRows hframe
    rwa [Option.map_bind] at hrows
  | parallelize =>
    refine hp.wholeInput.bind (r := fun items =>
      (Builtin.partitions? env.defaultPartitions others.head?).map (Collection.parallelize items))
      fun items _ => ?_
    exact (sourcePartitions hps).map (Collection.parallelize items)
  | _ => exact .fail _

theorem sourceItems (hcap : env.materializationCap = none)
    (hps : List.Forall₂ (ev.Gives env context) ps others) :
    (ev.sourceItems b (p :: ps) context).ComesTo env
      ((b.rows? env items others).map Collection.records) := by
  rw [Option.map_eq_bind]
  exact (hp.sourceRows hps).bind fun rows _ => .materialize hcap rows p.position

/-! ### Any function -/

/-- A call on the host comes to what the function makes of the items of its arguments. -/
theorem builtinItems (hcap : env.materializationCap = none)
    (hps : List.Forall₂ (ev.Gives env context) ps others) (hm : b = .count → p.mode ≠ .columns) :
    (ev.builtinItems b (p :: ps) context).ComesTo env (b.answer? env items others) := by
  have hwhole (b : Builtin) (f : Sequence → Sequence) :
      (f <$> ev.wholeInput b (p :: ps) context).ComesTo env (some (f items)) := hp.wholeInput.map f
  cases b with
  | jsonFile | textFile | structuredJsonFile | parallelize => exact hp.sourceItems hcap hps
  | count => exact (hp.inputCount (hm rfl)).map fun n => [Item.integer (Int64.ofNat n)]
  | empty => exact hp.isEmptyInput.map fun e => [Item.boolean e]
  | nonEmpty => exact hp.isEmptyInput.map fun e => [Item.boolean (!e)]
  | sum =>
    exact hp.wholeInput.bind (r := fun items => items.sum.toOption.map fun i => [i]) fun items _ =>
      (Engine.ComesTo.ofResult items.sum).map fun i => [i]
  | keys => exact hwhole _ fun items => items.allKeys.map .string
  | intersect => exact hwhole _ fun items => [items.intersection]
  | size => exact hp.arraySize
  | head => exact hp.firstItem
  | yearFromDateTime | timezoneFromTime => exact hp.component _
  | _ => exact hp.construct _

end PlanEvaluator.Gives

/-! ## Calls that are evaluated -/

theorem Trace.all?_trace (x : Engine (List α)) : (x.trace env).all? = x.value? env := by
  rw [all?, result_trace]
  rfl

theorem Builtin.mode_eq_host_or_isParallel (b : Builtin) : b.mode = .host ∨ b.mode.isParallel = true := by
  cases b <;> decide

theorem Builtin.answer?_of_isParallel {b : Builtin} (h : b.mode.isParallel = true) (env : Environment)
    (items : Sequence) (others : List Sequence) :
    b.answer? env items others = (b.rows? env items others).map Collection.records := by
  cases b <;> first | rfl | cases h

section
variable {b : Builtin} {mode : Mode} (hcap : env.materializationCap = none)
  (hmode : mode = .host ∨ mode = b.mode)
include hcap hmode

/-- A call comes to the answer whether it stands on the host or in the mode of its function. -/
theorem Meaning.value?_builtin (depth : Nat) {p : Plan} {ps : List Plan} {items : Sequence}
    {others : List Sequence} (hp : (ofDepth depth).plans.Gives env context p items)
    (hps : List.Forall₂ ((ofDepth depth).plans.Gives env context) ps others)
    (hm : b = .count → p.mode ≠ .columns) (position : SourcePosition) :
    ((ofDepth (depth + 1)).plans.evaluate
      (.mk mode position (.compute (.builtin b (p :: ps)))) context).value? env =
        b.answer? env items others := by
  obtain rfl | ⟨rfl, hparallel⟩ : mode = .host ∨ mode = b.mode ∧ b.mode.isParallel = true := by
    obtain rfl | rfl := hmode
    · exact .inl rfl
    · exact b.mode_eq_host_or_isParallel.imp_right fun h => ⟨rfl, h⟩
  · rw [value?_evaluate]
    refine (Trace.all?_locate _ position).trans ?_
    exact (Trace.all?_trace _).trans (hp.builtinItems hcap hps hm).value
  · rw [value?_evaluate_parallel (p := .mk b.mode _ _) _ hcap hparallel,
      Builtin.answer?_of_isParallel hparallel]
    have hrows : (Run.distributed b.name b.mode position
        ((ofDepth depth).plans.sourceRows b (p :: ps) context)).value? env = b.rows? env items others := by
      rw [Run.distributed, hparallel]
      exact (Engine.value?_locate _ position).trans (hp.sourceRows hps).value
    exact congrArg _ hrows

/-- What a call settles on, given what its arguments settle on. -/
theorem Builtin.settles_iff {arguments : List Plan} {items : Sequence} {others : List Sequence}
    (harguments : List.Forall₂ (Plan.SettlesOn env context) arguments (items :: others))
    (hm : b = .count → ∀ p ∈ arguments, p.mode ≠ .columns) (position : SourcePosition) {r : Sequence} :
    (Plan.mk mode position (.compute (.builtin b arguments))).SettlesOn env context r ↔
      b.answer? env items others = some r := by
  have hc := context.known_scopes
  have hgives (p : Plan) (items : Sequence) (h : p.SettlesOn env context items) :
      ∀ᶠ depth in Filter.atTop, (Meaning.ofDepth depth).plans.Gives env context p items :=
    ((hc.meant_evaluate p).settles_ok_iff.mp h).mono fun depth hd => Meaning.gives_of_evaluate depth hcap hd
  have hall : ∀ᶠ depth in Filter.atTop,
      List.Forall₂ ((Meaning.ofDepth depth).plans.Gives env context) arguments (items :: others) := by
    clear hm
    generalize items :: others = inputs at harguments
    induction harguments with
    | nil => exact .of_forall fun _ => .nil
    | cons hp _ ih =>
      filter_upwards [hgives _ _ hp, ih] with depth hd hds
      exact .cons hd hds
  have hvalue : ∀ᶠ depth in Filter.atTop, ((Meaning.ofDepth (depth + 1)).plans.evaluate
      (.mk mode position (.compute (.builtin b arguments))) context).value? env =
        b.answer? env items others := by
    filter_upwards [hall] with depth hd
    obtain _ | ⟨hp, hps⟩ := hd
    exact Meaning.value?_builtin hcap hmode depth hp hps (fun hb => hm hb _ List.mem_cons_self) position
  rw [Plan.SettlesOn, (hc.meant_evaluate _).settles_ok_iff, ← eventually_add_iff 1]
  constructor
  · intro h
    obtain ⟨depth, hd, hr⟩ := (hvalue.and h).exists
    rw [← hd, hr]
  · exact fun h => hvalue.mono fun depth hd => hd.trans h

end
end HybridQuery
