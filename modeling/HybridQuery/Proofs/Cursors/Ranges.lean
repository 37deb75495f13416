import Mathlib.Data.Int.Range
import HybridQuery.Plan.Compile
import HybridQuery.Proofs.Cursors.Histories
import HybridQuery.Proofs.Passes
import HybridQuery.Proofs.Results

/-!
# Ranges count up

A range counts from its first bound up to its last one. It keeps the next integer and the last one from
one opening to the other, and there is no next one after the greatest integer.

* `CountsUp`: items that are the integers from one bound to another.
* `Meaning.countsUp_rangeItems`: what a range hands out counts up, to the greatest integer too.
* `Expression.compile_range`: the analysis puts every range on the host.
* `Host.range_counts`: every cursor of a range counts from bound to bound, whatever happened to it.
-/

namespace HybridQuery

open Filter

/-! ## Counting -/

/-- The integers between two bounds, in ascending order. There are none if a bound is missing. -/
def integersBetween (low high : Option Int64) : List Int :=
  match low, high with
  | some low, some high => Int.range low.toInt (high.toInt + 1)
  | _, _ => []

/-- The items are the integers between two bounds. -/
def CountsUp (low high : Option Int64) (items : Sequence) : Prop :=
  ∃ ns : List Int64, items = ns.map .integer ∧ ns.map Int64.toInt = integersBetween low high

/-- A bound that is missing is an empty sequence. -/
def boundItems (bound : Option Int64) : Sequence := (bound.map Item.integer).toList

namespace Meaning

/-- Counting does not wrap around as long as there are integers left. -/
theorem countUp_integers {n : Int64} (count : Nat) (h : n.toInt + count ≤ Int64.maxValue.toInt + 1) :
    ∃ ns : List Int64, countUp n count = ns.map .integer ∧
      ns.map Int64.toInt = (List.range count).map fun (i : Nat) => n.toInt + i := by
  induction count generalizing n with
  | zero => exact ⟨[], rfl, rfl⟩
  | succ count ih =>
    obtain rfl | hcount := Nat.eq_zero_or_pos count
    · -- there may be no integer after this one
      exact ⟨[n], rfl, by simp⟩
    · have hmax : Int64.maxValue.toInt = 9223372036854775807 := rfl
      have hnext : (n + 1).toInt = n.toInt + 1 := by
        rw [Int64.toInt_add, show (1 : Int64).toInt = 1 from rfl]
        have := n.le_toInt
        exact Int.bmod_eq_of_le (by omega) (by omega)
      obtain ⟨ns, hns, hvalues⟩ := ih (n := n + 1) (by omega)
      refine ⟨n :: ns, by rw [countUp, hns, List.map_cons], ?_⟩
      rw [List.map_cons, hvalues, hnext, List.range_succ_eq_map, List.map_cons, List.map_map]
      refine congrArg₂ _ (by simp) (List.map_congr_left fun i _ => ?_)
      simp only [Function.comp_apply, Nat.succ_eq_add_one]
      omega

/-- A range hands out the integers between its bounds, also if one of them is the smallest or the
greatest integer. -/
theorem countsUp_rangeItems (low high : Option Int64) : CountsUp low high (rangeItems low high) := by
  rcases low with _ | l <;> rcases high with _ | h
  · exact ⟨[], rfl, rfl⟩
  · exact ⟨[], rfl, rfl⟩
  · exact ⟨[], rfl, rfl⟩
  · have hmax : Int64.maxValue.toInt = 9223372036854775807 := rfl
    have hl := l.toInt_le
    have hh := h.toInt_le
    obtain ⟨ns, hns, hvalues⟩ := countUp_integers (n := l) (h.toInt - l.toInt + 1).toNat (by omega)
    refine ⟨ns, hns, hvalues.trans ?_⟩
    rw [integersBetween, Int.range, show h.toInt + 1 - l.toInt = h.toInt - l.toInt + 1 by omega]

end Meaning

/-- There is one way only to count from bound to bound. -/
theorem CountsUp.unique {low high : Option Int64} {items others : Sequence}
    (h : CountsUp low high items) (h' : CountsUp low high others) : items = others := by
  obtain ⟨ns, rfl, hns⟩ := h
  obtain ⟨ms, rfl, hms⟩ := h'
  rw [List.map_injective_iff.mpr (fun _ _ => Int64.toInt_inj.mp) (hns.trans hms.symm)]

/-! ## The plans of ranges -/

/-- The analysis puts a range on the host, and a range of expressions becomes a range of plans. -/
theorem Expression.compile_range {callee : CalleeMode} {scopes : List Scope}
    {declared after : Declarations} {first last range : Expression} {position : SourcePosition}
    {mode : Mode} {catalogue : Catalogue} {p : Plan}
    (hanalysed : ((Expression.mk (.range first last) position .empty).analyse callee scopes).run
      declared = ((range, .ok mode), after))
    (hcompiled : range.compile catalogue = .ok p) :
    ∃ low high, p = .mk .host position (.range low high) := by
  rw [Expression.analyse, if_neg (by decide), StateT.run_bind, ExpressionKind.analyse, Pass.run_wrap]
    at hanalysed
  generalize hparts : (Pass.andThen _ _ _).run declared = parts at hanalysed
  obtain ⟨⟨⟨first', last'⟩, result⟩, after'⟩ := parts
  cases result with
  | error e => cases hanalysed
  | ok result =>
    cases hanalysed
    change (do return Plan.mk .host position (← (ExpressionKind.range first' last').compile catalogue
      position)) = Except.ok p at hcompiled
    rw [ExpressionKind.compile] at hcompiled
    obtain ⟨operation, hoperation, hp⟩ := except_bind_eq_ok_iff.mp hcompiled
    obtain ⟨low, -, hoperation⟩ := except_bind_eq_ok_iff.mp hoperation
    obtain ⟨high, -, hoperation⟩ := except_bind_eq_ok_iff.mp hoperation
    cases hoperation
    cases hp
    exact ⟨low, high, rfl⟩

/-! ## Cursors of ranges -/

section
variable {env : Environment} {marks : Nat → List Bindings} {context : Context}

/-- A plan that settles on a bound is a bound at all large depths. -/
theorem Settles.rangeBound {p : Plan} {bound : Option Int64} (hcontext : context.Known marks)
    (h : Settles env (fun depth => (Evaluator.ofDepth depth).plans.evaluate p context)
      (.ok (boundItems bound))) :
    ∀ᶠ depth in atTop, ((Meaning.ofDepth depth).plans.rangeBound p context).result env = .ok bound := by
  filter_upwards [(hcontext.meant_evaluate p).settles_iff_eventually.mp h] with depth hdepth
  rw [PlanEvaluator.rangeBound, PlanEvaluator.optionalItem]
  have hoptional (items : Sequence) : Engine.Steady env
      (Run.ofResult (Sequence.optional items "Range bound" p.position)) :=
    (Tends.ofResult (F := ⊥) (L := True) _).1
  rw [Engine.result_bind, Engine.result_bind fun items _ => hoptional items, hdepth]
  · cases bound <;> rfl
  · rintro (_ | i) -
    · exact fun _ => rfl
    · cases i <;> exact fun _ => rfl

/-- Over bounds that the meaning of a depth knows, a range gives the integers between them. -/
theorem Meaning.items_range {depth : Nat} {low high : Plan} {position : SourcePosition}
    {lo hi : Option Int64} (hlow : ((ofDepth depth).plans.rangeBound low context).result env = .ok lo)
    (hhigh : ((ofDepth depth).plans.rangeBound high context).result env = .ok hi) :
    (ofDepth (depth + 1)).items env context (.mk .host position (.range low high)) =
      .ofList (rangeItems lo hi) := by
  refine Trace.eq_ofList_of_result ?_
  change (Trace.locate position
    (.attempt (((ofDepth depth).plans.rangeBound low context).result env) fun lo =>
      .attempt (((ofDepth depth).plans.rangeBound high context).result env) fun hi =>
        .ofList (rangeItems lo hi))).result = _
  rw [hlow, hhigh]
  change ((Trace.ofList (rangeItems lo hi)).locate position).result = _
  rw [Trace.result_locate, Trace.result_ofList]
  rfl

/-- **Ranges count from bound to bound.** Whatever a host did with the cursors of a range, in contexts
where the bounds are what they are there: opened or reset in a context where the range has its bounds, a
cursor hands out the integers between them, and then it has no more. Nothing overflows, at the greatest
integer either, and nothing is left of the bounds of an earlier opening. -/
theorem Host.range_counts {callee : CalleeMode} {scopes : List Scope} {declared after : Declarations}
    {first last range : Expression} {position : SourcePosition} {mode : Mode} {catalogue : Catalogue}
    {p : Plan}
    (hanalysed : ((Expression.mk (.range first last) position .empty).analyse callee scopes).run
      declared = ((range, .ok mode), after))
    (hcompiled : range.compile catalogue = .ok p) :
    ∃ low high : Plan, p = .mk .host position (.range low high) ∧
      ∀ {env : Environment} {marks : Nat → List Bindings} {context : Context} {lo hi : Option Int64},
        context.Known marks →
        Settles env (fun depth => (Evaluator.ofDepth depth).plans.evaluate low context)
          (.ok (boundItems lo)) →
        Settles env (fun depth => (Evaluator.ofDepth depth).plans.evaluate high context)
          (.ok (boundItems hi)) →
        ∃ items, CountsUp lo hi items ∧
          ∃ depth, ∀ deeper, depth ≤ deeper → ∀ (actions : List HostAction) (record : RunRecord),
            (∀ action ∈ actions, action.Known marks) →
              let ev := Evaluator.ofDepth deeper
              let host := Host.performAll env ev ⟨[p.cursor], record⟩ actions
              ∀ c ∈ host.cursors, IsOver env ev context items c := by
  obtain ⟨low, high, rfl⟩ := Expression.compile_range hanalysed hcompiled
  refine ⟨low, high, rfl, fun {env marks context lo hi} hcontext hlow hhigh => ?_⟩
  refine ⟨Meaning.rangeItems lo hi, Meaning.countsUp_rangeItems lo hi, ?_⟩
  obtain ⟨depth, hlow, hhigh⟩ := ((hlow.rangeBound hcontext).and (hhigh.rangeBound hcontext)).exists
  have htrace : (Meaning.ofDepth (depth + 1)).items env context (.mk .host position (.range low high)) =
      .ofList (Meaning.rangeItems lo hi) := Meaning.items_range hlow hhigh
  obtain ⟨enough, henough⟩ := Host.isOver_of_items hcontext htrace
  refine ⟨enough, fun deeper hdeep actions record hactions c hc => ?_⟩
  obtain ⟨index, hindex⟩ := List.mem_iff_getElem?.mp hc
  exact (henough deeper hdeep actions record hactions index c hindex).1

/-- A range over all integers is pulled and copied, and then it is opened with its bounds at the end. -/
theorem Host.range_counts_to_greatest :
    let env : Environment := ⟨1, none, .empty, .empty, .info, []⟩
    let bounds (low high : Int64) : Context :=
      ⟨none, [.single "low" (.items [.integer low]), .single "high" (.items [.integer high])]⟩
    let range : Plan := .mk .host .unknown
      (.range (.mk .host .unknown (.varRef "low")) (.mk .host .unknown (.varRef "high")))
    ∃ depth, ∀ deeper, depth ≤ deeper →
      let ev := Evaluator.ofDepth deeper
      let host := Host.performAll env ev ⟨[range.cursor], .empty⟩
        [.call 0 (.openIn (bounds Int64.minValue Int64.maxValue)), .call 0 .next, .copy 0,
          .call 0 (.reset (bounds 5 Int64.maxValue)), .call 0 .next]
      ∀ c ∈ host.cursors, IsOver env ev (bounds (Int64.maxValue - 1) Int64.maxValue)
        [.integer (Int64.maxValue - 1), .integer Int64.maxValue] c := by
  intro env bounds range
  have hknown (context : Context) (h : context.handle = none) : context.Known fun _ => [] :=
    .of_unmarked h
  obtain ⟨low, high, hplan, hrange⟩ := @Host.range_counts (fun _ => pure (.ok .host))
    [[("low", .host), ("high", .host)]] [] _ (.mk (.varRef "low") .unknown .empty)
    (.mk (.varRef "high") .unknown .empty) _ .unknown _ .empty range rfl rfl
  obtain ⟨rfl, rfl⟩ : low = .mk .host .unknown (.varRef "low") ∧
      high = .mk .host .unknown (.varRef "high") := by
    injection hplan with _ _ h
    injection h with hlow hhigh
    exact ⟨hlow.symm, hhigh.symm⟩
  obtain ⟨items, hitems, depth, hdepth⟩ := @hrange env (fun _ => [])
    (bounds (Int64.maxValue - 1) Int64.maxValue) (some (Int64.maxValue - 1)) (some Int64.maxValue) (hknown _ rfl)
    (((hknown _ rfl).meant_evaluate _).settles_of_value? 2 rfl)
    (((hknown _ rfl).meant_evaluate _).settles_of_value? 2 rfl)
  obtain rfl := hitems.unique
    ⟨[Int64.maxValue - 1, Int64.maxValue], rfl, by decide⟩
  refine ⟨depth, fun deeper hdeep => hdepth deeper hdeep _ .empty fun action ha => ?_⟩
  simp only [List.mem_cons, List.not_mem_nil, or_false] at ha
  rcases ha with rfl | rfl | rfl | rfl | rfl <;> first | trivial | exact hknown _ rfl

end

end HybridQuery
