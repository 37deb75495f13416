import HybridQuery.Proofs.Guarding.Basic
import HybridQuery.Session.Basic

/-!
# What a crossing pulls to the host

A collection is pulled to the host whole or not at all. Whether there are too many records is told by
looking at one more than the cap lets through, and that number has to fit a machine word: it does for
every cap but the greatest.

* `EngineConfig.check_eq_ok_iff`: which configurations are accepted; every positive cap is.
* `Engine.materialize_passed`, `Engine.materialize_refused`: the two ends of a crossing and what each counts.
* `Engine.materialize_whole`: below the greatest word the records arrive whole or the crossing fails.
* `Engine.materialize_greatest`: under the greatest word nothing arrives, and nothing fails.
-/

namespace HybridQuery

variable {α : Type} {env : Environment}

/-- What a configuration must have to be accepted. -/
theorem EngineConfig.check_eq_ok_iff {c : EngineConfig} :
    c.check = .ok () ↔
      c.defaultPartitions ≠ 0 ∧ c.materializationCap ≠ some 0 ∧
        (Severity.parse? c.logLevel).isSome = true := by
  unfold check
  by_cases hpartitions : c.defaultPartitions = 0
  · simp [hpartitions]
  · by_cases hcap : c.materializationCap = some 0
    · simp [hpartitions, hcap]
    · cases hlevel : Severity.parse? c.logLevel <;> simp [hpartitions, hcap]

/-- The greatest number that a machine word holds, as a cap, lets nothing through: one more is zero. -/
theorem Collection.capped_greatest (c : Collection α) :
    c.capped (some (wordBound - 1)) = .ok [] := by
  have hnext : (wordBound - 1 + 1) % wordBound = 0 := by
    rw [Nat.sub_add_cancel (show 1 ≤ wordBound by decide +kernel), Nat.mod_self]
  simp [Collection.capped, Collection.take, hnext]

namespace Engine

/-- A crossing that the cap lets pass gives what it lets through and is counted once, with the number of
these records. -/
theorem materialize_passed {c : Collection α} {records : List α}
    (h : c.capped env.materializationCap = .ok records) (position : SourcePosition) (r : RunRecord) :
    ∃ r', materialize c position env r = .ok records r' ∧
      r'.metrics =
        { r.metrics with
          materializations := r.metrics.materializations + 1
          itemsMaterialized := Metrics.addAmount r.metrics.itemsMaterialized records.length } := by
  have hrun : materialize c position env r =
      (do
        let records ← Run.ofResult (.ok records)
        count (·.materialized records.length)
        log .collectionMaterialized
          [("items", toString records.length), ("partitions", toString c.numPartitions),
           ("position", position.text)]
        return records : Engine (List α)) env r := by
    change (Run.ofResult ((c.capped env.materializationCap).locate position) >>= _ : Engine _) env r = _
    rw [h]
    rfl
  rw [hrun]
  -- the log is written or not, the counters are the same either way
  refine ⟨_, rfl, ?_⟩
  dsimp only
  split <;> rfl

/-- A crossing that the cap stops is blamed on its position, and it leaves no trace. -/
theorem materialize_refused {c : Collection α} {fault : Fault}
    (h : c.capped env.materializationCap = .fail fault) (position : SourcePosition) (r : RunRecord) :
    materialize c position env r = .error (.raised ⟨fault, some position⟩) r := by
  change (Run.ofResult ((c.capped env.materializationCap).locate position) >>= _ : Engine _) env r = _
  rw [h]
  rfl

/-- **A crossing drops no records.** Under no cap, or a cap below the greatest machine word, a collection
arrives on the host as exactly its records, in the order of its partitions, if the cap lets that many
through, and the crossing is counted with them; otherwise it fails at its position with the cap's own
fault, and nothing is counted. -/
theorem materialize_whole (hcap : ∀ cap, env.materializationCap = some cap → cap + 1 < wordBound)
    (c : Collection α) (position : SourcePosition) (r : RunRecord) :
    ((∀ cap, env.materializationCap = some cap → c.partitions.flatten.length ≤ cap) →
      ∃ r', materialize c position env r = .ok c.partitions.flatten r' ∧
        r'.metrics =
          { r.metrics with
            materializations := r.metrics.materializations + 1
            itemsMaterialized :=
              Metrics.addAmount r.metrics.itemsMaterialized c.partitions.flatten.length }) ∧
    (∀ cap, env.materializationCap = some cap → cap < c.partitions.flatten.length →
      materialize c position env r =
        .error (.raised ⟨.materializationLimit cap, some position⟩) r) := by
  constructor
  · intro hfits
    refine materialize_passed ?_ position r
    cases hset : env.materializationCap with
    | none => rfl
    | some cap => rw [c.capped_eq (hcap cap hset)]; exact if_neg (Nat.not_lt.mpr (hfits cap hset))
  · intro cap hset hlong
    refine materialize_refused ?_ position r
    rw [hset, c.capped_eq (hcap cap hset)]
    exact if_pos hlong

/-- A cap of two passes two records and stops three; both crossings start from a used record. -/
theorem materialize_whole_two_three :
    let env : Environment := ⟨4, some 2, .empty, .empty, .info, []⟩
    let r : RunRecord := ⟨{ materializations := 5, itemsMaterialized := 40 }, [], []⟩
    (∀ cap, env.materializationCap = some cap → cap + 1 < wordBound) ∧
      (∃ r', materialize ⟨[[1], [], [2]]⟩ (.make 3 7) env r = .ok [1, 2] r' ∧
        r'.metrics.materializations = 6 ∧ r'.metrics.itemsMaterialized = 42) ∧
      materialize ⟨[[1], [2, 3]]⟩ (.make 3 7) env r =
        .error (.raised ⟨.materializationLimit 2, some (.make 3 7)⟩) r := by
  intro env r
  have hword : ∀ cap, env.materializationCap = some cap → cap + 1 < wordBound := by
    intro cap hset
    cases hset
    decide +kernel
  refine ⟨hword, ?_, ?_⟩
  · obtain ⟨r', hrun, hmetrics⟩ :=
      (materialize_whole hword ⟨[[1], [], [2]]⟩ (.make 3 7) r).1 fun cap hset => by cases hset; decide
    exact ⟨r', hrun, by rw [hmetrics], by rw [hmetrics]; decide +kernel⟩
  · exact (materialize_whole hword ⟨[[1], [2, 3]]⟩ (.make 3 7) r).2 2 rfl (by decide)

/-- Under the greatest machine word as a cap every collection arrives empty, and the crossing is counted
as one of no records. -/
theorem materialize_greatest (hcap : env.materializationCap = some (wordBound - 1)) (c : Collection α)
    (position : SourcePosition) (r : RunRecord) :
    ∃ r', materialize c position env r = .ok [] r' ∧
      r'.metrics =
        { r.metrics with
          materializations := r.metrics.materializations + 1
          itemsMaterialized := Metrics.addAmount r.metrics.itemsMaterialized 0 } :=
  materialize_passed (hcap ▸ c.capped_greatest) position r

/-- The greatest machine word is a cap that a configuration may have, and a session under it loses the
one record of a collection without an error. -/
theorem materialize_loses_record :
    let config : EngineConfig := { materializationCap := some (wordBound - 1) }
    let c : Collection Nat := ⟨[[1]]⟩
    let env := Session.environmentOf config .empty .empty
    config.check = .ok () ∧ config.materializationCap = some 18446744073709551615 ∧
      c.partitions.flatten = [1] ∧
      ∃ r, materialize c .unknown env .empty = .ok [] r ∧
        r.metrics.materializations = 1 ∧ r.metrics.itemsMaterialized = 0 := by
  intro config c env
  have hcap : env.materializationCap = some (wordBound - 1) := rfl
  obtain ⟨r, hrun, hmetrics⟩ := materialize_greatest hcap c .unknown .empty
  refine ⟨?_, by decide +kernel, rfl, r, hrun, ?_, ?_⟩
  · exact EngineConfig.check_eq_ok_iff.mpr ⟨by decide, by decide +kernel, by decide +kernel⟩
  · rw [hmetrics]
    rfl
  · rw [hmetrics]
    decide +kernel

end Engine
end HybridQuery
