import HybridQuery.Engine.Basic

/-!
# Traces

A trace is what pulling an iterator gives: results one after the other, and in the end nothing more
or a failure.

* `Trace.ahead`: the trace that is left when every result is computed ahead of the one that is handed
  out, so that a failure takes the result before it along.
* `Trace.bindFrom`: follows a trace by what a function gives for each result and its place.
* `Trace.result`: all results, or the failure.
-/

namespace HybridQuery

/-- A result of the engine as a result of a computation. -/
def EngineResult.raised {α : Type} (r : EngineResult α) : Except Failure α := r.mapError .raised

/-- Results one after the other, and how they end. -/
inductive Trace (α : Type) where
  | done
  | failed (f : Failure)
  | item (a : α) (rest : Trace α)

namespace Trace

variable {α β γ : Type}

/-- A single result. -/
def one (a : α) : Trace α := item a done

/-- The results of a list. -/
def ofList : List α → Trace α
  | [] => done
  | a :: rest => item a (ofList rest)

/-- What a function gives for a value, unless there is none. -/
def attempt (r : Except Failure α) (f : α → Trace β) : Trace β :=
  match r with
  | .ok a => f a
  | .error f => failed f

/-- The results of a list, unless there is none. -/
def ofResult (r : Except Failure (List α)) : Trace α := attempt r ofList

/-- All results, unless the trace fails. -/
def result : Trace α → Except Failure (List α)
  | done => .ok []
  | failed f => .error f
  | item a rest => (a :: ·) <$> rest.result

/-- The results before the end. -/
def toList : Trace α → List α
  | done | failed _ => []
  | item a rest => a :: rest.toList

/-- The first result, if there is one. -/
def first : Trace α → Except Failure (List α)
  | done => .ok []
  | failed f => .error f
  | item a _ => .ok [a]

/-- Whether there is no result. -/
def isEmpty : Trace α → Except Failure Bool
  | done => .ok true
  | failed f => .error f
  | item _ _ => .ok false

/-- One trace after the other. -/
def append : Trace α → Trace α → Trace α
  | done, u => u
  | failed f, _ => failed f
  | item a t, u => item a (t.append u)

/-- What a function gives for each result and its place, one after the other. -/
def bindFrom (f : Nat → α → Trace β) : Nat → Trace α → Trace β
  | _, done => done
  | _, failed e => failed e
  | place, item a t => (f place a).append (bindFrom f (place + 1) t)

/-- What a function gives for each result, one after the other. -/
def bind (t : Trace α) (f : α → Trace β) : Trace β := bindFrom (fun _ => f) 0 t

/-- What is left of a trace if each result is handed out after the next one is computed. -/
def ahead : Trace α → Trace α
  | done => done
  | failed f => failed f
  | item _ (failed f) => failed f
  | item a t => item a t.ahead

/-- Blames a position for the failure of a trace. -/
def locate (position : SourcePosition) : Trace α → Trace α
  | done => done
  | failed f => failed (f.locate position)
  | item a t => item a (t.locate position)

/-! ## Equations -/

@[simp] theorem attempt_ok (a : α) (f : α → Trace β) : attempt (.ok a) f = f a := rfl

@[simp] theorem attempt_error (e : Failure) (f : α → Trace β) :
    attempt (.error e) f = failed e := rfl

@[simp] theorem done_append (t : Trace α) : append done t = t := rfl

@[simp] theorem failed_append (f : Failure) (t : Trace α) : append (failed f) t = failed f := rfl

@[simp] theorem item_append (a : α) (t u : Trace α) :
    append (item a t) u = item a (append t u) := rfl

@[simp] theorem append_done (t : Trace α) : t.append done = t := by
  induction t with
  | done | failed => rfl
  | item a t ih => simp [ih]

theorem attempt_ofResult (r : Except Failure α) (f : α → Except Failure (List β)) :
    (attempt r fun a => ofResult (f a)) = ofResult (r >>= f) := by
  cases r <;> rfl

theorem attempt_append (r : Except Failure α) (f : α → Trace β) (t : Trace β) :
    (attempt r f).append t = attempt r fun a => (f a).append t := by
  cases r <;> rfl

@[simp] theorem done_bind (f : α → Trace β) : bind done f = done := rfl

@[simp] theorem failed_bind (e : Failure) (f : α → Trace β) : bind (failed e) f = failed e := rfl

theorem bindFrom_const (f : α → Trace β) (place : Nat) (t : Trace α) :
    bindFrom (fun _ => f) place t = t.bind f := by
  unfold bind
  induction t generalizing place with
  | done | failed => rfl
  | item a t ih =>
    simp only [bindFrom]
    rw [ih (place + 1), ih (0 + 1)]

@[simp] theorem item_bind (a : α) (t : Trace α) (f : α → Trace β) :
    bind (item a t) f = (f a).append (t.bind f) := by
  conv => lhs; unfold bind; unfold bindFrom
  rw [bindFrom_const]

@[simp] theorem ahead_done : ahead (done : Trace α) = done := rfl

@[simp] theorem ahead_failed (f : Failure) : ahead (failed f : Trace α) = failed f := rfl

@[simp] theorem ahead_item_failed (a : α) (f : Failure) : ahead (item a (failed f)) = failed f := rfl

theorem ahead_item_done (a : α) : ahead (item a done) = item a done := rfl

theorem ahead_item_item (a b : α) (t : Trace α) :
    ahead (item a (item b t)) = item a (ahead (item b t)) := rfl

theorem result_append (t u : Trace α) :
    (t.append u).result = (do return (← t.result) ++ (← u.result)) := by
  induction t with
  | done => simp only [done_append, result]; cases u.result <;> rfl
  | failed f => rfl
  | item a t ih =>
    simp only [item_append, result, ih]
    cases t.result <;> cases u.result <;> rfl

@[simp] theorem result_ahead (t : Trace α) : t.ahead.result = t.result := by
  fun_induction ahead t with
  | case1 | case2 => rfl
  | case3 a f => rfl
  | case4 a t h ih => simp [result, ih]

end Trace
end HybridQuery
