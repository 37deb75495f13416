import HybridQuery.Syntax.Analysis

/-!
# Passes of analysis when they are run

What a pass leaves of the declared functions, of its tree, and with which result, in terms of the passes
over its parts. A part that fails is written back as far as it was analysed, and ends the pass.

* `Pass.run_wrap`, `Pass.run_andThen`: a part below a tree, and two parts one after the other.
* `Expression.analyse_run`, `ExpressionKind.functionCall_run`, `ExpressionKind.functionRef_run`,
  `analyseClauses_cons_run`: the passes over nodes that do more than that.
* `declaredMode_run_succ`, `analyseDeclared_cons_run`: the analysis of declared functions.
-/

namespace HybridQuery

variable {τ υ β γ : Type}

namespace Pass

theorem run_wrap (x : Pass (Analysed τ β)) (tree : τ → υ) (value : β → γ) (D : Declarations) :
    (wrap x tree value).run D = ((tree (x.run D).1.1, (x.run D).1.2.map value), (x.run D).2) :=
  rfl

theorem run_andThen (x : Pass (Analysed τ β)) (second : υ) (y : β → Pass (Analysed υ γ))
    (D : Declarations) :
    (andThen x second y).run D =
      match x.run D with
      | ((t, .ok b), E) => (((t, ((y b).run E).1.1), ((y b).run E).1.2), ((y b).run E).2)
      | ((t, .error e), E) => (((t, second), .error e), E) := by
  rw [andThen, StateT.run_bind]
  rcases x.run D with ⟨⟨t, _ | b⟩, E⟩ <;> rfl

end Pass

/-! ## Nodes -/

/-- The pass over an expression that has no mode yet. -/
theorem Expression.analyse_run (callee : CalleeMode) (kind : ExpressionKind) (position : SourcePosition)
    (scopes : List Scope) (D : Declarations) :
    ((Expression.mk kind position .empty).analyse callee scopes).run D =
      match (kind.analyse callee scopes).run D with
      | ((kind, .ok mode), E) => ((.mk kind position (ModeSlot.empty.set mode), .ok mode), E)
      | ((kind, .error e), E) => ((.mk kind position .empty, .error (e.locate position)), E) := by
  change ((kind.analyse callee scopes) >>= _).run D = _
  rw [StateT.run_bind]
  rcases (kind.analyse callee scopes).run D with ⟨⟨kind, _ | mode⟩, E⟩ <;> rfl

/-- The pass over an expression that has its mode. -/
theorem Expression.analyse_computed {callee : CalleeMode} {e : Expression} (h : e.slot.isComputed = true)
    (scopes : List Scope) (D : Declarations) :
    (e.analyse callee scopes).run D = ((e, .ok e.slot.getD), D) := by
  obtain ⟨kind, position, ⟨_ | mode⟩⟩ := e
  · cases h
  · rfl

/-- The pass over a call of a named function. -/
theorem ExpressionKind.functionCall_run (callee : CalleeMode) (name : String)
    (given : List (Option Expression)) (scopes : List Scope) (D : Declarations) :
    ((ExpressionKind.functionCall name given).analyse callee scopes).run D =
      match (analyseArguments callee scopes given).run D with
      | ((given, .error e), E) => ((.functionCall name given, .error e), E)
      | ((given, .ok _), E) =>
        let called := (callMode callee name given.length (given.any Option.isNone)
          (E.any (·.key == (name, given.length)))).run E
        ((.functionCall name given, called.1), called.2) := by
  change ((analyseArguments callee scopes given) >>= _).run D = _
  rw [StateT.run_bind]
  rcases (analyseArguments callee scopes given).run D with ⟨⟨given, _ | _⟩, E⟩ <;> rfl

/-- A reference to a function asks only whether there is one. -/
theorem ExpressionKind.functionRef_run (callee : CalleeMode) (name : String) (arity : Nat)
    (scopes : List Scope) (D : Declarations) :
    ((ExpressionKind.functionRef name arity).analyse callee scopes).run D =
      ((.functionRef name arity,
        if (Builtin.find? name arity).isSome || D.any (·.key == (name, arity)) then .ok .host
        else .fail (.undefinedFunction name arity)), D) := rfl

/-- The pass over the first of several clauses. -/
theorem analyseClauses_cons_run (callee : CalleeMode) (isFirst : Bool) (scope : ClauseScope)
    (kind : ClauseKind) (position : SourcePosition) (slot : ModeSlot) (rest : List Clause)
    (D : Declarations) :
    (analyseClauses callee isFirst scope (.mk kind position slot :: rest)).run D =
      match (kind.analyse callee isFirst scope position).run D with
      | ((kind, .error e), E) => ((.mk kind position slot :: rest, .error e), E)
      | ((kind, .ok scope), E) =>
        let after := (analyseClauses callee false scope rest).run E
        ((.mk kind position (slot.set scope.stream) :: after.1.1, after.1.2), after.2) := by
  rw [analyseClauses, StateT.run_bind]
  rcases (kind.analyse callee isFirst scope position).run D with ⟨⟨kind, _ | scope⟩, E⟩ <;> rfl

/-! ## Declared functions -/

theorem declaredMode_run_succ (level : Nat) (inProgress : List FunctionKey) (key : FunctionKey)
    (D : Declarations) :
    (declaredMode (level + 1) inProgress key).run D =
      if inProgress.contains key then (.ok .host, D)
      else match D.find? (·.key == key) with
        | none => (.fail (.undefinedFunction key.1 key.2), D)
        | some d =>
          let analysed := (d.body.analyse (declaredMode level (key :: inProgress))
            [parameterScope d.parameters]).run D
          (analysed.1.2, setBody analysed.2 key analysed.1.1) := by
  rw [declaredMode]
  split
  · rfl
  · simp only [StateT.run_bind, StateT.run_get, pure_bind]
    cases D.find? (·.key == key) <;> rfl

theorem analyseDeclared_cons_run (callee : CalleeMode) (key : FunctionKey) (keys : List FunctionKey)
    (D : Declarations) :
    (analyseDeclared callee (key :: keys)).run D =
      match (callee key).run D with
      | (.ok _, E) => (analyseDeclared callee keys).run E
      | (.error e, E) => (.error e, E) := by
  rw [analyseDeclared, StateT.run_bind]
  rcases (callee key).run D with ⟨_ | _, E⟩ <;> rfl

end HybridQuery
