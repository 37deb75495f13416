import HybridQuery.Proofs.Completeness.Moments
import HybridQuery.Proofs.Completeness.Nodes
import HybridQuery.Proofs.Spreading.Modules

/-!
# What every pass keeps

A pass over a settled part leaves it settled at each of its moments, takes no mode away, and leaves it
complete if it succeeds. The rules for the ways in which passes are put together carry this from the
parts of a node to the node, one lemma for each kind of node.

* `Pass.Settles`: the judgement.
* `Expression.settles`: the pass over any expression, in scopes in which every variable has a mode.
-/

namespace HybridQuery

/-! ## Declared functions and scopes -/

namespace Declarations

/-- The same functions; a body that was complete is complete still. -/
def Advances (D E : Declarations) : Prop :=
  List.Forall₂ (fun d e => e.key = d.key ∧ (IsComplete d.body → IsComplete e.body)) D E

theorem Advances.refl (D : Declarations) : Advances D D := List.forall₂_same.mpr fun _ _ => ⟨rfl, id⟩

theorem Advances.trans {D E F : Declarations} (h : Advances D E) (h' : Advances E F) : Advances D F := by
  induction h generalizing F with
  | nil => exact h'
  | cons hd _ ih =>
    cases h' with
    | cons hd' h' => exact .cons ⟨hd'.1.trans hd.1, hd'.2 ∘ hd.2⟩ (ih h')

end Declarations

/-- Every variable in scope has a mode. -/
def Scopes.Proper (scopes : List Scope) : Prop := ∀ scope ∈ scopes, ∀ p ∈ scope, p.2 ≠ .unset

namespace Scopes.Proper

variable {scopes : List Scope}

theorem empty : Proper [] := List.forall_mem_nil _

theorem push (h : Proper scopes) {scope : Scope} (hscope : ∀ p ∈ scope, p.2 ≠ .unset) :
    Proper (scope :: scopes) :=
  List.forall_mem_cons.mpr ⟨hscope, h⟩

theorem parameters (h : Proper scopes) (parameters : List Parameter) :
    Proper (parameterScope parameters :: scopes) := by
  refine h.push fun p hp => ?_
  obtain ⟨parameter, -, rfl⟩ := List.mem_map.mp hp
  exact nofun

theorem contextItem (h : Proper scopes) : Proper ([(contextItemName, .host)] :: scopes) :=
  h.push (List.forall_mem_singleton.mpr nofun)

theorem bind (h : Proper scopes) (name : String) {mode : Mode} (hmode : mode ≠ .unset) :
    Proper (bindMode scopes name mode) := by
  cases scopes with
  | nil => exact h
  | cons scope outer =>
    obtain ⟨hscope, houter⟩ := List.forall_mem_cons.mp h
    exact List.forall_mem_cons.mpr ⟨List.forall_mem_cons.mpr ⟨hmode, hscope⟩, houter⟩

theorem lookup (h : Proper scopes) {name : String} {mode : Mode}
    (hmode : lookupMode scopes name = some mode) : mode ≠ .unset := by
  obtain ⟨scope, hscope, hlookup⟩ := List.exists_of_findSome?_eq_some hmode
  obtain ⟨l₁, l₂, rfl, -⟩ := List.lookup_eq_some_iff.mp hlookup
  exact h _ hscope (name, mode) (List.mem_append_right _ List.mem_cons_self)

end Scopes.Proper

/-- Every variable that the clauses so far have bound has a mode, and so has the stream. -/
structure ClauseScope.Proper (s : ClauseScope) : Prop where
  scopes : Scopes.Proper s.scopes
  stream : s.stream ≠ .unset

namespace ClauseScope.Proper

variable {s : ClauseScope}

theorem start {scopes : List Scope} (h : Scopes.Proper scopes) :
    ClauseScope.Proper ⟨[] :: scopes, .host, []⟩ :=
  ⟨h.push (List.forall_mem_nil _), nofun⟩

theorem introduce (h : s.Proper) (name : String) : (s.introduce name .host).Proper :=
  ⟨h.scopes.bind name nofun, h.stream⟩

theorem introduceOption (h : s.Proper) (name : Option String) :
    (s.introduceOption name .host).Proper := by
  cases name with
  | none => exact h
  | some name => exact h.introduce name

theorem afterGrouping (h : s.Proper) (names : List String) : (s.afterGrouping names).Proper := by
  have hnames : (names.foldl (fun s name => s.introduce name .host) s).Proper := by
    induction names generalizing s with
    | nil => exact h
    | cons name names ih => exact ih (h.introduce name)
  refine ⟨?_, hnames.stream⟩
  dsimp only [ClauseScope.afterGrouping]
  generalize (names.foldl _ s).introduced = introduced
  have hscopes := hnames.scopes
  revert hscopes
  generalize (names.foldl _ s).scopes = scopes
  intro hscopes
  induction introduced generalizing scopes with
  | nil => exact hscopes
  | cons name introduced ih => exact ih _ (hscopes.bind name nofun)

end ClauseScope.Proper

theorem Mode.host_ne_unset : Mode.host ≠ .unset := by decide

theorem Mode.rowWise_ne_unset (mode : Mode) : mode.rowWise ≠ .unset := by cases mode <;> exact nofun

theorem lookupResultMode_ne_unset (mode : Mode) : lookupResultMode mode ≠ .unset := by
  cases mode <;> exact nofun

theorem sequenceMode_ne_unset (isEmpty all : Bool) : sequenceMode isEmpty all ≠ .unset := by
  cases isEmpty <;> cases all <;> exact nofun

theorem Builtin.mode_ne_unset (b : Builtin) : b.mode ≠ .unset := by cases b <;> exact nofun

/-! ## The judgement -/

section
variable {τ υ β γ : Type} [HasNodes τ] [HasNodes υ]

/-- What a pass over the part `t₀` from the declarations `D` does, with its moments. -/
structure Pass.SettlesFrom (t₀ : τ) (V : β → Prop) (x : Pass (Analysed τ β)) (m : Moments τ)
    (D : Declarations) : Prop where
  moments : ∀ s ∈ m D, KeepsModes t₀ s.1 ∧ Declarations.Settled s.2
  kept : KeepsModes t₀ (x.run D).1.1
  settled : Declarations.Settled (x.run D).2
  complete : ∀ b, (x.run D).1.2 = .ok b →
    IsComplete (x.run D).1.1 ∧ V b ∧ Declarations.Advances D (x.run D).2

/-- The pass over the part `t₀`, if that is settled, keeps it so at every moment; if it succeeds, it
leaves the part complete, with a result in `V`. -/
structure Pass.Settles (t₀ : τ) (V : β → Prop) (x : Pass (Analysed τ β)) (m : Moments τ) : Prop where
  run : IsSettled t₀ → ∀ D, Declarations.Settled D → Pass.SettlesFrom t₀ V x m D

/-- A way of finding the modes of calls that keeps the declared functions settled. -/
structure CalleeMode.Settles (callee : CalleeMode) (shown : CalleeMoments) : Prop where
  moments : ∀ key D, Declarations.Settled D → ∀ E ∈ shown key D, Declarations.Settled E
  settled : ∀ key D, Declarations.Settled D → Declarations.Settled ((callee key).run D).2
  complete : ∀ key D, Declarations.Settled D → ∀ mode, ((callee key).run D).1 = .ok mode →
    mode ≠ .unset ∧ Declarations.Advances D ((callee key).run D).2

namespace Pass

variable {V : β → Prop} {W : γ → Prop} {t₀ : τ} {second : υ} {x : Pass (Analysed τ β)} {m : Moments τ}
  {y : β → Pass (Analysed υ γ)} {n : β → Moments υ}

namespace Settles

/-- A pass that writes nothing, over a part without nodes or one that is complete already. -/
theorem done {r : EngineResult β} (h : ∀ b, r = .ok b → (IsSettled t₀ → IsComplete t₀) ∧ V b) :
    Settles t₀ V (Pass.done t₀ r) .none where
  run ht D hD :=
    { moments := nofun
      kept := .refl ht
      settled := hD
      complete := fun b hb => ⟨(h b hb).1 ht, (h b hb).2, .refl D⟩ }

/-- A part without nodes. -/
theorem leaf (h : nodes t₀ = []) {b : β} (hb : V b) : Settles t₀ V (Pass.done t₀ (.ok b)) .none :=
  .done fun _ hok => by
    cases hok
    exact ⟨fun _ n hn => absurd (h ▸ hn) List.not_mem_nil, hb⟩

theorem map (h : Settles t₀ V x m) (W : γ → Prop) {value : β → γ} (hV : ∀ b, V b → W (value b)) :
    Settles t₀ W (Pass.wrap x id value) m := by
  constructor
  intro ht D hD
  obtain ⟨hm, hk, hs, hc⟩ := h.run ht D hD
  refine ⟨hm, hk, hs, fun c hok => ?_⟩
  rw [run_wrap] at hok
  cases hr : (x.run D).1.2 with
  | error e => rw [hr] at hok; cases hok
  | ok b =>
    rw [hr] at hok
    cases hok
    obtain ⟨hcomplete, hb, hadv⟩ := hc b hr
    exact ⟨hcomplete, hV b hb, hadv⟩

/-- A tree that has the nodes of the part that is passed over. -/
theorem wrap {u₀ : υ} (h : Settles t₀ V x m) (h₀ : nodes u₀ = nodes t₀) {tree : τ → υ}
    (htree : ∀ t, nodes (tree t) = nodes t) {value : β → γ} (hV : ∀ b, V b → W (value b)) :
    Settles u₀ W (Pass.wrap x tree value) (m.wrap tree) := by
  constructor
  intro ht D hD
  obtain ⟨hm, hk, hs, hc⟩ := (h.map W hV).run ((isSettled_congr h₀).mp ht) D hD
  refine ⟨fun s hs => ?_, hk.congr h₀ (htree _), hs, fun c hok => ?_⟩
  · obtain ⟨u, hu, rfl⟩ := List.mem_map.mp hs
    exact ⟨(hm u hu).1.congr h₀ (htree _), (hm u hu).2⟩
  · obtain ⟨hcomplete, h⟩ := hc c hok
    exact ⟨(isComplete_congr (htree _)).mpr hcomplete, h⟩

/-- The same, of an expression that is evaluated on the host. -/
theorem host {u₀ : υ} (h : Settles t₀ V x m) (h₀ : nodes u₀ = nodes t₀) {tree : τ → υ}
    (htree : ∀ t, nodes (tree t) = nodes t) :
    Settles u₀ (· ≠ .unset) (Pass.wrap x tree fun _ => Mode.host) (m.wrap tree) :=
  h.wrap h₀ htree fun _ _ => nofun

/-- Two parts, one after the other. -/
theorem andThen (h : Settles t₀ V x m) (hy : ∀ b, V b → Settles second W (y b) (n b)) :
    Settles (t₀, second) W (Pass.andThen x second y) (Moments.andThen x m second n) := by
  constructor
  intro ht D hD
  obtain ⟨ht, hsecond⟩ := isSettled_pair.mp ht
  obtain ⟨hm, hk, hs, hc⟩ := h.run ht D hD
  have hfirst : ∀ s ∈ (m D).map (fun s => ((s.1, second), s.2)),
      KeepsModes (t₀, second) s.1 ∧ Declarations.Settled s.2 := by
    intro s hs
    obtain ⟨u, hu, rfl⟩ := List.mem_map.mp hs
    exact ⟨(hm u hu).1.pair (.refl hsecond), (hm u hu).2⟩
  rcases hx : x.run D with ⟨⟨t, _ | b⟩, E⟩
  · rw [hx] at hk hs
    refine ⟨?_, ?_, ?_, ?_⟩
    · rw [Moments.andThen, hx, List.append_nil]
      exact hfirst
    all_goals rw [run_andThen, hx]
    · exact hk.pair (.refl hsecond)
    · exact hs
    · exact nofun
  · rw [hx] at hk hs hc
    obtain ⟨hcomplete, hb, hadv⟩ := hc b rfl
    obtain ⟨hm', hk', hs', hc'⟩ := (hy b hb).run hsecond E hs
    refine ⟨?_, ?_, ?_, ?_⟩
    · rw [Moments.andThen, hx]
      refine List.forall_mem_append.mpr ⟨hfirst, fun s hs => ?_⟩
      obtain ⟨u, hu, rfl⟩ := List.mem_map.mp hs
      exact ⟨hk.pair (hm' u hu).1, (hm' u hu).2⟩
    all_goals rw [run_andThen, hx]
    · exact hk.pair hk'
    · exact hs'
    · intro c hc
      obtain ⟨hcomplete', hW, hadv'⟩ := hc' c hc
      exact ⟨isComplete_pair.mpr ⟨hcomplete, hcomplete'⟩, hW, hadv.trans hadv'⟩

/-- A second part whose own result is not asked for. -/
theorem keeping (h : Settles t₀ V x m) (hy : ∀ b, V b → Settles second W (y b) (n b)) :
    Settles (t₀, second) V (Pass.andThen x second fun b => Pass.wrap (y b) id fun _ => b)
      (Moments.andThen x m second n) :=
  h.andThen fun b hb => (hy b hb).map V fun _ _ => hb

end Settles
end Pass
end

/-! ## Calls -/

section
variable {callee : CalleeMode} {shown : CalleeMoments} (h : callee.Settles shown)
include h

theorem callMode_settled (name : String) (arity : Nat) (gap declared : Bool) {D : Declarations}
    (hD : Declarations.Settled D) :
    Declarations.Settled ((callMode callee name arity gap declared).run D).2 ∧
      ∀ mode, ((callMode callee name arity gap declared).run D).1 = .ok mode →
        mode ≠ .unset ∧ Declarations.Advances D ((callMode callee name arity gap declared).run D).2 := by
  unfold callMode
  cases Builtin.find? name arity with
  | some b =>
    refine ⟨hD, fun mode hmode => ?_⟩
    cases hmode
    refine ⟨?_, .refl D⟩
    split
    · exact nofun
    · exact b.mode_ne_unset
  | none =>
    cases declared with
    | false => exact ⟨hD, nofun⟩
    | true =>
      cases gap with
      | true =>
        refine ⟨hD, fun mode hmode => ?_⟩
        cases hmode
        exact ⟨nofun, .refl D⟩
      | false => exact ⟨h.settled _ D hD, h.complete _ D hD⟩

theorem callMoments_settled (name : String) (given : List (Option Expression)) {D : Declarations}
    (hD : Declarations.Settled D) : ∀ s ∈ callMoments shown name given D, Declarations.Settled s.2 := by
  intro s hs
  unfold callMoments at hs
  split at hs
  · cases hs
  · obtain ⟨E, hE, rfl⟩ := List.mem_map.mp hs
    exact h.moments _ D hD E hE

theorem functionCall_settles (name : String) {given : List (Option Expression)} {scopes : List Scope}
    (hgiven : Pass.Settles given (fun _ => True) (analyseArguments callee scopes given)
      (argumentMoments callee shown scopes given)) :
    Pass.Settles (ExpressionKind.functionCall name given) (· ≠ .unset)
      ((ExpressionKind.functionCall name given).analyse callee scopes)
      ((ExpressionKind.functionCall name given).moments callee shown scopes) := by
  constructor
  intro ht D hD
  obtain ⟨hm, hk, hs, hc⟩ := hgiven.run ht D hD
  have hnodes (given : List (Option Expression)) :
      nodes (ExpressionKind.functionCall name given) = nodes given := rfl
  have hparts {given' : List (Option Expression)} (hk : KeepsModes given given') :
      KeepsModes (ExpressionKind.functionCall name given) (.functionCall name given') :=
    hk.congr (hnodes given) (hnodes given')
  have hfirst : ∀ s ∈ argumentMoments callee shown scopes given D,
      KeepsModes (ExpressionKind.functionCall name given) (.functionCall name s.1) ∧
        Declarations.Settled s.2 := fun s hs => ⟨hparts (hm s hs).1, (hm s hs).2⟩
  have hmoments : (ExpressionKind.functionCall name given).moments callee shown scopes D =
      (argumentMoments callee shown scopes given D).map (fun s => (.functionCall name s.1, s.2)) ++
        match (analyseArguments callee scopes given).run D with
        | ((given', .ok _), E) =>
          (callMoments shown name given E).map fun s => (.functionCall name given', s.2)
        | ((_, .error _), _) => [] := by
    rw [ExpressionKind.moments, Moments.wrap, Moments.andThen, List.map_append, List.map_map]
    rcases (analyseArguments callee scopes given).run D with ⟨⟨given', _ | _⟩, E⟩
    · rfl
    · dsimp only
      rw [List.map_map]
      rfl
  rcases hx : (analyseArguments callee scopes given).run D with ⟨⟨given', e | _⟩, E⟩
  · rw [hx] at hk hs hmoments
    refine ⟨?_, ?_, ?_, ?_⟩
    · rw [hmoments, List.append_nil]
      exact List.forall_mem_map.mpr hfirst
    all_goals rw [ExpressionKind.functionCall_run, hx]
    · exact hparts hk
    · exact hs
    · exact nofun
  · rw [hx] at hk hs hc hmoments
    obtain ⟨hcomplete, -, hadv⟩ := hc () rfl
    refine ⟨?_, ?_, ?_, ?_⟩
    · rw [hmoments]
      exact List.forall_mem_append.mpr ⟨List.forall_mem_map.mpr hfirst, List.forall_mem_map.mpr fun s hs' =>
        ⟨hparts hk, callMoments_settled h name given hs s hs'⟩⟩
    all_goals rw [ExpressionKind.functionCall_run, hx]
    · exact hparts hk
    · exact (callMode_settled h _ _ _ _ hs).1
    · intro mode hmode
      obtain ⟨hset, hadv'⟩ := (callMode_settled h _ _ _ _ hs).2 mode hmode
      exact ⟨(isComplete_congr (hnodes given')).mpr hcomplete, hset, hadv.trans hadv'⟩

end

/-! ## Expressions and clauses -/

section
variable {callee : CalleeMode} {shown : CalleeMoments} {scopes : List Scope}

/-- An expression, once its parts are passed over. -/
theorem ExpressionKind.settles_expression {kind : ExpressionKind} (position : SourcePosition)
    (slot : ModeSlot)
    (h : Pass.Settles kind (· ≠ .unset) (kind.analyse callee scopes) (kind.moments callee shown scopes)) :
    Pass.Settles (Expression.mk kind position slot) (· ≠ .unset)
      ((Expression.mk kind position slot).analyse callee scopes)
      ((Expression.mk kind position slot).moments callee shown scopes) := by
  obtain ⟨_ | mode⟩ := slot
  · constructor
    intro ht D hD
    obtain ⟨hm, hk, hs, hc⟩ := h.run (isSettled_expression.mp ht).2 D hD
    have hend : Pass.SettlesFrom (Expression.mk kind position .empty) (· ≠ .unset)
        ((Expression.mk kind position .empty).analyse callee scopes) .none D := by
      rcases hx : (kind.analyse callee scopes).run D with ⟨⟨kind', e | mode⟩, E⟩
      all_goals
        rw [hx] at hk hs hc
        refine ⟨nofun, ?_, ?_, ?_⟩
        all_goals rw [Expression.analyse_run, hx]
      · exact hk.expression rfl
      · exact hs
      · exact nofun
      · obtain ⟨hcomplete, hset, -⟩ := hc mode rfl
        exact .of_complete (isComplete_expression.mpr ⟨⟨mode, rfl, hset⟩, hcomplete⟩)
      · exact hs
      · rintro _ ⟨⟩
        obtain ⟨hcomplete, hset, hadv⟩ := hc mode rfl
        exact ⟨isComplete_expression.mpr ⟨⟨mode, rfl, hset⟩, hcomplete⟩, hset, hadv⟩
    refine ⟨List.forall_mem_append.mpr ⟨List.forall_mem_map.mpr fun s hs => ?_, ?_⟩,
      hend.kept, hend.settled, hend.complete⟩
    · exact ⟨(hm s hs).1.expression rfl, (hm s hs).2⟩
    · exact List.forall_mem_singleton.mpr ⟨hend.kept, hend.settled⟩
  -- An expression that has a mode is not passed over again; what is below it is complete.
  · constructor
    intro ht D hD
    have hcomplete := (isSettled_expression.mp ht).1 rfl
    obtain ⟨⟨_, hmode, hset⟩, -⟩ := isComplete_expression.mp hcomplete
    cases hmode
    refine ⟨nofun, .refl ht, hD, ?_⟩
    rintro _ ⟨⟩
    exact ⟨hcomplete, hset, .refl D⟩

/-- A reference to a function has no parts, and its function is not called yet. -/
theorem functionRef_settles (name : String) (arity : Nat) :
    Pass.Settles (ExpressionKind.functionRef name arity) (· ≠ .unset)
      ((ExpressionKind.functionRef name arity).analyse callee scopes) .none where
  run ht D hD :=
    { moments := nofun
      kept := .refl ht
      settled := hD
      complete := fun mode hok => by
        have hmode : mode = .host := by
          rw [ExpressionKind.functionRef_run] at hok
          dsimp only at hok
          split at hok
          · cases hok; rfl
          · cases hok
        exact ⟨nofun, by rw [hmode]; exact nofun, .refl D⟩ }

/-- A clause and those after it, once its parts are passed over. -/
theorem ClauseKind.settles_clauses {kind : ClauseKind} {position : SourcePosition} {slot : ModeSlot}
    {rest : List Clause} {isFirst : Bool} {scope : ClauseScope}
    (h : Pass.Settles kind ClauseScope.Proper (kind.analyse callee isFirst scope position)
      (kind.moments callee shown scope))
    (hrest : ∀ scope : ClauseScope, scope.Proper → Pass.Settles rest ClauseScope.Proper
      (analyseClauses callee false scope rest) (clauseMoments callee shown false scope rest)) :
    Pass.Settles (Clause.mk kind position slot :: rest) ClauseScope.Proper
      (analyseClauses callee isFirst scope (.mk kind position slot :: rest))
      (clauseMoments callee shown isFirst scope (.mk kind position slot :: rest)) := by
  constructor
  intro ht D hD
  obtain ⟨hclause, hrestSettled⟩ := isSettled_cons.mp ht
  obtain ⟨hm, hk, hs, hc⟩ := h.run (isSettled_clause.mp hclause).2 D hD
  have hrun := analyseClauses_cons_run callee isFirst scope kind position slot rest D
  have hfirst : ∀ s ∈ (kind.moments callee shown scope D).map
      (fun s => (Clause.mk s.1 position slot :: rest, s.2)),
      KeepsModes (Clause.mk kind position slot :: rest) s.1 ∧ Declarations.Settled s.2 :=
    List.forall_mem_map.mpr fun s hs =>
      ⟨((hm s hs).1.clause hclause).cons (.refl hrestSettled), (hm s hs).2⟩
  rcases hx : (kind.analyse callee isFirst scope position).run D with ⟨⟨kind', e | scope'⟩, E⟩
  all_goals
    rw [hx] at hk hs hc hrun
    refine ⟨?_, ?_, ?_, ?_⟩
  · simp only [clauseMoments, hx, List.append_nil]
    exact hfirst
  · rw [hrun]
    exact (hk.clause hclause).cons (.refl hrestSettled)
  · rw [hrun]
    exact hs
  · rw [hrun]
    exact nofun
  all_goals
    obtain ⟨hcomplete, hscope, hadv⟩ := hc scope' rfl
    obtain ⟨hm', hk', hs', hc'⟩ := (hrest scope' hscope).run hrestSettled E hs
    -- A mode that the clause has already is kept.
    have hwritten : IsComplete (Clause.mk kind' position (slot.set scope'.stream)) := by
      refine isComplete_clause.mpr ⟨?_, hcomplete⟩
      obtain ⟨_ | mode⟩ := slot
      · exact ⟨_, rfl, hscope.stream⟩
      · exact (isComplete_clause.mp ((isSettled_clause.mp hclause).1 rfl)).1
  · simp only [clauseMoments, hx]
    refine List.forall_mem_append.mpr ⟨hfirst, List.forall_mem_cons.mpr ⟨?_, ?_⟩⟩
    · exact ⟨KeepsModes.cons (.of_complete hwritten) (.refl hrestSettled), hs⟩
    · exact List.forall_mem_map.mpr fun s hs =>
        ⟨KeepsModes.cons (.of_complete hwritten) (hm' s hs).1, (hm' s hs).2⟩
  · rw [hrun]
    exact KeepsModes.cons (.of_complete hwritten) hk'
  · rw [hrun]
    exact hs'
  · rw [hrun]
    intro b hb
    obtain ⟨hcomplete', hb, hadv'⟩ := hc' b hb
    exact ⟨isComplete_cons.mpr ⟨hwritten, hcomplete'⟩, hb, hadv.trans hadv'⟩

end

section
variable {callee : CalleeMode} {shown : CalleeMoments}

mutual
/-- The pass over an expression in proper scopes. -/
theorem Expression.settles (h : callee.Settles shown) : ∀ (e : Expression) {scopes : List Scope},
    Scopes.Proper scopes → Pass.Settles e (· ≠ .unset) (e.analyse callee scopes) (e.moments callee shown scopes)
  | .mk kind position slot, _, hs =>
    ExpressionKind.settles_expression position slot (ExpressionKind.settles h kind hs)

theorem ExpressionKind.settles (h : callee.Settles shown) : ∀ (kind : ExpressionKind)
    {scopes : List Scope}, Scopes.Proper scopes →
    Pass.Settles kind (· ≠ .unset) (kind.analyse callee scopes) (kind.moments callee shown scopes)
  | .literal _, _, _ => .leaf rfl Mode.host_ne_unset
  | .contextItem, _, _ => .leaf rfl Mode.host_ne_unset
  | .varRef name, scopes, hs => by
    rw [ExpressionKind.analyse, ExpressionKind.moments]
    cases hlookup : lookupMode scopes name with
    | none => exact .done nofun
    | some mode => exact .leaf rfl (hs.lookup hlookup)
  | .functionRef name arity, _, _ => functionRef_settles name arity
  | .array none, _, _ => .leaf rfl Mode.host_ne_unset
  | .sequence members, _, hs => by
    rw [ExpressionKind.analyse, ExpressionKind.moments]
    exact .wrap (members_settle h members hs) (by rfl) (fun _ => by rfl)
      fun all _ => by exact sequenceMode_ne_unset _ all
  | .arithmetic op left right, _, hs => by
    rw [ExpressionKind.analyse, ExpressionKind.moments]
    exact .host (.andThen (Expression.settles h left hs) fun _ _ => Expression.settles h right hs) (by rfl)
      fun _ => by rfl
  | .comparison op left right, _, hs => by
    rw [ExpressionKind.analyse, ExpressionKind.moments]
    exact .host (.andThen (Expression.settles h left hs) fun _ _ => Expression.settles h right hs) (by rfl)
      fun _ => by rfl
  | .logical op left right, _, hs => by
    rw [ExpressionKind.analyse, ExpressionKind.moments]
    exact .host (.andThen (Expression.settles h left hs) fun _ _ => Expression.settles h right hs) (by rfl)
      fun _ => by rfl
  | .range first last, _, hs => by
    rw [ExpressionKind.analyse, ExpressionKind.moments]
    exact .host (.andThen (Expression.settles h first hs) fun _ _ => Expression.settles h last hs) (by rfl)
      fun _ => by rfl
  | .not operand, _, hs => by
    rw [ExpressionKind.analyse, ExpressionKind.moments]
    exact .host (Expression.settles h operand hs) (by rfl) fun _ => by rfl
  | .conditional condition yes no, _, hs => by
    rw [ExpressionKind.analyse, ExpressionKind.moments]
    exact .host (.andThen (Expression.settles h condition hs) fun _ _ =>
      .andThen (Expression.settles h yes hs) fun _ _ => Expression.settles h no hs) (by rfl) fun _ => by rfl
  | .object pairs, _, hs => by
    rw [ExpressionKind.analyse, ExpressionKind.moments]
    exact .host (pairs_settle h pairs hs) (by rfl) fun _ => by rfl
  | .array (some members), _, hs => by
    rw [ExpressionKind.analyse, ExpressionKind.moments]
    exact .host (Expression.settles h members hs) (by rfl) fun _ => by rfl
  | .objectLookup object key, _, hs => by
    rw [ExpressionKind.analyse, ExpressionKind.moments]
    exact .wrap (.keeping (Expression.settles h object hs) fun _ _ => Expression.settles h key hs)
      (by rfl) (fun _ => by rfl) fun mode _ => by exact lookupResultMode_ne_unset mode
  | .arrayLookup array index, _, hs => by
    rw [ExpressionKind.analyse, ExpressionKind.moments]
    exact .wrap (.keeping (Expression.settles h array hs) fun _ _ => Expression.settles h index hs)
      (by rfl) (fun _ => by rfl) fun mode _ => by exact Mode.rowWise_ne_unset mode
  | .arrayUnbox array, _, hs => by
    rw [ExpressionKind.analyse, ExpressionKind.moments]
    exact .wrap (Expression.settles h array hs) (by rfl) (fun _ => by rfl)
      fun mode _ => by exact Mode.rowWise_ne_unset mode
  | .filter sequence predicate, _, hs => by
    rw [ExpressionKind.analyse, ExpressionKind.moments]
    exact .wrap (.keeping (Expression.settles h sequence hs) fun _ _ => Expression.settles h predicate hs.contextItem)
      (by rfl) (fun _ => by rfl) fun mode _ => by exact Mode.rowWise_ne_unset mode
  | .functionCall name given, _, hs => functionCall_settles h name (arguments_settle h given hs)
  | .dynamicCall function given, _, hs => by
    rw [ExpressionKind.analyse, ExpressionKind.moments]
    exact .host (.andThen (Expression.settles h function hs) fun _ _ => arguments_settle h given hs)
      (by rfl) fun _ => by rfl
  | .inlineFunction parameters _ body, _, hs => by
    rw [ExpressionKind.analyse, ExpressionKind.moments]
    exact .host (Expression.settles h body (hs.parameters parameters)) (by rfl) fun _ => by rfl
  | .flwor clauses result, _, hs => by
    rw [ExpressionKind.analyse, ExpressionKind.moments]
    have hstart := ClauseScope.Proper.start hs
    exact .wrap (.andThen (clauses_settle h clauses true hstart) fun scope hscope =>
      (Expression.settles h result hscope.scopes).map (· ≠ Mode.unset) fun _ _ => hscope.stream)
      (by rfl) (fun _ => by rfl) fun _ hstream => by exact hstream

theorem members_settle (h : callee.Settles shown) : ∀ (members : List Expression)
    {scopes : List Scope}, Scopes.Proper scopes →
    Pass.Settles members (fun _ => True) (analyseMembers callee scopes members)
      (memberMoments callee shown scopes members)
  | [], _, _ => .leaf rfl trivial
  | e :: rest, _, hs => by
    rw [analyseMembers, memberMoments]
    exact .wrap (.andThen (Expression.settles h e hs) fun _ _ =>
      (members_settle h rest hs).map (fun _ => True) fun _ _ => trivial)
      (nodes_cons e rest) (fun t => nodes_cons t.1 t.2) fun _ _ => by trivial

theorem pairs_settle (h : callee.Settles shown) : ∀ (pairs : List (Expression × Expression))
    {scopes : List Scope}, Scopes.Proper scopes →
    Pass.Settles pairs (fun _ => True) (analysePairs callee scopes pairs)
      (pairMoments callee shown scopes pairs)
  | [], _, _ => .leaf rfl trivial
  | (key, value) :: rest, _, hs => by
    rw [analysePairs, pairMoments]
    exact .wrap (.andThen (Expression.settles h key hs) fun _ _ =>
      .andThen (Expression.settles h value hs) fun _ _ => pairs_settle h rest hs)
      (nodes_pair_cons key value rest) (fun t => nodes_pair_cons t.1 t.2.1 t.2.2) fun _ _ => by trivial

theorem arguments_settle (h : callee.Settles shown) : ∀ (given : List (Option Expression))
    {scopes : List Scope}, Scopes.Proper scopes →
    Pass.Settles given (fun _ => True) (analyseArguments callee scopes given)
      (argumentMoments callee shown scopes given)
  | [], _, _ => .leaf rfl trivial
  | none :: rest, _, hs => by
    rw [analyseArguments, argumentMoments]
    exact .wrap (arguments_settle h rest hs) (by rfl) (fun _ => by rfl) fun _ _ => by trivial
  | some e :: rest, _, hs => by
    rw [analyseArguments, argumentMoments]
    exact .wrap (.andThen (Expression.settles h e hs) fun _ _ => arguments_settle h rest hs)
      (by rfl) (fun _ => by rfl) fun _ _ => by trivial

theorem clauses_settle (h : callee.Settles shown) : ∀ (clauses : List Clause) (isFirst : Bool)
    {scope : ClauseScope}, scope.Proper →
    Pass.Settles clauses ClauseScope.Proper (analyseClauses callee isFirst scope clauses)
      (clauseMoments callee shown isFirst scope clauses)
  | [], _, _, hscope => .leaf rfl hscope
  | .mk kind _ _ :: rest, isFirst, _, hscope =>
    ClauseKind.settles_clauses (ClauseKind.settles h kind isFirst _ hscope)
      fun _ hscope => clauses_settle h rest false hscope

theorem ClauseKind.settles (h : callee.Settles shown) : ∀ (kind : ClauseKind) (isFirst : Bool)
    (position : SourcePosition) {scope : ClauseScope}, scope.Proper →
    Pass.Settles kind ClauseScope.Proper (kind.analyse callee isFirst scope position)
      (kind.moments callee shown scope)
  | .forEach name place _ source, isFirst, _, scope, hscope => by
    rw [ClauseKind.analyse, ClauseKind.moments]
    refine .wrap (Expression.settles h source hscope.scopes) (by rfl) (fun _ => by rfl) fun mode _ => ?_
    refine ClauseScope.Proper.introduceOption (.introduce ?_ name) place
    split
    · exact ⟨hscope.scopes, mode.rowWise_ne_unset⟩
    · exact hscope
  | .letBe name value, _, _, scope, hscope => by
    rw [ClauseKind.analyse, ClauseKind.moments]
    refine .wrap (Expression.settles h value hscope.scopes) (by rfl) (fun _ => by rfl) fun mode hmode => ?_
    refine ⟨hscope.scopes.bind name ?_, hscope.stream⟩
    rw [letMode]
    split
    · exact hmode
    · exact nofun
  | .keepWhere condition, _, _, _, hscope => by
    rw [ClauseKind.analyse, ClauseKind.moments]
    exact .wrap (Expression.settles h condition hscope.scopes) (by rfl) (fun _ => by rfl)
      fun _ _ => by exact hscope
  | .orderBy keys, _, _, _, hscope => by
    rw [ClauseKind.analyse, ClauseKind.moments]
    exact .wrap (orderKeys_settle h keys hscope.scopes) (by rfl) (fun _ => by rfl)
      fun _ _ => by exact hscope
  | .groupBy keys, _, position, _, hscope => by
    rw [ClauseKind.analyse, ClauseKind.moments]
    exact .wrap (groupKeys_settle h keys position hscope.scopes) (by rfl) (fun _ => by rfl)
      fun _ _ => by exact hscope.afterGrouping _
  | .count name, _, _, _, hscope => .leaf rfl (hscope.introduce name)

theorem orderKeys_settle (h : callee.Settles shown) : ∀ (keys : List (OrderKey Expression))
    {scopes : List Scope}, Scopes.Proper scopes →
    Pass.Settles keys (fun _ => True) (analyseOrderKeys callee scopes keys)
      (orderMoments callee shown scopes keys)
  | [], _, _ => .leaf rfl trivial
  | ⟨e, descending, empty⟩ :: rest, _, hs => by
    rw [analyseOrderKeys, orderMoments]
    exact .wrap (.andThen (Expression.settles h e hs) fun _ _ => orderKeys_settle h rest hs)
      (by rfl) (fun _ => by rfl) fun _ _ => by trivial

theorem groupKeys_settle (h : callee.Settles shown) : ∀ (keys : List (GroupKey Expression))
    (position : SourcePosition) {scopes : List Scope}, Scopes.Proper scopes →
    Pass.Settles keys (fun _ => True) (analyseGroupKeys callee scopes position keys)
      (groupMoments callee shown scopes keys)
  | [], _, _, _ => .leaf rfl trivial
  | ⟨name, none⟩ :: rest, position, scopes, hs => by
    rw [analyseGroupKeys, groupMoments]
    cases lookupMode scopes name with
    | none => exact .done nofun
    | some _ =>
      exact .wrap (groupKeys_settle h rest position hs) (by rfl) (fun _ => by rfl) fun _ _ => by trivial
  | ⟨name, some e⟩ :: rest, position, _, hs => by
    rw [analyseGroupKeys, groupMoments]
    exact .wrap (.andThen (Expression.settles h e hs) fun _ _ => groupKeys_settle h rest position hs)
      (by rfl) (fun _ => by rfl) fun _ _ => by trivial
end
end
end HybridQuery
