import HybridQuery.Proofs.Computing.Passes

/-!
# The computations of the pass over a module

The functions whose bodies are being analysed are declared and all different, so that calls never go deeper
than there are functions, and a way to cut deeper calls off is never used. What is so of the passes over
expressions is so of the pass over a module.

* `declaredModeOr`, `QueryModule.analyseWithin`: calls that go no more than so many levels deep.
* `declaredMode_computes`: calls of declared functions, by induction on the levels.
* `QueryModule.analyse_computes_once`: analysis ends, and computes no mode twice.
-/

namespace HybridQuery

/-! ## Calls of declared functions -/

/-- The mode of a call of a declared function where calls go no more than so many levels deep: what is deeper
is answered by `stuck`. -/
def declaredModeOr (stuck : CalleeMode) : Nat → List FunctionKey → CalleeMode
  | 0, _, key => stuck key
  | level + 1, inProgress, key => do
    if inProgress.contains key then return .ok .host
    match (← get).find? (·.key == key) with
    | none => return .fail (.undefinedFunction key.1 key.2)
    | some d =>
      let (body, r) ← d.body.analyse (declaredModeOr stuck level (key :: inProgress))
        [parameterScope d.parameters]
      modify fun declarations => setBody declarations key body
      return r

theorem declaredModeOr_run_succ (stuck : CalleeMode) (level : Nat) (inProgress : List FunctionKey)
    (key : FunctionKey) (D : Declarations) :
    (declaredModeOr stuck (level + 1) inProgress key).run D =
      if inProgress.contains key then (.ok .host, D)
      else match D.find? (·.key == key) with
        | none => (.fail (.undefinedFunction key.1 key.2), D)
        | some d =>
          let analysed := (d.body.analyse (declaredModeOr stuck level (key :: inProgress))
            [parameterScope d.parameters]).run D
          (analysed.1.2, setBody analysed.2 key analysed.1.1) := by
  rw [declaredModeOr]
  split
  · rfl
  · simp only [StateT.run_bind, StateT.run_get, pure_bind]
    cases D.find? (·.key == key) <;> rfl

/-- The analysis answers such calls with the mode of the host. -/
theorem declaredModeOr_host (level : Nat) (inProgress : List FunctionKey) :
    declaredModeOr (fun _ => pure (.ok .host)) level inProgress = declaredMode level inProgress := by
  induction level generalizing inProgress with
  | zero => rfl
  | succ level ih =>
    refine funext fun key => StateT.ext fun D => ?_
    have hstuck := declaredModeOr_run_succ (fun _ => pure (.ok .host)) level inProgress key D
    rw [ih] at hstuck
    exact hstuck.trans (declaredMode_run_succ level inProgress key D).symm

section
variable {E : Declarations} {key other : FunctionKey} {e : FunctionDeclaration}

theorem find?_setBody_self (he : E.find? (·.key == key) = some e) (body : Expression) :
    (setBody E key body).find? (·.key == key) = some { e with body := body } := by
  rw [find?_setBody, he, Option.map_some, if_pos (by simpa using List.find?_some he)]

theorem find?_setBody_of_ne (h : other ≠ key) (E : Declarations) (body : Expression) :
    (setBody E key body).find? (·.key == other) = E.find? (·.key == other) := by
  rw [find?_setBody]
  cases he : E.find? (·.key == other) with
  | none => rfl
  | some e =>
    obtain rfl : e.key = other := by simpa using List.find?_some he
    rw [Option.map_some, if_neg (by simpa using h)]

end

namespace Computes

variable {busy : List FunctionKey} {D E : Declarations} {key : FunctionKey} {d : FunctionDeclaration}
  {body : Expression} {ok : Bool} {log : List Place}

/-- A call, once the body of the function is passed over and written back. -/
theorem call (h : Computes (key :: busy) d.body D body ok E log) (hd : D.find? (·.key == key) = some d)
    (hkey : key ∉ busy) (hcomputed : d.body.slot.isComputed = true → body = d.body ∧ log = [])
    (hok : ok = true → body.slot.isComputed = true) :
    Computes busy () D () ok (setBody E key body) (log.map (Place.inBody key)) := by
  obtain ⟨e, he, -⟩ := h.later.find? hd
  have hbody := find?_setBody_self he body
  have hother {other : FunctionKey} {index : Nat} {below : List Nat} (hp : .called other index below ∈ log) :
      other ≠ key ∧ other ∉ busy ∧ D.IsPending other := by
    obtain ⟨hbusy, hpending⟩ := h.called other index below hp
    exact ⟨List.ne_of_not_mem_cons hbusy, List.not_mem_of_not_mem_cons hbusy, hpending⟩
  refine ⟨h.later.setBody hd fun hc => (hcomputed hc).1, rfl, ?_, ?_, ?_, ?_, ?_, ?_, ?_⟩
  · refine h.nodup.map_on ?_
    rintro (_ | _) hp (_ | _) hq heq <;> simp only [Place.inBody, Place.called.injEq] at heq
    · simp [heq]
    · exact absurd heq.1.symm (hother hq).1
    · exact absurd heq.1 (hother hp).1
    · simp [heq]
  · refine List.forall_mem_map.mpr fun p hp => ?_
    obtain ⟨n, hn, hpending⟩ := h.pending p hp
    refine ⟨n, ?_, hpending⟩
    cases p with
    | own index below =>
      rw [Place.inBody, nodeAt?, hd]
      exact hn
    | called other index below => exact hn
  · intro other index below hp
    obtain ⟨p, hp, heq⟩ := List.mem_map.mp hp
    cases p with
    | own index' below' =>
      cases heq
      have hpending : d.body.slot.isComputed = false := by
        by_contra hc
        rw [(hcomputed (by simpa using hc)).2] at hp
        cases hp
      exact ⟨hkey, d, hd, hpending⟩
    | called other' index' below' =>
      cases heq
      exact (hother hp).2
  · intro p n hn hc
    cases p with
    | own index below => cases below <;> simp [nodeAt?, nodeBelow?, nodes] at hn
    | called other index below =>
      by_cases hself : other = key
      · subst hself
        rw [nodeAt?, hbody] at hn
        rw [nodeAt?, hd]
        exact (h.written (.own index below) n hn hc).imp_right fun hp =>
          List.mem_map.mpr ⟨_, hp, rfl⟩
      · rw [nodeAt?, find?_setBody_of_ne hself] at hn
        exact (h.written (.called other index below) n hn hc).imp_right fun hp =>
          List.mem_map.mpr ⟨_, hp, rfl⟩
  · refine fun hdone => List.forall_mem_map.mpr fun p hp => ?_
    obtain ⟨n, hn, hc⟩ := h.computed hdone p hp
    refine ⟨n, ?_, hc⟩
    cases p with
    | own index below =>
      rw [Place.inBody, nodeAt?, hbody]
      exact hn
    | called other index below =>
      rw [Place.inBody, nodeAt?, find?_setBody_of_ne (hother hp).1]
      exact hn
  · intro hdone other index below hp
    obtain ⟨p, hp, heq⟩ := List.mem_map.mp hp
    cases p with
    | own index' below' =>
      cases heq
      exact ⟨_, hbody, hok hdone⟩
    | called other' index' below' =>
      cases heq
      rw [Declarations.IsAnalysed, find?_setBody_of_ne (hother hp).1]
      exact h.finished hdone other index below hp
  · intro hdone other d' hd' hpending
    by_cases hself : other = key
    · subst hself
      rw [hbody] at hd'
      cases hd'
      rw [hok hdone] at hpending
      cases hpending
    · rw [find?_setBody_of_ne hself] at hd'
      exact h.kept hdone other d' hd' hpending

end Computes

theorem Expression.computations_computed {callee : CalleeMode} {shown : CalleeComputations}
    {scopes : List Scope} {e : Expression} (h : e.slot.isComputed = true) (D : Declarations) :
    e.computations callee shown scopes D = [] := by
  obtain ⟨kind, position, ⟨_ | mode⟩⟩ := e
  · cases h
  · rfl

section
variable {K busy : List FunctionKey}

/-- Calls compute places once, and make no use of `stuck` where there are more levels than functions that are
not being analysed. -/
theorem declaredMode_computes (stuck : CalleeMode) (level level' : Nat) (hdistinct : busy.Nodup)
    (hdeclared : busy ⊆ K) (hlevel : K.length < level + busy.length)
    (hlevel' : K.length < level' + busy.length) :
    (declaredMode level busy).Computes K busy (declaredModeOr stuck level' busy)
      (declaredComputations level busy) := by
  induction level generalizing level' busy with
  | zero =>
    have hbusy := (List.subperm_of_subset hdistinct hdeclared).length_le
    omega
  | succ level ih =>
    obtain ⟨level', rfl⟩ : ∃ n, level' = n + 1 := by
      have hbusy := (List.subperm_of_subset hdistinct hdeclared).length_le
      exact ⟨level' - 1, by omega⟩
    intro key D hD
    rw [declaredMode_run_succ, declaredModeOr_run_succ, declaredComputations]
    split
    · exact ⟨rfl, .refl busy () D _⟩
    · rename_i hfree
      cases hd : D.find? (·.key == key) with
      | none => exact ⟨rfl, .refl busy () D _⟩
      | some d =>
        have hkey : key ∉ busy := by simpa using hfree
        have hmem : key ∈ K := by
          obtain rfl : d.key = key := by simpa using List.find?_some hd
          exact hD ▸ List.mem_map_of_mem (List.mem_of_find?_eq_some hd)
        have hcallee := ih level' (List.nodup_cons.mpr ⟨hkey, hdistinct⟩)
          (List.cons_subset.mpr ⟨hmem, hdeclared⟩) (by rw [List.length_cons]; omega)
          (by rw [List.length_cons]; omega)
        obtain ⟨hsame, hbody⟩ := (d.body.computes hcallee [parameterScope d.parameters]).run D hD
        dsimp only
        rw [hsame]
        refine ⟨rfl, hbody.call hd hkey (fun hc => ?_) fun hok => ?_⟩
        · rw [Expression.analyse_computed hc]
          exact ⟨rfl, Expression.computations_computed hc D⟩
        · rcases hx : (d.body.analyse (declaredMode level (key :: busy))
            [parameterScope d.parameters]).run D with ⟨⟨body, e | mode⟩, E⟩
          · rw [hx] at hok
            cases hok
          · exact Expression.analyse_computes hx

theorem analyseDeclared_computes {callee cut : CalleeMode} {shown : CalleeComputations}
    (h : callee.Computes K busy cut shown) (keys : List FunctionKey) {D : Declarations}
    (hD : D.map (·.key) = K) :
    (analyseDeclared cut keys).run D = (analyseDeclared callee keys).run D ∧
      Computes busy () D () ((analyseDeclared callee keys).run D).1.isOk
        ((analyseDeclared callee keys).run D).2 (analyseDeclaredComputations callee shown keys D) := by
  induction keys generalizing D with
  | nil => exact ⟨rfl, .refl busy () D _⟩
  | cons key keys ih =>
    obtain ⟨hsame, hc⟩ := h key D hD
    rw [analyseDeclared_cons_run, analyseDeclared_cons_run, hsame, analyseDeclaredComputations]
    rcases hx : (callee key).run D with ⟨e | mode, E⟩
    all_goals simp only [hx] at hc ⊢
    · rw [List.append_nil]
      exact ⟨trivial, hc⟩
    · obtain ⟨hsame', hc'⟩ := ih (hc.later.keys.trans hD)
      rw [hsame']
      refine ⟨rfl, ?_⟩
      have hboth := hc.seq hc'
      rw [hc'.map_shift] at hboth
      exact hboth.congr rfl rfl

end

namespace QueryModule

/-- The pass over a module where calls go no more than `levels` levels deep: what is deeper is answered by
`stuck`. -/
def analyseWithin (stuck : CalleeMode) (levels : Nat) (m : QueryModule) : QueryModule × EngineResult Unit :=
  match checkDeclarations [] m.functions with
  | .error e => (m, .error e)
  | .ok () =>
    let callee := declaredModeOr stuck levels []
    let (r, functions) := (analyseDeclared callee (m.functions.map (·.key))).run m.functions
    match r with
    | .error e => ({ m with functions := functions }, .error e)
    | .ok () =>
      let ((body, r), functions) := (m.body.analyse callee []).run functions
      ({ functions := functions, body := body }, r.map fun _ => ())

theorem analyse_computes {m : QueryModule} (stuck : CalleeMode) {levels : Nat}
    (h : m.functions.length < levels) :
    m.analyseWithin stuck levels = m.analyse ∧
      Computes [] m.body m.functions m.analyse.1.body m.analyse.2.isOk m.analyse.1.functions
        m.computations := by
  rw [analyseWithin, analyse, computations]
  cases checkDeclarations [] m.functions with
  | error e => exact ⟨rfl, .refl [] m.body m.functions _⟩
  | ok _ =>
    have hcallee : (declaredMode (m.functions.length + 1) []).Computes (m.functions.map (·.key)) []
        (declaredModeOr stuck levels []) (declaredComputations (m.functions.length + 1) []) :=
      declaredMode_computes stuck _ _ .nil (List.nil_subset _) (by simp) (by simpa using h)
    obtain ⟨hsame, hc⟩ := analyseDeclared_computes hcallee (m.functions.map (·.key)) (D := m.functions) rfl
    dsimp only
    rw [hsame]
    rcases hx : (analyseDeclared (declaredMode (m.functions.length + 1) [])
      (m.functions.map (·.key))).run m.functions with ⟨e | _, E⟩
    all_goals simp only [hx] at hc ⊢
    · rw [List.append_nil]
      exact ⟨trivial, (hc.first m.body).congr rfl rfl⟩
    · obtain ⟨hsame', hc'⟩ := (m.body.computes hcallee []).run E hc.later.keys
      rw [hsame']
      have hboth := hc.seq hc'
      rw [show (nodes ()).length = 0 from rfl, Place.shift_zero, List.map_id] at hboth
      rcases hy : (m.body.analyse (declaredMode (m.functions.length + 1) []) []).run E with ⟨⟨body, r⟩, F⟩
      simp only [hy, EngineResult.isOk_map] at hboth ⊢
      exact ⟨trivial, hboth.congr rfl rfl⟩

/-- **Analysis ends, and computes no mode twice.** Calls of declared functions, recursive ones included, never
go deeper than there are functions: whatever an analysis would do with deeper calls, it comes to the same
module with the same outcome. The nodes whose modes it sets out to compute are all different; they are
clauses, and expressions that had no mode before. A node that has a mode afterwards had one before or is one of
them, and all of them have modes if the analysis passes. -/
theorem analyse_computes_once (m : QueryModule) :
    (∀ (stuck : CalleeMode) (levels : Nat), m.functions.length < levels →
      m.analyseWithin stuck levels = m.analyse) ∧
    m.computations.Nodup ∧
    (∀ p ∈ m.computations, ∃ n, m.node? p = some n ∧ n.Pending) ∧
    (∀ p n, m.analyse.1.node? p = some n → n.slot.isComputed = true →
      (∃ n₀, m.node? p = some n₀ ∧ n₀.slot.isComputed = true) ∨ p ∈ m.computations) ∧
    (m.analyse.2 = .ok () →
      ∀ p ∈ m.computations, ∃ n, m.analyse.1.node? p = some n ∧ n.slot.isComputed = true) := by
  have h := (analyse_computes (m := m) (fun _ => pure (.ok .host)) (Nat.lt_succ_self _)).2
  refine ⟨fun stuck levels hlevels => (analyse_computes stuck hlevels).1, h.nodup, h.pending, h.written,
    fun hok => h.computed ?_⟩
  rw [hok]
  rfl

/-- `declare f($x) { for $y in g(f($x)) return $y } g($x) { function() { f($x) } }; f(g(null))`. -/
def circling : QueryModule :=
  let call (name : String) (given : Expression) := (ExpressionKind.functionCall name [some given]).bare
  let named (name : String) := (ExpressionKind.varRef name).bare
  let looping := ExpressionKind.flwor
    [.mk (.forEach "y" none false (call "g" (call "f" (named "x")))) .unknown .empty] (named "y")
  let making := ExpressionKind.inlineFunction [] .unconstrained (call "f" (named "x"))
  let declared (name : String) (body : ExpressionKind) : FunctionDeclaration :=
    ⟨name, [⟨"x", .unconstrained⟩], .unconstrained, body.bare, .unknown⟩
  ⟨[declared "f" looping, declared "g" making], call "f" (call "g" (ExpressionKind.literal .null).bare)⟩

/-- The analysis of `f` meets `f` below itself, then `g` in a clause, and in `g` meets `f` once more. It
computes the twelve nodes, each once, and where only three levels of calls are allowed for the two functions,
it does not get to the end of them. -/
theorem analyse_computes_once_circling :
    circling.analyseWithin (fun _ => pure (.fail (.undefinedVariable "x"))) 3 = circling.analyse ∧
      circling.analyse.2 = .ok () ∧
      circling.computations.length = 12 ∧ circling.computations.Nodup :=
  ⟨(analyse_computes_once circling).1 _ 3 (by decide), rfl, rfl, (analyse_computes_once circling).2.1⟩

end QueryModule

end HybridQuery
