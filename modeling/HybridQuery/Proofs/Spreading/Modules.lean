import Mathlib.Data.List.Nodup
import HybridQuery.Proofs.Spreading.Analysis

/-!
# The passes over calls, clauses and modules that are spread

* `CalleeMode.Agrees`: the modes of the bodies of declared functions are found in both modules alike.
* `Expression.Wraps.passes`: every expression passes, by induction on its size.
* `declaredMode_agrees`: by induction on the levels of recursion.
* `QueryModule.analyse_eq_ok`: what the pass over a module that succeeds has done.
-/

namespace HybridQuery

open Declarations

/-! ## Calls of named functions -/

/-- What is found out about a declared function in the first module, is found in the second one too. -/
def CalleeMode.Agrees (K : List FunctionKey) (callee : CalleeMode) : Prop :=
  ∀ key D' D, Matched K D' D → ∀ m' E', (callee key).run D' = (.ok m', E') →
    ∃ m E, (callee key).run D = (.ok m, E) ∧ Matched K E' E ∧ Grows D' D E' E ∧
      ∀ calls, Fine calls E' E → m'.Spreads m ∧ (m = .rows → calls key)

theorem Builtin.mode_spreads {b : Builtin} (hb : b ≠ .structuredJsonFile) : b.mode.Spreads b.mode := by
  cases b <;> first | exact .inl rfl | exact .inr ⟨rfl, rfl⟩ | exact absurd rfl hb

variable {K : List FunctionKey} {callee : CalleeMode}

theorem callMode_agrees (hcallee : callee.Agrees K) {name : String} {arity : Nat}
    (hname : Builtin.find? name arity ≠ some .structuredJsonFile) (gap declared : Bool)
    {D' D E' : Declarations} (hD : Matched K D' D) {m' : Mode}
    (hrun : (callMode callee name arity gap declared).run D' = (.ok m', E')) :
    ∃ m E, (callMode callee name arity gap declared).run D = (.ok m, E) ∧ Matched K E' E ∧
      Grows D' D E' E ∧ ∀ calls, Fine calls E' E → m'.Spreads m ∧ (m = .rows → gap = false ∧
        (Builtin.find? name arity = none → calls (name, arity)) ∧
          ∀ b, Builtin.find? name arity = some b → b.mode.isParallel = true) := by
  unfold callMode at hrun ⊢
  cases hfind : Builtin.find? name arity with
  | some b =>
    rw [hfind] at hrun
    have hb : b ≠ .structuredJsonFile := by
      rintro rfl
      exact hname hfind
    cases hrun
    refine ⟨_, D, rfl, hD, .refl _ _, fun calls _ => ?_⟩
    cases gap with
    | true => exact ⟨.inl rfl, nofun⟩
    | false =>
      refine ⟨Builtin.mode_spreads hb, fun hm => ⟨rfl, nofun, ?_⟩⟩
      rintro _ ⟨⟩
      change b.mode = .rows at hm
      rw [hm]
      rfl
  | none =>
    rw [hfind] at hrun
    cases declared with
    | false => cases hrun
    | true =>
      cases gap with
      | true =>
        cases hrun
        exact ⟨.host, D, rfl, hD, .refl _ _, fun calls _ => ⟨.inl rfl, nofun⟩⟩
      | false =>
        obtain ⟨m, E, hm, hE, hg, h⟩ := hcallee (name, arity) D' D hD m' E' hrun
        exact ⟨m, E, hm, hE, hg, fun calls hf =>
          ⟨(h calls hf).1, fun hrows => ⟨rfl, fun _ => (h calls hf).2 hrows, nofun⟩⟩⟩

/-- The plans of arguments that are all given. -/
theorem given_forall₂ {calls : FunctionKey → Prop} {qs' qs : List (Option Plan)}
    (h : List.Forall₂ (Option.Rel (Plan.Spread calls)) qs' qs) :
    List.Forall₂ (Plan.Spread calls) (qs'.filterMap id) (qs.filterMap id) := by
  induction h with
  | nil => exact .nil
  | cons hq _ ih =>
    cases hq with
    | none => exact ih
    | some hp => exact .cons hp ih

theorem all_isSome {α : Type} (l : List (Option α)) : l.all Option.isSome = !l.any Option.isNone := by
  induction l with
  | nil => rfl
  | cons a l ih => cases a <;> simp [ih]

theorem any_isNone_of_gaps {α β : Type} {l : List (Option α)} {k : List (Option β)}
    (h : ExpressionKind.Passes.gaps l = ExpressionKind.Passes.gaps k) :
    l.any Option.isNone = k.any Option.isNone := by
  have hany {γ : Type} (l : List (Option γ)) :
      l.any Option.isNone = (ExpressionKind.Passes.gaps l).any id := by
    rw [List.any_map]
    rfl
  rw [hany l, hany k, h]

theorem length_of_gaps {α β : Type} {l : List (Option α)} {k : List (Option β)}
    (h : ExpressionKind.Passes.gaps l = ExpressionKind.Passes.gaps k) : l.length = k.length := by
  simpa using congrArg List.length h

theorem callOperation_spreads {calls : FunctionKey → Prop} {name : String}
    {qs' qs : List (Option Plan)} (h : List.Forall₂ (Option.Rel (Plan.Spread calls)) qs' qs)
    (hname : Builtin.find? name qs.length ≠ some .structuredJsonFile) :
    (callOperation name qs').Spread calls (callOperation name qs) := by
  have hgaps := ExpressionKind.Passes.gaps_of_forall₂ h
  unfold callOperation
  rw [length_of_gaps hgaps, all_isSome, all_isSome, any_isNone_of_gaps hgaps]
  cases hfind : Builtin.find? name qs.length with
  | none => exact .staticCall hname h
  | some b =>
    dsimp only
    split
    · refine .compute (.builtin ?_ (given_forall₂ h))
      rintro rfl
      exact hname hfind
    · exact .staticCall hname h

theorem callOperation_hasRows {calls : FunctionKey → Prop} {name : String} {qs : List (Option Plan)}
    (hgap : qs.any Option.isNone = false)
    (hdeclared : Builtin.find? name qs.length = none → calls (name, qs.length))
    (hbuiltin : ∀ b, Builtin.find? name qs.length = some b → b.mode.isParallel = true) :
    (callOperation name qs).HasRows calls := by
  unfold callOperation
  rw [all_isSome, hgap]
  cases hfind : Builtin.find? name qs.length with
  | none =>
    refine ⟨hdeclared hfind, fun p hp => ?_⟩
    cases p with
    | some p => rfl
    | none => simp [List.any_eq_false] at hgap; exact absurd hp (fun hp => by simpa using hgap _ hp)
  | some b => exact hbuiltin b hfind

namespace ExpressionKind.Passes

/-- The operation of a call of a named function. -/
theorem functionCall_compile_eq_ok {c : Catalogue} {position : SourcePosition} {name : String}
    {as : List (Option Expression)} {op : Operation} :
    (ExpressionKind.functionCall name as).compile c position = .ok op ↔
      ∃ qs, compileArguments c as = .ok qs ∧ callOperation name qs = op := by
  change (compileArguments c as >>= fun qs => pure (callOperation name qs)) = _ ↔ _
  simp only [EngineResult.bind_eq_ok, EngineResult.pure_eq_ok]

theorem functionCall (hcallee : callee.Agrees K) {as' as : List (Option Expression)} {name : String}
    (hname : Builtin.find? name as.length ≠ some .structuredJsonFile)
    (h : List.Forall₂ (Option.Rel (Expression.Passes K callee)) as' as) :
    (ExpressionKind.functionCall name as').Passes K callee (.functionCall name as) := by
  intro s' s hs D' D hD t' m' F' hrun'
  rw [functionCall_run] at hrun'
  rcases ha' : (analyseArguments callee s' as').run D' with ⟨⟨bs', r'⟩, E'⟩
  rw [ha'] at hrun'
  cases r' with
  | error e => cases hrun'
  | ok _ =>
    obtain ⟨bs, _, E, ha, hE, hg, ⟨hgaps', hgaps⟩, hl, hq⟩ := arguments h hs D' D hD bs' _ E' ha'
    have hbs := hgaps'.trans hgaps.symm
    dsimp only at hrun'
    rw [length_of_gaps hbs, any_isNone_of_gaps hbs, isDeclared_eq hE] at hrun'
    rcases hc' : (callMode callee name bs.length (bs.any Option.isNone)
      (E.any (·.key == (name, bs.length)))).run E' with ⟨c', G'⟩
    rw [hc'] at hrun'
    cases hrun'
    rw [← length_of_gaps hgaps] at hname
    obtain ⟨m, G, hc, hG, hg₂, hm⟩ := callMode_agrees hcallee hname _ _ hE hc'
    refine ⟨.functionCall name bs, m, G, by rw [functionCall_run, ha]; simp only [hc], hG,
      hg.trans hg₂, trivial, ?_, fun calls hf hk hscopes => ?_⟩
    · change (List.flatMap _ (argumentOutlines bs')).length = (List.flatMap _ (argumentOutlines bs)).length
      rw [lets_argumentOutlines, lets_argumentOutlines, hl]
    · have hkept : Kept bs' bs := by
        have hk : List.Forall₂ KeepsLet ((argumentOutlines bs').flatMap Outline.lets)
          ((argumentOutlines bs).flatMap Outline.lets) := hk
        rwa [lets_argumentOutlines, lets_argumentOutlines] at hk
      have hplans := hq calls (hg₂.fine hf) hkept hscopes
      obtain ⟨hmodes, hrows⟩ := hm calls hf
      refine ⟨hmodes, fun c position op' hop => ?_⟩
      obtain ⟨qs', hqs', rfl⟩ := functionCall_compile_eq_ok.mp hop
      obtain ⟨qs, hqs, hspread, hgapsq⟩ := compileArguments_spreads hplans c hqs'
      have hlen := length_of_gaps hgapsq
      refine ⟨_, functionCall_compile_eq_ok.mpr ⟨qs, hqs, rfl⟩,
        callOperation_spreads hspread (by rwa [hlen]), fun hm => ?_⟩
      obtain ⟨hgap, hdeclared, hbuiltin⟩ := hrows hm
      rw [← any_isNone_of_gaps hgapsq] at hgap
      rw [← hlen] at hdeclared hbuiltin
      exact callOperation_hasRows hgap hdeclared hbuiltin

end ExpressionKind.Passes

/-! ## Clauses -/

/-- What two lists of clauses have built up: the same variables. -/
def ClauseScope.Alike (s' s : ClauseScope) : Prop := ScopesAlike (fun _ _ => True) s'.scopes s.scopes

/-- What two lists of clauses have built up: the modes of the variables and of the streams. -/
structure ClauseScope.Spreads (s' s : ClauseScope) : Prop where
  scopes : ScopesAlike Mode.Spreads s'.scopes s.scopes
  stream : s'.stream.Spreads s.stream

theorem ClauseScope.Spreads.introduce {s' s : ClauseScope} (h : s'.Spreads s) (name : String)
    {m' m : Mode} (hm : m'.Spreads m) : (s'.introduce name m').Spreads (s.introduce name m) :=
  ⟨h.scopes.bind name hm, h.stream⟩

theorem ClauseScope.Spreads.introduceOption {s' s : ClauseScope} (h : s'.Spreads s)
    (name : Option String) : (s'.introduceOption name .host).Spreads (s.introduceOption name .host) := by
  cases name with
  | none => exact h
  | some name => exact h.introduce name (.inl rfl)

theorem ClauseScope.stream_introduceOption (s : ClauseScope) (name : Option String) (mode : Mode) :
    (s.introduceOption name mode).stream = s.stream := by
  cases name <;> rfl

theorem ClauseScope.Alike.introduceOption {s' s : ClauseScope} (h : s'.Alike s)
    (name : Option String) : (s'.introduceOption name .host).Alike (s.introduceOption name .host) := by
  cases name with
  | none => exact h
  | some name => exact ScopesAlike.bind h name trivial

/-- What a clause is, beside what one is that it spreads; `m'` and `m` are the modes of the streams. -/
def ClauseKind.Spreads (calls : FunctionKey → Prop) (k' : ClauseKind) (m' : Mode) (k : ClauseKind)
    (m : Mode) : Prop :=
  List.Forall₂ KeepsLet (k'.ownLet m') (k.ownLet m) →
    ∀ c op', k'.compile c = .ok op' → ∃ op, k.compile c = .ok op ∧ op'.Spread calls m' m op

/-- The pass over what a clause is. -/
def ClauseKind.Passes (K : List FunctionKey) (callee : CalleeMode) (k' k : ClauseKind) : Prop :=
  ∀ isFirst position (s' s : ClauseScope), s'.Alike s →
    Pass.Carries K (k'.analyse callee isFirst s' position) (k.analyse callee isFirst s position)
      (fun t' r' t r => r'.Alike r ∧ (isFirst = false → r.stream = s.stream) ∧
        (t'.ownLet r'.stream).length = (t.ownLet r.stream).length)
      (fun calls t' r' t r => s'.Spreads s →
        t'.Spreads calls r'.stream t r.stream ∧
          (List.Forall₂ KeepsLet (t'.ownLet r'.stream) (t.ownLet r.stream) → r'.Spreads r))

namespace ClauseKind.Passes

variable {e' e : Expression}

theorem forEach (name : String) (place : Option String) (allowingEmpty : Bool)
    (he : e'.Passes K callee e) :
    (ClauseKind.forEach name place allowingEmpty e').Passes K callee
      (.forEach name place allowingEmpty e) := by
  intro isFirst position s' s hs
  rw [ClauseKind.analyse, ClauseKind.analyse]
  refine (he s'.scopes s.scopes hs).wrap (fun e => lets_one e) ?_ ?_
  · intro t' m' t m _
    refine ⟨?_, ?_, rfl⟩
    · refine ClauseScope.Alike.introduceOption ?_ place
      cases isFirst <;> exact ScopesAlike.bind hs name trivial
    · rintro rfl
      rw [ClauseScope.stream_introduceOption]
      rfl
  · rintro calls t' m' t m ⟨hm', hm⟩ hq hscopes
    have hsource := hq hscopes.scopes
    have hmodes := hsource.modes
    rw [ModeSlot.getD, ModeSlot.getD, hm', hm] at hmodes
    refine ⟨fun _ c op' hop => ?_, fun _ => ?_⟩
    · simp only [ClauseKind.compile, EngineResult.bind_eq_ok, EngineResult.pure_eq_ok] at hop ⊢
      obtain ⟨p', hp', rfl⟩ := hop
      obtain ⟨p, hp, hps, -⟩ := hsource.plans c p' hp'
      exact ⟨_, ⟨p, hp, rfl⟩, .forEach name place allowingEmpty hps⟩
    · refine ClauseScope.Spreads.introduceOption ?_ place
      cases isFirst with
      | false => exact hscopes.introduce name (.inl rfl)
      | true =>
        have hstream : ClauseScope.Spreads { s' with stream := m'.rowWise }
            { s with stream := m.rowWise } := ⟨hscopes.scopes, Mode.Spreads.rowWise hmodes⟩
        exact hstream.introduce name (.inl rfl)

theorem letBe (name : String) (he : e'.Passes K callee e) :
    (ClauseKind.letBe name e').Passes K callee (.letBe name e) := by
  intro isFirst position s' s hs
  rw [ClauseKind.analyse, ClauseKind.analyse]
  refine (he s'.scopes s.scopes hs).wrap (fun e => lets_one e) ?_ ?_
  · exact fun t' m' t m _ => ⟨ScopesAlike.bind hs name trivial, fun _ => rfl, rfl⟩
  · rintro calls t' m' t m ⟨hm', hm⟩ hq hscopes
    have hvalue := hq hscopes.scopes
    have hmodes := hvalue.modes
    rw [ModeSlot.getD, ModeSlot.getD, hm', hm] at hmodes
    have hslot : t.slot.getD = m := by rw [ModeSlot.getD, hm]; rfl
    have hkeeps (h : List.Forall₂ KeepsLet [(s'.stream, t'.slot.getD)] [(s.stream, t.slot.getD)]) :
        s'.stream = .host ∨ s.stream = .rows ∨ m = .host := by
      cases h with
      | cons h _ => exact hslot ▸ h
    refine ⟨fun hkept c op' hop => ?_, fun hkept => hscopes.introduce name ?_⟩
    · simp only [ClauseKind.compile, EngineResult.bind_eq_ok, EngineResult.pure_eq_ok] at hop ⊢
      obtain ⟨p', hp', rfl⟩ := hop
      obtain ⟨p, hp, hps, hpm⟩ := hvalue.plans c p' hp'
      refine ⟨_, ⟨p, hp, rfl⟩, .letBe name hps fun _ => ?_⟩
      rw [hpm, hslot]
      exact hkeeps hkept
    · -- The value stays as distributed as it is unless its stream has become distributed.
      rcases hmodes with rfl | ⟨rfl, rfl⟩
      · exact .inl (by unfold letMode; split <;> rfl)
      · rcases hkeeps hkept with h | h | h
        · rw [h]
          cases hm : s.stream with
          | host => exact .inr ⟨rfl, rfl⟩
          | _ => exact .inl rfl
        · exact .inl (by rw [h]; rfl)
        · cases h

theorem keepWhere (he : e'.Passes K callee e) :
    (ClauseKind.keepWhere e').Passes K callee (.keepWhere e) := by
  intro isFirst position s' s hs
  rw [ClauseKind.analyse, ClauseKind.analyse]
  refine (he s'.scopes s.scopes hs).wrap (fun e => lets_one e) ?_ ?_
  · exact fun t' m' t m _ => ⟨hs, fun _ => rfl, rfl⟩
  · rintro calls t' m' t m - hq hscopes
    refine ⟨fun _ c op' hop => ?_, fun _ => hscopes⟩
    simp only [ClauseKind.compile, EngineResult.bind_eq_ok, EngineResult.pure_eq_ok] at hop ⊢
    obtain ⟨p', hp', rfl⟩ := hop
    obtain ⟨p, hp, hps, -⟩ := (hq hscopes.scopes).plans c p' hp'
    exact ⟨_, ⟨p, hp, rfl⟩, .keepWhere hps⟩

theorem count (name : String) : (ClauseKind.count name).Passes K callee (.count name) := by
  intro isFirst position s' s hs
  rw [ClauseKind.analyse, ClauseKind.analyse]
  refine .done rfl fun r' hr' => ?_
  cases hr'
  refine ⟨_, rfl, ⟨ScopesAlike.bind hs name trivial, fun _ => rfl, rfl⟩, fun calls hscopes => ?_⟩
  refine ⟨fun _ c op' hop => ?_, fun _ => hscopes.introduce name (.inl rfl)⟩
  cases hop
  exact ⟨_, rfl, .count name⟩

end ClauseKind.Passes

/-- The pass over a clause. -/
inductive Clause.Passes (K : List FunctionKey) (callee : CalleeMode) : Clause → Clause → Prop
  | mk {k' k : ClauseKind} (position : SourcePosition) (h : k'.Passes K callee k) :
      Clause.Passes K callee (.mk k' position .empty) (.mk k position .empty)

/-- What a list of clauses adds to a chain of clauses. -/
def ClausesSpread (calls : FunctionKey → Prop) (isFirst : Bool) (s : ClauseScope) (t' t : List Clause)
    (r : ClauseScope) : Prop :=
  ∀ c feed' feed chain', feed'.Spread calls feed → (isFirst = true → feed = .start) →
    (isFirst = false → s.stream = .rows → feed.isDistributed = true) →
    compileClauses c feed' t' = .ok chain' → ∃ chain, compileClauses c feed t = .ok chain ∧
      chain'.Spread calls chain ∧ (r.stream = .rows → chain.isDistributed = true)

theorem compileClauses_cons_eq_ok {c : Catalogue} {feed chain : Pipeline} {kind : ClauseKind}
    {position : SourcePosition} {mode : Mode} {rest : List Clause} :
    compileClauses c feed (.mk kind position ⟨some mode⟩ :: rest) = .ok chain ↔
      ∃ op, kind.compile c = .ok op ∧
        compileClauses c (.clause mode position op feed) rest = .ok chain := by
  change (Except.ok mode >>= fun mode => kind.compile c >>= fun op =>
    compileClauses c (.clause mode position op feed) rest) = _ ↔ _
  simp only [EngineResult.bind_eq_ok, Except.ok.injEq, exists_eq_left']

theorem clauses_pass {cs' cs : List Clause} (h : List.Forall₂ (Clause.Passes K callee) cs' cs)
    (isFirst : Bool) {s' s : ClauseScope} (hs : s'.Alike s) :
    Pass.Carries K (analyseClauses callee isFirst s' cs') (analyseClauses callee isFirst s cs)
      (fun _ r' _ r => r'.Alike r)
      (fun calls t' r' t r => s'.Spreads s → r'.Spreads r ∧ ClausesSpread calls isFirst s t' t r) := by
  induction h generalizing isFirst s' s with
  | nil =>
    refine .done rfl fun r' hr' => ?_
    cases hr'
    refine ⟨s, rfl, hs, fun calls hscopes => ⟨hscopes, ?_⟩⟩
    intro c feed' feed chain' hfeed hfirst hlater hchain
    cases hchain
    refine ⟨feed, rfl, hfeed, fun hm => ?_⟩
    cases isFirst with
    | true => rw [hfirst rfl]; rfl
    | false => exact hlater rfl hm
  | @cons _ _ cs' cs hc _ ih =>
    cases hc with
    | @mk k' k position hk =>
      intro D' D hD t' r' F' hrun'
      rw [analyseClauses_cons_run] at hrun'
      rcases hk' : (k'.analyse callee isFirst s' position).run D' with ⟨⟨l', q'⟩, E'⟩
      rw [hk'] at hrun'
      cases q' with
      | error e => cases hrun'
      | ok p' =>
        obtain ⟨l, p, E, hkr, hE, hg, ⟨hp, hstream, hown⟩, hl, hq⟩ :=
          hk isFirst position s' s hs D' D hD l' p' E' hk'
        dsimp only at hrun'
        rcases hr' : (analyseClauses callee false p' cs').run E' with ⟨⟨u', q'⟩, G'⟩
        rw [hr'] at hrun'
        cases hrun'
        obtain ⟨u, r, G, hrr, hG, hg₂, hr, hl₂, hq₂⟩ := ih false hp E' E hE u' _ _ hr'
        refine ⟨.mk l position ⟨some p.stream⟩ :: u, r, G, by rw [analyseClauses_cons_run, hkr]; simp only [hrr]; rfl, hG,
          hg.trans hg₂, hr, ?_, fun calls hf hkept hscopes => ?_⟩
        · rw [lets_cons, lets_cons, lets_clause, lets_clause]
          simp only [List.length_append, hl, hl₂]
          exact congrArg (· + _ + _) hown
        · rw [Kept, lets_cons, lets_cons, lets_clause, lets_clause] at hkept
          obtain ⟨hfirst, hrest⟩ := forall₂_of_append
            (by rw [List.length_append, List.length_append, hl]; exact congrArg (· + _) hown) hkept
          obtain ⟨hownkept, hkind⟩ := forall₂_of_append hown hfirst
          obtain ⟨hop, hp⟩ := hq calls (hg₂.fine hf) hkind hscopes
          have hpspread := hp hownkept
          obtain ⟨hrspread, hclauses⟩ := hq₂ calls hf hrest hpspread
          refine ⟨hrspread, fun c feed' feed chain' hfeed hstart hlater hchain => ?_⟩
          obtain ⟨op', hop', hchain⟩ := compileClauses_cons_eq_ok.mp hchain
          obtain ⟨op, hopc, hops⟩ := hop hownkept c op' hop'
          have hrows (hm : p.stream = .rows) : feed.isDistributed = true := by
            cases hi : isFirst with
            | true => rw [hstart hi]; rfl
            | false => exact hlater hi (hstream hi ▸ hm)
          obtain ⟨chain, hcc, hcs, hcd⟩ := hclauses c _ (.clause p.stream position op feed) chain'
            (.clause (fun _ => hpspread.stream) (fun _ => hrows) hops hfeed) (absurd · Bool.false_ne_true)
            (fun _ hm => by rw [Pipeline.isDistributed, hm]; rfl) hchain
          exact ⟨chain, compileClauses_cons_eq_ok.mpr ⟨op, hopc, hcc⟩, hcs, hcd⟩

namespace ExpressionKind.Passes

theorem flwor {cs' cs : List Clause} {e' e : Expression}
    (hc : List.Forall₂ (Clause.Passes K callee) cs' cs) (he : e'.Passes K callee e) :
    (ExpressionKind.flwor cs' e').Passes K callee (.flwor cs e) := by
  intro s' s hs
  have hresult (r' r : ClauseScope) (hr : r'.Alike r) :
      Pass.Carries K (Pass.wrap (e'.analyse callee r'.scopes) id fun _ => r'.stream)
        (Pass.wrap (e.analyse callee r.scopes) id fun _ => r.stream)
        (fun _ m' _ m => m' = r'.stream ∧ m = r.stream)
        (fun calls t' _ t _ => ScopesAlike Mode.Spreads r'.scopes r.scopes → t'.Spreads calls t) :=
    (he _ _ hr).wrap (fun _ => rfl) (fun _ _ _ _ _ => ⟨rfl, rfl⟩) fun _ _ _ _ _ _ hq => hq
  have hstart : ClauseScope.Alike ⟨[] :: s', .host, []⟩ ⟨[] :: s, .host, []⟩ := hs.push [] nofun
  rw [ExpressionKind.analyse, ExpressionKind.analyse]
  refine ((clauses_pass hc true hstart).andThen fun _ r' _ r hr => hresult r' r hr).wrap
    (fun t => ?_) (fun _ _ _ _ _ => trivial) ?_
  · change (clauseOutlines t.1 ++ [t.2.outline]).flatMap Outline.lets = _
    rw [List.flatMap_append, lets_clauseOutlines, lets_one]
    rfl
  · rintro calls t' _ t _ - ⟨r', r, -, ⟨rfl, rfl⟩, hq, hr⟩ hscopes
    obtain ⟨hspreads, hclauses⟩ := hq ⟨hscopes.push [] nofun, .inl rfl⟩
    refine ⟨hspreads.stream, fun c position op' h => ?_⟩
    simp only [ExpressionKind.compile, EngineResult.bind_eq_ok, EngineResult.pure_eq_ok] at h ⊢
    obtain ⟨chain', hchain', p', hp', rfl⟩ := h
    obtain ⟨chain, hchain, hcs, hcd⟩ := hclauses c .start .start chain' .start (fun _ => rfl) nofun hchain'
    obtain ⟨p, hp, hps, -⟩ := (hr hspreads.scopes).plans c p' hp'
    exact ⟨_, ⟨chain, hchain, p, hp, rfl⟩, .flwor hcs hps, hcd⟩

end ExpressionKind.Passes

/-! ## Expressions -/

/-- The call that hands an expression to `parallelize`, once it is analysed. -/
def handedOver (e : Expression) (place : SourcePosition) (partitions : Int) : ExpressionKind :=
  .functionCall Builtin.parallelize.name
    [some e, some (.mk (.literal (.integer partitions)) place ⟨some .host⟩)]

theorem handed_run (e : Expression) (s : List Scope) (position place : SourcePosition)
    (partitions : Int) (D : Declarations) :
    ((Expression.mk (.functionCall Builtin.parallelize.name
      [some e, some (.mk (.literal (.integer partitions)) place .empty)]) position .empty).analyse
        callee s).run D =
      (match (e.analyse callee s).run D with
        | ((e, .ok _), E) =>
          ((.mk (handedOver e place partitions) position ⟨some .rows⟩, .ok .rows), E)
        | ((e, .error f), E) =>
          ((.mk (.functionCall Builtin.parallelize.name
            [some e, some (.mk (.literal (.integer partitions)) place .empty)]) position .empty,
              .error (f.locate position)), E)) := by
  rw [Expression.analyse_run, ExpressionKind.functionCall_run, analyseArguments, Pass.run_wrap,
    Pass.run_andThen]
  rcases (e.analyse callee s).run D with ⟨⟨e, _ | mode⟩, E⟩ <;> rfl

theorem handedOver_compile_eq_ok {c : Catalogue} {e : Expression} {position place : SourcePosition}
    {partitions : Int} {p : Plan}
    (h : (Expression.mk (handedOver e place partitions) position ⟨some .rows⟩).compile c = .ok p) :
    ∃ q rest, e.compile c = .ok q ∧
      p = .mk .rows position (.compute (.builtin .parallelize (q :: rest))) := by
  obtain ⟨op, hop, rfl⟩ := Expression.compile_eq_ok.mp h
  obtain ⟨qs, hqs, rfl⟩ := ExpressionKind.Passes.functionCall_compile_eq_ok.mp hop
  have hsome (e : Expression) (as : List (Option Expression)) : compileArguments c (some e :: as) =
      (do return some (← e.compile c) :: (← compileArguments c as)) := rfl
  simp only [hsome, EngineResult.bind_eq_ok, EngineResult.pure_eq_ok] at hqs
  obtain ⟨p, hp, _, ⟨q, -, _, ⟨⟩, rfl⟩, rfl⟩ := hqs
  exact ⟨p, [q], hp, rfl⟩

theorem lets_handedOver (e : Expression) (place : SourcePosition) (partitions : Int) :
    lets (handedOver e place partitions) = lets e := by
  change (argumentOutlines _).flatMap Outline.lets = _
  rw [lets_argumentOutlines, lets_cons, lets_cons, lets_some, lets_some, lets_expression]
  exact List.append_nil _

/-- An expression that is handed to `parallelize`. -/
theorem Expression.Passes.handed {e' e : Expression} (he : e'.Passes K callee e)
    (position place : SourcePosition) (partitions : Int) :
    (Expression.mk (.functionCall Builtin.parallelize.name
      [some e', some (.mk (.literal (.integer partitions)) place .empty)]) position .empty).Passes
        K callee e := by
  intro s' s hs D' D hD t' m' E' hrun'
  rw [handed_run] at hrun'
  rcases he' : (e'.analyse callee s').run D' with ⟨⟨u', r'⟩, F'⟩
  rw [he'] at hrun'
  cases r' with
  | error f => cases hrun'
  | ok k' =>
    cases hrun'
    obtain ⟨t, m, E, hrun, hE, hg, ⟨-, hm⟩, hl, hq⟩ := he s' s hs D' D hD u' k' _ he'
    refine ⟨t, m, E, hrun, hE, hg, ⟨rfl, hm⟩, ?_, fun calls hf hkept hscopes => ?_⟩
    · rw [lets_expression, lets_handedOver, hl]
    · rw [Kept, lets_expression, lets_handedOver] at hkept
      obtain ⟨hmodes, hplans⟩ := hq calls hf hkept hscopes
      have hrows : Mode.rows.Spreads t.slot.getD := by
        rcases hmodes with h | ⟨-, h⟩
        · exact .inl h
        · exact .inr ⟨rfl, h⟩
      refine ⟨hrows, fun c p' hp' => ?_⟩
      obtain ⟨q', rest, hq', rfl⟩ := handedOver_compile_eq_ok hp'
      obtain ⟨p, hp, hps, hpm⟩ := hplans c q' hq'
      exact ⟨p, hp, .wrap (fun _ => hpm ▸ hrows) hps, hpm⟩

section
variable (hcallee : callee.Agrees K) {n : Nat}
  (ih : ∀ e' e, sizeOf e' < n → Expression.Wraps e' e → e'.Passes K callee e)
include hcallee ih

omit hcallee in
theorem passes_list {es' es : List Expression} (h : List.Forall₂ Expression.Wraps es' es)
    (hn : sizeOf es' < n) : List.Forall₂ (Expression.Passes K callee) es' es :=
  forall₂_of_mem h fun e' he' e hw => ih e' e (by have := List.sizeOf_lt_of_mem he'; omega) hw

omit hcallee in
theorem passes_arguments {as' as : List (Option Expression)}
    (h : List.Forall₂ (Option.Rel Expression.Wraps) as' as) (hn : sizeOf as' < n) :
    List.Forall₂ (Option.Rel (Expression.Passes K callee)) as' as := by
  refine forall₂_of_mem h fun a' ha' a hw => ?_
  have := List.sizeOf_lt_of_mem ha'
  cases hw with
  | none => exact .none
  | some hw =>
    rw [Option.some.sizeOf_spec] at this
    exact .some (ih _ _ (by omega) hw)

omit hcallee in
theorem passes_pairs {ps' ps : List (Expression × Expression)}
    (h : List.Forall₂ (Both Expression.Wraps) ps' ps) (hn : sizeOf ps' < n) :
    List.Forall₂ (Both (Expression.Passes K callee)) ps' ps := by
  refine forall₂_of_mem h fun p' hp' p hw => ?_
  have := List.sizeOf_lt_of_mem hp'
  cases hw with
  | mk hk hv =>
    rw [Prod.mk.sizeOf_spec] at this
    exact .mk (ih _ _ (by omega) hk) (ih _ _ (by omega) hv)

omit hcallee in
theorem passes_clause {c' c : Clause} (h : c'.Wraps c) (hn : sizeOf c' < n) :
    Clause.Passes K callee c' c := by
  cases h with
  | @mk k' k position hk =>
    rw [Clause.mk.sizeOf_spec] at hn
    refine .mk position ?_
    cases hk with
    | forEach name place allowingEmpty h =>
      rw [ClauseKind.forEach.sizeOf_spec] at hn
      exact .forEach name place allowingEmpty (ih _ _ (by omega) h)
    | letBe name h =>
      rw [ClauseKind.letBe.sizeOf_spec] at hn
      exact .letBe name (ih _ _ (by omega) h)
    | keepWhere h =>
      rw [ClauseKind.keepWhere.sizeOf_spec] at hn
      exact .keepWhere (ih _ _ (by omega) h)
    | count name => exact .count name

omit hcallee in
theorem passes_clauses {cs' cs : List Clause} (h : List.Forall₂ Clause.Wraps cs' cs)
    (hn : sizeOf cs' < n) : List.Forall₂ (Clause.Passes K callee) cs' cs :=
  forall₂_of_mem h fun c' hc' c hw => passes_clause ih hw (by have := List.sizeOf_lt_of_mem hc'; omega)

theorem passes_kind {k' k : ExpressionKind} (h : k'.Wraps k) (hn : sizeOf k' < n) :
    k'.Passes K callee k := by
  cases h with
  | literal value => exact .literal value
  | varRef name => exact .varRef name
  | contextItem => exact .contextItem
  | functionRef hname => exact .functionRef hname
  | sequence h =>
    rw [ExpressionKind.sequence.sizeOf_spec] at hn
    exact .sequence (passes_list ih h (by omega))
  | arithmetic op hl hr =>
    rw [ExpressionKind.arithmetic.sizeOf_spec] at hn
    exact .arithmetic op (ih _ _ (by omega) hl) (ih _ _ (by omega) hr)
  | comparison op hl hr =>
    rw [ExpressionKind.comparison.sizeOf_spec] at hn
    exact .comparison op (ih _ _ (by omega) hl) (ih _ _ (by omega) hr)
  | logical op hl hr =>
    rw [ExpressionKind.logical.sizeOf_spec] at hn
    exact .logical op (ih _ _ (by omega) hl) (ih _ _ (by omega) hr)
  | not h =>
    rw [ExpressionKind.not.sizeOf_spec] at hn
    exact .not (ih _ _ (by omega) h)
  | conditional hc hy hno =>
    rw [ExpressionKind.conditional.sizeOf_spec] at hn
    exact .conditional (ih _ _ (by omega) hc) (ih _ _ (by omega) hy) (ih _ _ (by omega) hno)
  | range hf hl =>
    rw [ExpressionKind.range.sizeOf_spec] at hn
    exact .range (ih _ _ (by omega) hf) (ih _ _ (by omega) hl)
  | object h =>
    rw [ExpressionKind.object.sizeOf_spec] at hn
    exact .object (passes_pairs ih h (by omega))
  | array h =>
    cases h with
    | none => exact .emptyArray
    | some h =>
      rw [ExpressionKind.array.sizeOf_spec, Option.some.sizeOf_spec] at hn
      exact .array (ih _ _ (by omega) h)
  | objectLookup ho hk =>
    rw [ExpressionKind.objectLookup.sizeOf_spec] at hn
    exact .objectLookup (ih _ _ (by omega) ho) (ih _ _ (by omega) hk)
  | arrayLookup ha hi =>
    rw [ExpressionKind.arrayLookup.sizeOf_spec] at hn
    exact .arrayLookup (ih _ _ (by omega) ha) (ih _ _ (by omega) hi)
  | arrayUnbox h =>
    rw [ExpressionKind.arrayUnbox.sizeOf_spec] at hn
    exact .arrayUnbox (ih _ _ (by omega) h)
  | filter hs hp =>
    rw [ExpressionKind.filter.sizeOf_spec] at hn
    exact .filter (ih _ _ (by omega) hs) (ih _ _ (by omega) hp)
  | functionCall hname h =>
    rw [ExpressionKind.functionCall.sizeOf_spec] at hn
    exact .functionCall hcallee hname (passes_arguments ih h (by omega))
  | dynamicCall hf h =>
    rw [ExpressionKind.dynamicCall.sizeOf_spec] at hn
    exact .dynamicCall (ih _ _ (by omega) hf) (passes_arguments ih h (by omega))
  | inlineFunction parameters returnType h =>
    rw [ExpressionKind.inlineFunction.sizeOf_spec] at hn
    exact .inlineFunction parameters returnType (ih _ _ (by omega) h)
  | flwor hc hr =>
    rw [ExpressionKind.flwor.sizeOf_spec] at hn
    exact .flwor (passes_clauses ih hc (by omega)) (ih _ _ (by omega) hr)

end

/-- Every expression passes with the one that it spreads. -/
theorem Expression.Wraps.passes (hcallee : callee.Agrees K) {e' e : Expression} (h : e'.Wraps e) :
    e'.Passes K callee e := by
  have hsize (n : Nat) : ∀ e' e, sizeOf e' < n → Expression.Wraps e' e → e'.Passes K callee e := by
    induction n with
    | zero => exact fun _ _ h => absurd h (Nat.not_lt_zero _)
    | succ n ih =>
      intro e' e hn h
      cases h with
      | node position h =>
        rw [Expression.mk.sizeOf_spec] at hn
        exact (passes_kind hcallee ih h (by omega)).expression position
      | wrap position place partitions h =>
        simp only [Expression.mk.sizeOf_spec, ExpressionKind.functionCall.sizeOf_spec,
          List.cons.sizeOf_spec, Option.some.sizeOf_spec] at hn
        exact (ih _ _ (by omega) h).handed position place partitions
  exact hsize _ e' e (Nat.lt_succ_self _) h

/-! ## Declared functions -/

section
variable {D' D E' E : Declarations} {key : FunctionKey} {t' t : Expression}

theorem setBody_key (D : Declarations) (key : FunctionKey) (t : Expression) :
    (setBody D key t).map FunctionDeclaration.key = D.map FunctionDeclaration.key := by
  rw [setBody, List.map_map]
  refine List.map_congr_left fun d _ => ?_
  dsimp only [Function.comp_apply]
  split <;> rfl

theorem setBody_same {d : FunctionDeclaration} (hd : d ∈ D)
    (hdistinct : (D.map FunctionDeclaration.key).Nodup) : setBody D d.key d.body = D := by
  rw [setBody]
  conv_rhs => rw [← List.map_id D]
  refine List.map_congr_left fun e he => ?_
  split
  · rename_i hkey
    obtain rfl := List.inj_on_of_nodup_map hdistinct he hd (by simpa using hkey)
    rfl
  · rfl

variable (hE : Matched (key :: K) E' E)
include hE

/-- A function that is being analysed has no modes, whatever is analysed in between. -/
theorem Declarations.Matched.key_ne {d : FunctionDeclaration} (hd : d ∈ E) (hc : d.body.slot.isComputed = true) :
    d.key ≠ key := by
  intro h
  rw [hE.started d hd (by rw [h]; exact List.mem_cons_self)] at hc
  cases hc

/-- Setting the body of a function that is being analysed takes nothing back. -/
theorem Declarations.Matched.setBody_grows (t' t : Expression) :
    Grows E' E (setBody E' key t') (setBody E key t) := by
  have hstays (d : FunctionDeclaration) (hd : d ∈ E) (hc : d.body.slot.isComputed = true) :
      d ∈ setBody E key t :=
    List.mem_map.mpr ⟨d, hd, if_neg (by simpa using hE.key_ne hd hc)⟩
  refine ⟨fun {calls} hf => ?_, setBody_key E key t, hstays⟩
  have hkept := hf.kept
  rw [setBody, setBody, List.forall₂_map_left_iff, List.forall₂_map_right_iff] at hkept
  refine ⟨List.forall₂_iff_zip.mpr ⟨hE.paired.length_eq, fun {d' d} hmem hc => ?_⟩, fun d hd hrows => ?_⟩
  · have hp := (List.forall₂_iff_zip.mp hE.paired).2 hmem
    have hne := hE.key_ne (List.of_mem_zip hmem).2 hc
    have hset := (List.forall₂_iff_zip.mp hkept).2 hmem
    rw [hp.key, if_neg (by simpa using hne), if_neg (by simpa using hne)] at hset
    exact hset hc
  · exact hf.calls d (hstays d hd (by rw [ModeSlot.isComputed, hrows]; rfl)) hrows

/-- The pass over the body of a function that was being analysed ends with its modes. -/
theorem Declarations.Matched.setBody (hkey : key ∉ K) (hcomputed' : t'.slot.isComputed = true)
    (hcomputed : t.slot.isComputed = true) (hlets : (lets t').length = (lets t).length)
    (hspreads : ∀ calls, Fine calls E' E → Kept t' t → t'.Spreads calls t) :
    Matched K (HybridQuery.setBody E' key t') (HybridQuery.setBody E key t) := by
  have hgrows := hE.setBody_grows t' t
  refine ⟨?_, by rw [setBody_key]; exact hE.distinct, fun d hd hK => ?_⟩
  · rw [HybridQuery.setBody, HybridQuery.setBody, List.forall₂_map_left_iff,
      List.forall₂_map_right_iff]
    refine hE.paired.imp fun d' d hp => ?_
    rw [hp.key]
    split
    · exact ⟨hp.name, hp.parameters, hp.returnType, hp.position,
        .inr ⟨hcomputed', hcomputed, hlets, fun calls hf => hspreads calls (hgrows.fine hf)⟩⟩
    · exact hp.grow hgrows
  · obtain ⟨e, he, rfl⟩ := List.mem_map.mp hd
    split at hK
    · rename_i h
      exact absurd ((beq_iff_eq.mp h : e.key = key) ▸ hK) hkey
    · rename_i h
      rw [if_neg h]
      exact hE.started e he (List.mem_cons_of_mem _ hK)

end

/-- The functions of the two modules that are found by a key. -/
theorem Declarations.Matched.find? {D' D : Declarations} (hD : Matched K D' D) {key : FunctionKey}
    {d' : FunctionDeclaration} (hd' : D'.find? (·.key == key) = some d') :
    ∃ d, D.find? (·.key == key) = some d ∧ (d', d) ∈ D'.zip D ∧ d.key = key ∧ Paired D' D d' d := by
  have hfind {F' F : Declarations} (hF : List.Forall₂ (Paired D' D) F' F)
      (hd' : F'.find? (·.key == key) = some d') :
      ∃ d, F.find? (·.key == key) = some d ∧ (d', d) ∈ F'.zip F ∧ d.key = key ∧ Paired D' D d' d := by
    induction hF with
    | nil => cases hd'
    | @cons e' e F' F he _ ih =>
      rw [List.find?_cons, he.key] at hd'
      rw [List.find?_cons]
      cases hkey : e.key == key with
      | true =>
        rw [hkey] at hd'
        cases hd'
        exact ⟨e, rfl, List.mem_cons_self, beq_iff_eq.mp hkey, he⟩
      | false =>
        rw [hkey] at hd'
        obtain ⟨d, hd, hmem, h⟩ := ih hd'
        exact ⟨d, hd, List.mem_cons_of_mem _ hmem, h⟩
  exact hfind hD.paired hd'

theorem Declarations.Matched.keys {D' D : Declarations} (hD : Matched K D' D) :
    D'.map FunctionDeclaration.key = D.map FunctionDeclaration.key := by
  have hmap {F' F : Declarations} (hF : List.Forall₂ (Paired D' D) F' F) :
      F'.map FunctionDeclaration.key = F.map FunctionDeclaration.key := by
    induction hF with
    | nil => rfl
    | cons hd _ ih => rw [List.map_cons, List.map_cons, hd.key, ih]
  exact hmap hD.paired

theorem Declarations.Matched.exists_zip {D' D : Declarations} (hD : Matched K D' D) {key : FunctionKey}
    (hkey : key ∈ D.map FunctionDeclaration.key) :
    ∃ d' d, (d', d) ∈ D'.zip D ∧ d'.key = key ∧ d.key = key := by
  have hzip {F' F : Declarations} (hF : List.Forall₂ (Paired D' D) F' F)
      (hkey : key ∈ F.map FunctionDeclaration.key) :
      ∃ d' d, (d', d) ∈ F'.zip F ∧ d'.key = key ∧ d.key = key := by
    induction hF with
    | nil => cases hkey
    | @cons d' d _ _ hd _ ih =>
      rcases List.mem_cons.mp hkey with rfl | hkey
      · exact ⟨d', d, List.mem_cons_self, hd.key, rfl⟩
      · obtain ⟨e', e, hmem, h⟩ := ih hkey
        exact ⟨e', e, List.mem_cons_of_mem _ hmem, h⟩
  exact hzip hD.paired hkey

/-- A function whose body is not analysed yet may be started. -/
theorem Declarations.Matched.start {D' D : Declarations} (hD : Matched K D' D) {d : FunctionDeclaration}
    (hd : d ∈ D) (hc : d.body.slot.isComputed = false) : Matched (d.key :: K) D' D := by
  refine ⟨hD.paired, hD.distinct, fun e he hK => ?_⟩
  rcases List.mem_cons.mp hK with hkey | hK
  · rw [List.inj_on_of_nodup_map hD.distinct he hd hkey]
    exact hc
  · exact hD.started e he hK

theorem Expression.Wraps.slot_eq {e' e : Expression} (h : e'.Wraps e) : e.slot = .empty := by
  match h with
  | .node .. => rfl
  | .wrap _ _ _ h => exact h.slot_eq
termination_by sizeOf e'
decreasing_by
  simp only [Expression.mk.sizeOf_spec, ExpressionKind.functionCall.sizeOf_spec, List.cons.sizeOf_spec,
    Option.some.sizeOf_spec]
  omega

/-- The body of a declared function is analysed on first use. -/
theorem declaredMode_run {level : Nat} {key : FunctionKey} (hK : K.contains key = false)
    {D : Declarations} {d : FunctionDeclaration} (hd : D.find? (·.key == key) = some d) :
    (declaredMode (level + 1) K key).run D =
      (let analysed := (d.body.analyse (declaredMode level (key :: K)) [parameterScope d.parameters]).run D
      (analysed.1.2, setBody analysed.2 key analysed.1.1)) := by
  rw [declaredMode_run_succ, hK, hd]
  rfl

/-- A declared function that is not being analysed: its body is analysed in both modules. -/
theorem declaredMode_step {level : Nat} {key : FunctionKey} (hK : K.contains key = false)
    (ih : (declaredMode level (key :: K)).Agrees (key :: K)) {D' D E' : Declarations}
    (hD : Matched K D' D) {m' : Mode} (hrun' : (declaredMode (level + 1) K key).run D' = (.ok m', E')) :
    ∃ m E, (declaredMode (level + 1) K key).run D = (.ok m, E) ∧ Matched K E' E ∧ Grows D' D E' E ∧
      (∃ d ∈ E, d.key = key ∧ d.body.slot.isComputed = true) ∧
      ∀ calls, Fine calls E' E → m'.Spreads m ∧ (m = .rows → calls key) := by
  have hnotin : key ∉ K := by simpa using hK
  cases hd' : D'.find? (·.key == key) with
  | none =>
    rw [declaredMode_run_succ, hK, hd'] at hrun'
    cases hrun'
  | some d' =>
    obtain ⟨d, hd, hmem, rfl, hp⟩ := hD.find? hd'
    have hdD := List.mem_of_find?_eq_some hd
    rw [declaredMode_run hK hd'] at hrun'
    rw [declaredMode_run hK hd]
    rcases hp.body with hw | hfin
    · rcases ha' : (d'.body.analyse (declaredMode level (d.key :: K))
        [parameterScope d'.parameters]).run D' with ⟨⟨t', r'⟩, F'⟩
      rw [ha'] at hrun'
      cases hrun'
      have hstart := hD.start hdD (by rw [hw.slot_eq]; rfl)
      have hscopes {R : Mode → Mode → Prop} (hR : R .host .host) :
          ScopesAlike R [parameterScope d'.parameters] [parameterScope d.parameters] := by
        rw [hp.parameters]
        exact ScopesAlike.parameters .nil hR d.parameters
      obtain ⟨t, m, F, ha, hF, hg, ⟨ht', ht⟩, hl, hq⟩ :=
        hw.passes ih _ _ (hscopes trivial) D' D hstart t' m' F' ha'
      have hcomputed : t.slot.isComputed = true := by rw [ModeSlot.isComputed, ht]; rfl
      have hspreads (calls : FunctionKey → Prop) (hf : Fine calls F' F) (hk : Kept t' t) :=
        hq calls hf hk (hscopes (.inl rfl))
      have hset := hF.setBody hnotin (by rw [ModeSlot.isComputed, ht']; rfl) hcomputed hl hspreads
      have hgrows := hF.setBody_grows t' t
      obtain ⟨e', e, hmem, hkey', hkey⟩ := hF.exists_zip
        (show d.key ∈ F.map FunctionDeclaration.key by rw [hg.keys]; exact List.mem_map_of_mem hdD)
      have he : { e with body := t } ∈ setBody F d.key t :=
        List.mem_map.mpr ⟨e, (List.of_mem_zip hmem).2, if_pos (beq_iff_eq.mpr hkey)⟩
      refine ⟨m, _, by rw [ha], hset, hg.trans hgrows, ⟨_, he, hkey, hcomputed⟩, fun calls hf => ?_⟩
      have hkept := hf.kept
      rw [setBody, setBody, List.forall₂_map_left_iff, List.forall₂_map_right_iff] at hkept
      have hk := (List.forall₂_iff_zip.mp hkept).2 hmem
      rw [if_pos (beq_iff_eq.mpr hkey'), if_pos (beq_iff_eq.mpr hkey)] at hk
      have hmodes := (hspreads calls (hgrows.fine hf) (hk hcomputed)).modes
      rw [ModeSlot.getD, ModeSlot.getD, ht', ht] at hmodes
      refine ⟨hmodes, fun hrows => ?_⟩
      have hcalls : calls e.key := hf.calls { e with body := t } he (by rw [ht, hrows])
      rwa [hkey] at hcalls
    · rw [Expression.analyse_computed hfin.computed'] at hrun'
      rw [Expression.analyse_computed hfin.computed]
      rw [← hp.key] at hrun'
      dsimp only at hrun' ⊢
      rw [setBody_same (List.mem_of_find?_eq_some hd') (by rw [hD.keys]; exact hD.distinct)] at hrun'
      rw [setBody_same hdD hD.distinct]
      cases hrun'
      refine ⟨_, _, rfl, hD, .refl _ _, ⟨d, hdD, rfl, hfin.computed⟩, fun calls hf => ?_⟩
      have hkept := (List.forall₂_iff_zip.mp hf.kept).2 hmem hfin.computed
      refine ⟨(hfin.spreads calls hf hkept).modes, fun hrows => hf.calls d hdD ?_⟩
      obtain ⟨m, hm⟩ := Option.isSome_iff_exists.mp hfin.computed
      rw [ModeSlot.getD, hm] at hrows
      rw [hm]
      exact congrArg some hrows

/-- The modes of declared functions are found in both modules alike. -/
theorem declaredMode_agrees (level : Nat) (K : List FunctionKey) :
    (declaredMode level K).Agrees K := by
  induction level generalizing K with
  | zero =>
    intro key D' D hD m' E' hrun
    cases hrun
    exact ⟨.host, D, rfl, hD, .refl _ _, fun calls _ => ⟨.inl rfl, nofun⟩⟩
  | succ level ih =>
    intro key D' D hD m' E' hrun'
    cases hK : K.contains key with
    | true =>
      have hrun (D : Declarations) : (declaredMode (level + 1) K key).run D = (.ok .host, D) := by
        rw [declaredMode, hK]
        rfl
      rw [hrun] at hrun'
      cases hrun'
      exact ⟨.host, D, hrun D, hD, .refl _ _, fun calls _ => ⟨.inl rfl, nofun⟩⟩
    | false =>
      obtain ⟨m, E, hrun, hE, hg, -, h⟩ := declaredMode_step hK (ih (key :: K)) hD hrun'
      exact ⟨m, E, hrun, hE, hg, h⟩

/-- The bodies of all declared functions are analysed in both modules. -/
theorem analyseDeclared_agrees (level : Nat) {D' D E' : Declarations} (hD : Matched [] D' D)
    {keys : List FunctionKey}
    (hrun' : (analyseDeclared (declaredMode (level + 1) []) keys).run D' = (.ok (), E')) :
    ∃ E, (analyseDeclared (declaredMode (level + 1) []) keys).run D = (.ok (), E) ∧ Matched [] E' E ∧
      Grows D' D E' E ∧ ∀ key ∈ keys, ∃ d ∈ E, d.key = key ∧ d.body.slot.isComputed = true := by
  induction keys generalizing D' D with
  | nil =>
    cases hrun'
    exact ⟨D, rfl, hD, .refl _ _, nofun⟩
  | cons key keys ih =>
    rw [analyseDeclared_cons_run] at hrun' ⊢
    rcases hc' : (declaredMode (level + 1) [] key).run D' with ⟨r', F'⟩
    rw [hc'] at hrun'
    cases r' with
    | error e => cases hrun'
    | ok m' =>
      obtain ⟨m, F, hc, hF, hg, ⟨d, hd, hkey, hcomputed⟩, -⟩ :=
        declaredMode_step rfl (declaredMode_agrees level [key]) hD hc'
      obtain ⟨E, hE, hEE, hg₂, hall⟩ := ih hF hrun'
      refine ⟨E, by rw [hc]; exact hE, hEE, hg.trans hg₂, fun k hk => ?_⟩
      rcases List.mem_cons.mp hk with rfl | hk
      · exact ⟨d, hg₂.stays d hd hcomputed, hkey, hcomputed⟩
      · exact hall k hk

/-! ## Modules -/

theorem QueryModule.Wraps.checkDeclarations {D' D : Declarations}
    (h : List.Forall₂ FunctionDeclaration.Wraps D' D) (seen : List FunctionKey) :
    HybridQuery.checkDeclarations seen D' = HybridQuery.checkDeclarations seen D := by
  induction h generalizing seen with
  | nil => rfl
  | @cons d' d _ _ hd _ ih =>
    have hkey : d'.key = d.key := by
      rw [FunctionDeclaration.key, FunctionDeclaration.key, FunctionDeclaration.arity,
        FunctionDeclaration.arity, hd.name, hd.parameters]
    have harity : d'.arity = d.arity := by
      rw [FunctionDeclaration.arity, FunctionDeclaration.arity, hd.parameters]
    simp only [HybridQuery.checkDeclarations, hkey, harity, hd.name, hd.position, ih]

/-- Declarations that pass the check have different keys, none of which is a built-in function's. -/
theorem distinct_of_checkDeclarations {D : Declarations} {seen : List FunctionKey}
    (h : checkDeclarations seen D = .ok ()) :
    (D.map FunctionDeclaration.key).Nodup ∧ (∀ key ∈ seen, key ∉ D.map FunctionDeclaration.key) ∧
      ∀ d ∈ D, Builtin.find? d.name d.arity = none := by
  induction D generalizing seen with
  | nil => simp
  | cons d D ih =>
    rw [checkDeclarations] at h
    split at h
    · cases h
    · rename_i hbuiltin
      split at h
      · cases h
      · rename_i hseen
        obtain ⟨hnodup, hnot, hnone⟩ := ih h
        refine ⟨?_, ?_, ?_⟩
        · rw [List.map_cons, List.nodup_cons]
          exact ⟨hnot d.key List.mem_cons_self, hnodup⟩
        · intro key hkey hmem
          rcases List.mem_cons.mp hmem with rfl | hmem
          · exact hseen (by simpa using hkey)
          · exact hnot key (List.mem_cons_of_mem _ hkey) hmem
        · intro e he
          rcases List.mem_cons.mp he with rfl | he
          · simpa using hbuiltin
          · exact hnone e he

/-! ## The pass over a module -/

/-- The callees of a module. -/
def QueryModule.callees (m : QueryModule) : CalleeMode := declaredMode (m.functions.length + 1) []

/-- The pass over a module whose declarations are in order. -/
theorem QueryModule.analyse_of_check {m : QueryModule} (h : checkDeclarations [] m.functions = .ok ()) :
    m.analyse =
      (match (analyseDeclared m.callees (m.functions.map (·.key))).run m.functions with
        | (.error e, D) => ({ m with functions := D }, .error e)
        | (.ok _, D) =>
          match (m.body.analyse m.callees []).run D with
          | ((body, r), E) => (⟨E, body⟩, r.map fun _ => ())) := by
  unfold QueryModule.analyse QueryModule.callees
  rw [h]
  dsimp only
  generalize (analyseDeclared _ _).run m.functions = declared
  rcases declared with ⟨_ | _, D⟩ <;> rfl

/-- What the pass over a module that succeeds has done. -/
theorem QueryModule.analyse_eq_ok {m a : QueryModule} :
    m.analyse = (a, .ok ()) ↔ checkDeclarations [] m.functions = .ok () ∧
      ∃ D, (analyseDeclared m.callees (m.functions.map (·.key))).run m.functions = (.ok (), D) ∧
        ∃ mode, (m.body.analyse m.callees []).run D = ((a.body, .ok mode), a.functions) := by
  obtain ⟨functions, body⟩ := a
  cases hcheck : checkDeclarations [] m.functions with
  | error e =>
    have hanalyse : m.analyse = (m, .error e) := by
      unfold QueryModule.analyse
      rw [hcheck]
    rw [hanalyse]
    simp
  | ok _ =>
    rw [analyse_of_check hcheck]
    refine ⟨fun h => ⟨rfl, ?_⟩, ?_⟩
    · rcases hdeclared : (analyseDeclared m.callees (m.functions.map (·.key))).run m.functions with
        ⟨_ | _, D⟩
      · rw [hdeclared] at h
        cases h
      rcases hbody : (m.body.analyse m.callees []).run D with ⟨⟨t, _ | mode⟩, E⟩
      · simp only [hdeclared, hbody] at h
        cases h
      · simp only [hdeclared, hbody] at h
        cases h
        exact ⟨D, hdeclared, mode, hbody⟩
    · rintro ⟨-, D, hdeclared, mode, hbody⟩
      simp only [hdeclared, hbody]
      rfl

end HybridQuery
