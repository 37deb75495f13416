import Mathlib.Algebra.Order.BigOperators.Group.List
import Mathlib.Algebra.Order.Group.Nat
import HybridQuery.Proofs.Lifting.Results
import HybridQuery.Proofs.Modes.Passes

/-!
# Modules follow the rules

Where no declared function reaches itself, the rules give every module at most one set of modes, and the
pass over the module finds it: a function that is met for the first time is never being analysed already.
The order of the declarations decides only on when a function is met.

* `QueryModule.IsModing`: modes of calls that agree with the rules. `QueryModule.exists_moding` and
  `QueryModule.IsModing.unique`: an acyclic module has one.
* `declaredMode_follows`: the mode of a declared function is found as the rules have it.
* `QueryModule.analyse_eq_ok_iff`: the pass over an acyclic module succeeds where the rules do, and with
  their modes.
* `QueryModule.analyse_follows_rules`: the main statement, for every order of the declarations.
-/

namespace HybridQuery

/-! ## Declared functions with their modes -/

/-- The mode that the rules give a declared function. -/
def FunctionDeclaration.ruleMode (calls : CallModes) (d : FunctionDeclaration) : Mode :=
  (d.ruled calls).elim .unset (·.body.slot.getD)

theorem FunctionDeclaration.ruled_eq_some {calls : CallModes} {d d' : FunctionDeclaration} :
    d.ruled calls = some d' ↔
      ∃ body, d.body.ruled calls (VariableModes.bindParameters (fun _ => none) d.parameters) = some body ∧
        { d with body := body } = d' := by
  rw [FunctionDeclaration.ruled, Option.bind_eq_bind, Option.bind_eq_some_iff]
  simp only [Option.pure_def, Option.some.injEq]

theorem FunctionDeclaration.ruled_key {calls : CallModes} {d d' : FunctionDeclaration}
    (h : d.ruled calls = some d') : d'.key = d.key := by
  obtain ⟨body, -, rfl⟩ := FunctionDeclaration.ruled_eq_some.mp h
  rfl

theorem Expression.ruled_computed {calls : CallModes} {vars : VariableModes} {e s : Expression}
    (h : e.ruled calls vars = some s) : s.slot.isComputed = true := by
  obtain ⟨kind, position, slot⟩ := e
  rw [Expression.ruled] at h
  obtain ⟨kind, -, h⟩ := Option.bind_eq_some_iff.mp h
  cases h
  rfl

/-! ## The rules depend on what is called -/

/-- What two sets of rules make of a part that one pass follows under both is the same. -/
theorem Pass.Follows.agree {Inv : Declarations → Prop} {τ β ρ : Type} {x : Pass (Analysed τ β)}
    {r r' : Option ρ} {V : τ → β → ρ → Prop} (h : Follows Inv True x r V) (h' : Follows Inv True x r' V)
    (hV : ∀ t b s s', V t b s → V t b s' → s = s') {D : Declarations} (hD : Inv D) : r = r' := by
  have hle {r r' : Option ρ} (h : Follows Inv True x r V) (h' : Follows Inv True x r' V) (s : ρ)
      (hr : r = some s) : r' = some s := by
    obtain ⟨t, b, E, hx⟩ := h.total trivial hD hr
    obtain ⟨-, s₁, hr₁, h₁⟩ := h.sound hD hx
    obtain ⟨-, s₂, hr₂, h₂⟩ := h'.sound hD hx
    rw [hr₂, hV t b s₂ s₁ h₂ h₁, ← hr₁, hr]
  exact Option.ext fun s => ⟨hle h h' s, hle h' h s⟩

/-- A way of finding modes that looks them up and analyses nothing. -/
def CallModes.callee (calls : CallModes) : CalleeMode := fun key =>
  pure (match calls key with
    | some mode => .ok mode
    | none => .fail (.undefinedFunction key.1 key.2))

theorem CallModes.callee_follows (calls : CallModes) (D : Declarations) (key : FunctionKey) :
    calls.callee.Follows (· = D) True calls key where
  sound {D' mode E} hD hrun := by
    rw [callee] at hrun
    cases hkey : calls key with
    | none =>
      rw [hkey] at hrun
      cases hrun
    | some mode' =>
      rw [hkey] at hrun
      cases hrun
      exact ⟨hD, rfl⟩
  total _ D' _ hkey := by
    obtain ⟨mode, hmode⟩ := Option.ne_none_iff_exists'.mp hkey
    exact ⟨mode, D', by rw [callee, hmode]; rfl⟩

theorem CalleeMode.Follows.congr {Inv : Declarations → Prop} {Total : Prop} {callee : CalleeMode}
    {calls others : CallModes} {key : FunctionKey} (h : callee.Follows Inv Total calls key)
    (hkey : calls key = others key) : callee.Follows Inv Total others key where
  sound hD hrun := hkey ▸ h.sound hD hrun
  total hT _ hD hne := h.total hT hD (hkey ▸ hne)

/-- The modes of a part depend on those of the functions that are called in it. -/
theorem Expression.ruled_congr {calls others : CallModes} {D : Declarations}
    (hcalls : calls.Declared (· = D)) (hothers : others.Declared (· = D)) {e : Expression}
    (he : IsFresh e) (h : ∀ key, HasCall e key → calls key = others key) (scopes : List Scope) :
    e.ruled calls (lookupMode scopes) = e.ruled others (lookupMode scopes) := by
  have hawaits (modes : CallModes) (hmodes : ∀ key, HasCall e key → calls key = modes key) :
      Awaits (· = D) True calls.callee modes e :=
    he.and (everywhere_call.mpr fun key hkey => (calls.callee_follows D key).congr (hmodes key hkey))
  refine Pass.Follows.agree (Expression.follows hcalls e scopes (hawaits calls fun _ _ => rfl))
    (Expression.follows hothers e scopes (hawaits others h)) ?_ (rfl : D = D)
  exact fun t mode s s' hs hs' => hs.1.trans hs'.1.symm

namespace QueryModule

/-- Modes of calls that agree with the rules: each function has the mode that its body gets with them. -/
def IsModing (m : QueryModule) (calls : CallModes) : Prop :=
  ∀ key, calls key = (m.declaration? key).map (·.ruleMode calls)

/-- The modes of calls after some rounds of the rules, all functions being on the host at first. -/
def rounds (m : QueryModule) : Nat → CallModes
  | 0, key => (m.declaration? key).map fun _ => .host
  | n + 1, key => (m.declaration? key).map (·.ruleMode (m.rounds n))

variable {m : QueryModule} {calls others : CallModes}

theorem mem_of_declaration? {key : FunctionKey} {d : FunctionDeclaration}
    (h : m.declaration? key = some d) : d ∈ m.functions ∧ d.key = key :=
  ⟨List.mem_of_find?_eq_some h, by simpa using List.find?_some h⟩

theorem declared_of_map {f : FunctionDeclaration → Mode}
    (h : ∀ key, calls key = (m.declaration? key).map f) : calls.Declared (· = m.functions) := by
  rintro _ rfl key
  rw [h key, ne_eq, Option.map_eq_none_iff, declaration?, List.find?_eq_none, List.any_eq_true]
  simp

theorem declared_rounds (n : Nat) : (m.rounds n).Declared (· = m.functions) := by
  cases n <;> exact declared_of_map fun _ => rfl

/-- A function's mode depends on those of the functions that it calls. -/
theorem ruleMode_congr (hm : m.Fresh) (hcalls : calls.Declared (· = m.functions))
    (hothers : others.Declared (· = m.functions)) {d : FunctionDeclaration} (hd : d ∈ m.functions)
    (h : ∀ g, m.Calls d.key g → calls g = others g) : d.ruleMode calls = d.ruleMode others := by
  have hbody := Expression.ruled_congr hcalls hothers (hm.2 d hd)
    (fun g hg => h g ⟨d, hd, rfl, hg⟩) [parameterScope d.parameters]
  rw [lookupMode_parameters] at hbody
  rw [FunctionDeclaration.ruleMode, FunctionDeclaration.ruleMode, FunctionDeclaration.ruled,
    FunctionDeclaration.ruled]
  exact congrArg (fun body : Option Expression =>
    (body >>= fun body => pure { d with body := body }).elim .unset (·.body.slot.getD)) hbody

section
variable (hm : m.Fresh) {rank : FunctionKey → Nat} (hrank : ∀ f g, m.Calls f g → rank g < rank f)
include hm hrank

/-- A function's mode does not change any more after as many rounds as its rank has. -/
theorem rounds_succ {key : FunctionKey} {n : Nat} (h : rank key < n) :
    m.rounds (n + 1) key = m.rounds n key := by
  induction n generalizing key with
  | zero => omega
  | succ n ih =>
    rw [rounds, rounds]
    cases hd : m.declaration? key with
    | none => rfl
    | some d =>
      obtain ⟨hmem, rfl⟩ := mem_of_declaration? hd
      refine congrArg some (ruleMode_congr hm (declared_rounds _) (declared_rounds _) hmem fun g hg => ?_)
      have := hrank d.key g hg
      exact ih (by omega)

theorem exists_moding_of_rank : ∃ calls, m.IsModing calls := by
  obtain ⟨n, hn⟩ : ∃ n, ∀ d ∈ m.functions, rank d.key < n :=
    ⟨(m.functions.map fun d => rank d.key).sum + 1, fun d hd =>
      Nat.lt_succ_of_le (List.le_sum_of_mem (List.mem_map.mpr ⟨d, hd, rfl⟩))⟩
  refine ⟨m.rounds n, fun key => ?_⟩
  cases hd : m.declaration? key with
  | none =>
    cases n <;> rw [rounds, hd] <;> rfl
  | some d =>
    obtain ⟨hmem, rfl⟩ := mem_of_declaration? hd
    rw [← rounds_succ hm hrank (hn d hmem), rounds, hd]

/-- Two modings agree on a function if they agree on what it calls. -/
theorem IsModing.unique_of_rank (h : m.IsModing calls) (h' : m.IsModing others) (key : FunctionKey) :
    calls key = others key := by
  induction hk : rank key using Nat.strong_induction_on generalizing key with
  | _ n ih =>
    rw [h key, h' key]
    cases hd : m.declaration? key with
    | none => rfl
    | some d =>
      obtain ⟨hmem, rfl⟩ := mem_of_declaration? hd
      refine congrArg some (ruleMode_congr hm (declared_of_map h) (declared_of_map h') hmem fun g hg => ?_)
      exact ih (rank g) (hk ▸ hrank d.key g hg) g rfl

end

theorem exists_moding (hm : m.Fresh) (hacyclic : m.Acyclic) : ∃ calls, m.IsModing calls := by
  obtain ⟨rank, hrank⟩ := acyclic_iff_ranked.mp hacyclic
  exact exists_moding_of_rank hm hrank

theorem IsModing.unique (hm : m.Fresh) (hacyclic : m.Acyclic) (h : m.IsModing calls)
    (h' : m.IsModing others) : calls = others := by
  obtain ⟨rank, hrank⟩ := acyclic_iff_ranked.mp hacyclic
  exact funext (h.unique_of_rank hm hrank h')

end QueryModule

/-! ## Declarations during the passes -/

namespace Declarations

/-- Every function is as it was declared, or has the modes of the rules. -/
def Ruled (calls : CallModes) (D₀ D : Declarations) : Prop :=
  List.Forall₂ (fun d₀ d => d = d₀ ∨ d₀.ruled calls = some d) D₀ D

variable {calls : CallModes} {D₀ D : Declarations}

theorem Ruled.refl (calls : CallModes) (D : Declarations) : Ruled calls D D :=
  List.forall₂_same.mpr fun _ _ => .inl rfl

theorem key_of_ruled {d₀ d : FunctionDeclaration} (h : d = d₀ ∨ d₀.ruled calls = some d) :
    d.key = d₀.key := by
  rcases h with rfl | h
  · rfl
  · exact FunctionDeclaration.ruled_key h

theorem Ruled.keys (h : Ruled calls D₀ D) :
    D.map FunctionDeclaration.key = D₀.map FunctionDeclaration.key := by
  induction h with
  | nil => rfl
  | cons hd _ ih => rw [List.map_cons, List.map_cons, key_of_ruled hd, ih]

theorem Ruled.find (h : Ruled calls D₀ D) (key : FunctionKey) :
    D₀.find? (·.key == key) = none ∧ D.find? (·.key == key) = none ∨
      ∃ d₀ d, D₀.find? (·.key == key) = some d₀ ∧ D.find? (·.key == key) = some d ∧
        (d = d₀ ∨ d₀.ruled calls = some d) := by
  have hrel := find?_forall₂ (p := (·.key == key)) (q := (·.key == key)) h
    fun d₀ d hd => by rw [key_of_ruled hd]
  revert hrel
  generalize D₀.find? (·.key == key) = found₀, D.find? (·.key == key) = found
  rintro (hd | _)
  · exact .inr ⟨_, _, rfl, rfl, hd⟩
  · exact .inl ⟨rfl, rfl⟩

theorem Ruled.any (h : Ruled calls D₀ D) (key : FunctionKey) :
    D.any (·.key == key) = D₀.any (·.key == key) := by
  have hmap (D : Declarations) : D.any (·.key == key) = (D.map FunctionDeclaration.key).any (· == key) := by
    rw [List.any_map]
    rfl
  rw [hmap, hmap, h.keys]

/-- A body that is analysed as the rules have it. -/
theorem Ruled.setBody (h : Ruled calls D₀ D) (hdistinct : (D₀.map FunctionDeclaration.key).Nodup)
    {d₀ d : FunctionDeclaration} (hd₀ : d₀ ∈ D₀) (hruled : d₀.ruled calls = some d) :
    Ruled calls D₀ (setBody D d₀.key d.body) := by
  refine List.forall₂_map_right_iff.mpr ?_
  refine (List.forall₂_and_left (p := (· ∈ D₀)) D₀ D).mpr ⟨fun _ => id, h⟩ |>.imp fun e₀ e ⟨he₀, he⟩ => ?_
  rw [key_of_ruled he]
  split
  · rename_i hkey
    obtain rfl := List.inj_on_of_nodup_map hdistinct he₀ hd₀ (by simpa using hkey)
    refine .inr ?_
    obtain ⟨body, hbody, rfl⟩ := FunctionDeclaration.ruled_eq_some.mp hruled
    rcases he with rfl | he
    · exact hruled
    · obtain ⟨body', hbody', rfl⟩ := FunctionDeclaration.ruled_eq_some.mp he
      exact hruled
  · exact he

end Declarations

namespace QueryModule

variable {m : QueryModule} {calls : CallModes}

/-- How the passes find the module's functions: all of them have the modes of the rules at the end. -/
abbrev CallFollows (m : QueryModule) (calls : CallModes) (callee : CalleeMode) (key : FunctionKey) : Prop :=
  callee.Follows (Declarations.Ruled calls m.functions) (∀ d ∈ m.functions, d.ruled calls ≠ none) calls key

theorem IsModing.declared (h : m.IsModing calls) :
    calls.Declared (Declarations.Ruled calls m.functions) := by
  intro D hD key
  rw [hD.any, declared_of_map h m.functions rfl]

/-- All declared functions, one after the other. -/
theorem analyseDeclared_follows {callee : CalleeMode} (h : ∀ key, m.CallFollows calls callee key)
    (keys : List FunctionKey) {D : Declarations} (hD : Declarations.Ruled calls m.functions D) :
    (∀ {E}, (analyseDeclared callee keys).run D = (.ok (), E) → Declarations.Ruled calls m.functions E) ∧
      ((∀ d ∈ m.functions, d.ruled calls ≠ none) → (∀ key ∈ keys, calls key ≠ none) →
        ∃ E, (analyseDeclared callee keys).run D = (.ok (), E)) := by
  induction keys generalizing D with
  | nil => exact ⟨fun hrun => by cases hrun; exact hD, fun _ _ => ⟨D, rfl⟩⟩
  | cons key keys ih =>
    have hrun := analyseDeclared_cons_run callee key keys D
    refine ⟨fun {E} hE => ?_, fun hT hkeys => ?_⟩
    · rw [hrun] at hE
      rcases hx : (callee key).run D with ⟨e | mode, F⟩
      · rw [hx] at hE
        cases hE
      · rw [hx] at hE
        exact (ih ((h key).sound hD hx).1).1 hE
    · obtain ⟨hkey, hkeys⟩ := List.forall_mem_cons.mp hkeys
      obtain ⟨mode, F, hx⟩ := (h key).total hT hD hkey
      rw [hrun, hx]
      exact (ih ((h key).sound hD hx).1).2 hT hkeys

section
variable (hm : m.Fresh) (hdistinct : (m.functions.map FunctionDeclaration.key).Nodup)
  (hcalls : m.IsModing calls)
include hm hdistinct hcalls

/-- A function that is not being analysed, once the modes of what it calls are found as the rules have
them. -/
theorem declaredMode_follows_of_calls {level : Nat} {inProgress : List FunctionKey} {key : FunctionKey}
    (hkey : key ∉ inProgress)
    (h : ∀ g, m.Calls key g → m.CallFollows calls (declaredMode level (key :: inProgress)) g) :
    m.CallFollows calls (declaredMode (level + 1) inProgress) key := by
  have hbody (d₀ : FunctionDeclaration) (hd₀ : d₀ ∈ m.functions) (hkey : d₀.key = key) :=
    Expression.follows hcalls.declared d₀.body [parameterScope d₀.parameters]
      ((hm.2 d₀ hd₀).and (everywhere_call.mpr fun g hg => h g ⟨d₀, hd₀, hkey, hg⟩))
  simp only [lookupMode_parameters] at hbody
  have hrun (D : Declarations) : (declaredMode (level + 1) inProgress key).run D = _ :=
    (declaredMode_run_succ level inProgress key D).trans (if_neg (by simpa using hkey))
  have hmode {d₀ d : FunctionDeclaration} (hd₀ : m.declaration? key = some d₀)
      (hruled : d₀.ruled calls = some d) : calls key = some d.body.slot.getD := by
    rw [hcalls key, hd₀, Option.map_some, FunctionDeclaration.ruleMode, hruled]
    rfl
  -- A function that has its modes already is not analysed again.
  have hdone {D : Declarations} (hD : Declarations.Ruled calls m.functions D)
      {d₀ d : FunctionDeclaration} (hd : D.find? (·.key == key) = some d)
      (hruled : d₀.ruled calls = some d) :
      (declaredMode (level + 1) inProgress key).run D = (.ok d.body.slot.getD, D) := by
    obtain ⟨body, hb, rfl⟩ := FunctionDeclaration.ruled_eq_some.mp hruled
    rw [hrun, hd]
    simp only [Expression.analyse_computed (Expression.ruled_computed hb)]
    obtain rfl : _ = key := by simpa using List.find?_some hd
    exact congrArg _ (setBody_same (List.mem_of_find?_eq_some hd) (hD.keys ▸ hdistinct))
  refine ⟨fun {D mode E} hD hx => ?_, fun hT {D} hD hne => ?_⟩
  · rcases hD.find key with ⟨-, hd⟩ | ⟨d₀, d, hd₀, hd, rfl | hruled⟩
    · rw [hrun, hd] at hx
      cases hx
    · obtain ⟨hmem, rfl⟩ := mem_of_declaration? hd₀
      rcases hy : (d.body.analyse (declaredMode level (d.key :: inProgress))
        [parameterScope d.parameters]).run D with ⟨⟨t, e | mode'⟩, F⟩
      all_goals
        rw [hrun, hd] at hx
        simp only [hy] at hx
        cases hx
      obtain ⟨hF, s, hs, rfl, rfl⟩ := (hbody d hmem rfl).sound hD hy
      have hruled := FunctionDeclaration.ruled_eq_some.mpr ⟨s, hs, rfl⟩
      exact ⟨hF.setBody hdistinct hmem hruled, hmode hd₀ hruled⟩
    · rw [hdone hD hd hruled] at hx
      cases hx
      exact ⟨hD, hmode hd₀ hruled⟩
  · rcases hD.find key with ⟨hd₀, -⟩ | ⟨d₀, d, hd₀, hd, rfl | hruled⟩
    · exact absurd (by rw [hcalls key, declaration?, hd₀]; rfl) hne
    · obtain ⟨hmem, rfl⟩ := mem_of_declaration? hd₀
      obtain ⟨d', hruled⟩ := Option.ne_none_iff_exists'.mp (hT d hmem)
      obtain ⟨body, hb, -⟩ := FunctionDeclaration.ruled_eq_some.mp hruled
      obtain ⟨t, mode, E, hy⟩ := (hbody d hmem rfl).total hT hD hb
      exact ⟨mode, setBody E d.key t, by rw [hrun, hd]; simp only [hy]⟩
    · exact ⟨_, D, hdone hD hd hruled⟩

/-- **A function's mode is found as the rules have it**, whatever is being analysed already: in an acyclic
module that does not include the function itself. -/
theorem declaredMode_follows (hacyclic : m.Acyclic) (level : Nat) (inProgress : List FunctionKey)
    (key : FunctionKey) (hlevel : m.functions.length < level + inProgress.length)
    (hnodup : inProgress.Nodup) (hreach : ∀ f ∈ inProgress, Relation.TransGen m.Calls f key) :
    m.CallFollows calls (declaredMode level inProgress) key := by
  have hkey : key ∉ inProgress := fun h => hacyclic key (hreach key h)
  induction level generalizing inProgress key with
  | zero =>
    have hdeclared : inProgress ⊆ m.functions.map FunctionDeclaration.key := fun f hf => by
      obtain ⟨g, hcall, -⟩ := Relation.TransGen.head'_iff.mp (hreach f hf)
      exact hcall.declared
    have hlength := (List.subperm_of_subset hnodup hdeclared).length_le
    rw [List.length_map] at hlength
    omega
  | succ level ih =>
    refine declaredMode_follows_of_calls hm hdistinct hcalls hkey fun g hg => ?_
    have hreach' : ∀ f ∈ key :: inProgress, Relation.TransGen m.Calls f g :=
      List.forall_mem_cons.mpr ⟨.single hg, fun f hf => (hreach f hf).tail hg⟩
    exact ih (key :: inProgress) g (by rw [List.length_cons]; omega) (hnodup.cons hkey) hreach'
      fun h => hacyclic g (hreach' g h)

end
end QueryModule

/-! ## Modules -/

/-- The functions of a module with their modes: one by one, if the rules have modes for all of them. -/
theorem mapM_ruled_eq_some {calls : CallModes} {D D' : Declarations} :
    D.mapM (·.ruled calls) = some D' ↔ List.Forall₂ (fun d d' => d.ruled calls = some d') D D' := by
  induction D generalizing D' with
  | nil => simp [List.mapM_nil, eq_comm]
  | cons d D ih =>
    simp only [List.mapM_cons, Option.bind_eq_bind, Option.bind_eq_some_iff, Option.pure_def,
      Option.some.injEq, List.forall₂_cons_left_iff, ih]
    constructor
    · rintro ⟨d', hd, D', hD, rfl⟩
      exact ⟨d', D', hd, hD, rfl⟩
    · rintro ⟨d', D', hd, hD, rfl⟩
      exact ⟨d', hd, D', hD, rfl⟩

/-- The order of functions does not matter for the modes that the rules give them. -/
theorem mapM_ruled_perm {calls : CallModes} {D E D' : Declarations} (h : E.Perm D)
    (hD : D.mapM (·.ruled calls) = some D') : ∃ E', E'.Perm D' ∧ E.mapM (·.ruled calls) = some E' := by
  obtain ⟨E', hE, hperm⟩ := List.perm_comp_forall₂ h (mapM_ruled_eq_some.mp hD)
  exact ⟨E', hperm, mapM_ruled_eq_some.mpr hE⟩

theorem checkDeclarations_eq_ok {seen : List FunctionKey} {D : Declarations}
    (hbuiltin : ∀ d ∈ D, Builtin.find? d.name d.arity = none)
    (hdistinct : (D.map FunctionDeclaration.key).Nodup)
    (hseen : ∀ key ∈ seen, key ∉ D.map FunctionDeclaration.key) : checkDeclarations seen D = .ok () := by
  induction D generalizing seen with
  | nil => rfl
  | cons d D ih =>
    rw [List.map_cons] at hdistinct hseen
    obtain ⟨hd, hdistinct⟩ := List.nodup_cons.mp hdistinct
    have hnew : ¬ seen.contains d.key = true := fun h =>
      hseen d.key (by simpa using h) List.mem_cons_self
    rw [checkDeclarations, if_neg (by rw [hbuiltin d List.mem_cons_self]; exact Bool.false_ne_true), if_neg hnew]
    refine ih (fun e he => hbuiltin e (List.mem_cons_of_mem _ he)) hdistinct ?_
    exact List.forall_mem_cons.mpr ⟨hd, fun key hkey h => hseen key hkey (List.mem_cons_of_mem _ h)⟩

namespace QueryModule

variable {m a : QueryModule} {calls : CallModes}

theorem ruled_eq_some : m.ruled calls = some a ↔
    m.functions.mapM (·.ruled calls) = some a.functions ∧
      m.body.ruled calls (fun _ => none) = some a.body := by
  rw [ruled]
  simp only [Option.bind_eq_bind, Option.bind_eq_some_iff, Option.pure_def, Option.some.injEq]
  constructor
  · rintro ⟨D, hD, body, hbody, rfl⟩
    exact ⟨hD, hbody⟩
  · rintro ⟨hD, hbody⟩
    exact ⟨a.functions, hD, a.body, hbody, rfl⟩

/-- Functions of which none is left without modes have those of the rules. -/
theorem mapM_ruled_of_complete (hm : m.Fresh) {D : Declarations}
    (hD : Declarations.Ruled calls m.functions D) (hcomplete : ∀ d ∈ D, IsComplete d.body) :
    m.functions.mapM (·.ruled calls) = some D := by
  refine mapM_ruled_eq_some.mpr ?_
  have hfresh := (List.forall₂_and_left (p := (· ∈ m.functions)) m.functions D).mpr ⟨fun _ => id, hD⟩
  refine forall₂_of_mem hfresh.flip (fun d hd d₀ ⟨hd₀, h⟩ => ?_) |>.flip
  rcases h with rfl | h
  · obtain ⟨mode, hmode, -⟩ := hcomplete d hd _ (List.mem_singleton.mpr rfl) _ .refl
    change d.body.slot.value = _ at hmode
    rw [(hm.2 d hd₀).slot] at hmode
    cases hmode
  · exact h

/-- **The pass over an acyclic module is the rules**: it succeeds where they give every node a mode, and
with their modes. -/
theorem analyse_eq_ok_iff (hm : m.Fresh) (hacyclic : m.Acyclic) (hcalls : m.IsModing calls) :
    m.analyse = (a, .ok ()) ↔ checkDeclarations [] m.functions = .ok () ∧ m.ruled calls = some a := by
  have hcallee (hcheck : checkDeclarations [] m.functions = .ok ()) :
      ∀ key, m.CallFollows calls m.callees key := fun key =>
    declaredMode_follows hm (distinct_of_checkDeclarations hcheck).1 hcalls hacyclic _ [] key
      (by simp) List.nodup_nil nofun
  have hbody (hcheck : checkDeclarations [] m.functions = .ok ()) :=
    Expression.follows hcalls.declared m.body []
      (hm.1.and (everywhere_call.mpr fun key _ => hcallee hcheck key))
  have hsound {a : QueryModule} (hrun : m.analyse = (a, .ok ())) :
      checkDeclarations [] m.functions = .ok () ∧ m.ruled calls = some a := by
    have hcomplete := analyse_complete hm.settled (congrArg Prod.snd hrun)
    rw [hrun] at hcomplete
    obtain ⟨hcheck, D, hx, mode, hy⟩ := analyse_eq_ok.mp hrun
    have hD := (analyseDeclared_follows (hcallee hcheck) _ (.refl calls m.functions)).1 hx
    obtain ⟨hE, s, hs, rfl, -⟩ := (hbody hcheck).sound hD hy
    exact ⟨hcheck, ruled_eq_some.mpr ⟨mapM_ruled_of_complete hm hE hcomplete.2, hs⟩⟩
  refine ⟨hsound, fun ⟨hcheck, hruled⟩ => ?_⟩
  obtain ⟨hfunctions, hruledBody⟩ := ruled_eq_some.mp hruled
  have htotal : ∀ d ∈ m.functions, d.ruled calls ≠ none := by
    refine ((List.forall₂_and_left (R := fun d d' => d.ruled calls = some d') _ a.functions).mp ?_).1
    exact (mapM_ruled_eq_some.mp hfunctions).imp fun d d' hd => ⟨by rw [hd]; exact nofun, hd⟩
  have hkeys : ∀ key ∈ m.functions.map (·.key), calls key ≠ none := List.forall_mem_map.mpr fun d hd =>
    (declared_of_map hcalls _ rfl d.key).mp (List.any_eq_true.mpr ⟨d, hd, beq_self_eq_true _⟩)
  obtain ⟨D, hx⟩ :=
    (analyseDeclared_follows (hcallee hcheck) _ (.refl calls m.functions)).2 htotal hkeys
  have hD := (analyseDeclared_follows (hcallee hcheck) _ (.refl calls m.functions)).1 hx
  obtain ⟨t, mode, E, hy⟩ := (hbody hcheck).total htotal hD hruledBody
  have hrun : m.analyse = (⟨E, t⟩, .ok ()) := analyse_eq_ok.mpr ⟨hcheck, D, hx, mode, hy⟩
  obtain rfl := Option.some.inj (hruled.symm.trans (hsound hrun).2)
  exact hrun

/-- The modes of the bodies in a module that has those of the rules. -/
theorem callModes_of_ruled (h : m.ruled calls = some a) (key : FunctionKey) :
    a.callModes key = (m.declaration? key).map (·.ruleMode calls) := by
  have hfind := find?_forall₂ (p := (·.key == key)) (q := (·.key == key))
    (mapM_ruled_eq_some.mp (ruled_eq_some.mp h).1)
    fun d d' hd => by rw [FunctionDeclaration.ruled_key hd]
  refine (Option.Rel.map_eq hfind fun d d' hd => ?_).symm
  rw [FunctionDeclaration.ruleMode, hd]
  rfl

/-- Modules with the same functions, in any order, have the same graph of calls. -/
theorem calls_of_perm {functions : Declarations} (h : functions.Perm m.functions) :
    (QueryModule.mk functions m.body).Calls = m.Calls := by
  funext f g
  simp only [Calls, h.mem_iff]

theorem declaration?_eq_some (hdistinct : (m.functions.map FunctionDeclaration.key).Nodup)
    {key : FunctionKey} {d : FunctionDeclaration} :
    m.declaration? key = some d ↔ d ∈ m.functions ∧ d.key = key := by
  refine ⟨mem_of_declaration?, fun ⟨hd, hkey⟩ => ?_⟩
  cases hfound : m.declaration? key with
  | none => exact absurd (List.find?_eq_none.mp hfound d hd) (by simpa using hkey)
  | some d' =>
    obtain ⟨hd', hkey'⟩ := mem_of_declaration? hfound
    rw [List.inj_on_of_nodup_map hdistinct hd' hd (hkey'.trans hkey.symm)]

theorem declaration?_of_perm {functions : Declarations} (h : functions.Perm m.functions)
    (hdistinct : (m.functions.map FunctionDeclaration.key).Nodup) (key : FunctionKey) :
    (QueryModule.mk functions m.body).declaration? key = m.declaration? key := by
  ext d
  rw [declaration?_eq_some hdistinct, declaration?_eq_some ((h.map _).nodup_iff.mpr hdistinct), h.mem_iff]

/-- **Modes follow the compositional rules.** A module that passes and in which no function reaches
itself has the modes of the rules at every node: they allow no others, where the mode of a call is the one
that the called body has in the analysed module itself. So the module passes with the same modes in every
order of its declarations. -/
theorem analyse_follows_rules (hm : m.Fresh) (hacyclic : m.Acyclic) (hok : m.analyse.2 = .ok ()) :
    (∀ a : QueryModule, a.FollowsRules m ↔ a = m.analyse.1) ∧
      ∀ functions : Declarations, functions.Perm m.functions →
        ∃ functions' : Declarations, functions'.Perm m.analyse.1.functions ∧
          (QueryModule.mk functions m.body).analyse = (⟨functions', m.analyse.1.body⟩, .ok ()) := by
  obtain ⟨calls, hcalls⟩ := exists_moding hm hacyclic
  obtain ⟨hcheck, hruled⟩ := (analyse_eq_ok_iff hm hacyclic hcalls).mp (Prod.ext rfl hok)
  refine ⟨fun a => ⟨fun ha => ?_, ?_⟩, fun functions hperm => ?_⟩
  · have hmoding : m.IsModing a.callModes := callModes_of_ruled ha
    rw [FollowsRules, hmoding.unique hm hacyclic hcalls] at ha
    exact Option.some.inj (ha.symm.trans hruled)
  · rintro rfl
    rw [FollowsRules, show m.analyse.1.callModes = calls from
      funext fun key => (callModes_of_ruled hruled key).trans (hcalls key).symm, hruled]
  · obtain ⟨hfunctions, hbody⟩ := ruled_eq_some.mp hruled
    obtain ⟨functions', hperm', hfunctions'⟩ := mapM_ruled_perm hperm hfunctions
    obtain ⟨hdistinct, -, hbuiltins⟩ := distinct_of_checkDeclarations hcheck
    have hcalls' : IsModing ⟨functions, m.body⟩ calls := fun key => by
      rw [declaration?_of_perm hperm hdistinct, hcalls key]
    refine ⟨functions', hperm', (analyse_eq_ok_iff ?_ ?_ hcalls').mpr ⟨?_, ?_⟩⟩
    · exact ⟨hm.1, fun d hd => hm.2 d (hperm.mem_iff.mp hd)⟩
    · rw [Acyclic, calls_of_perm hperm]
      exact hacyclic
    · exact checkDeclarations_eq_ok (fun d hd => hbuiltins d (hperm.mem_iff.mp hd))
        ((hperm.map _).nodup_iff.mpr hdistinct) nofun
    · exact ruled_eq_some.mpr ⟨hfunctions', hbody⟩

/-- A function over a distributed stream that calls one declared after it. -/
theorem analyse_follows_rules_forward :
    let node (kind : ExpressionKind) : Expression := .mk kind .unknown .empty
    let call (name : String) (given : List Expression) : Expression :=
      node (.functionCall name (given.map some))
    let x : Expression := node (.varRef "x")
    let spread : FunctionDeclaration := ⟨"spread", [⟨"x", .unconstrained⟩], .unconstrained,
      call "parallelize" [x, node (.literal (.integer 2))], .unknown⟩
    let grouped : FunctionDeclaration := ⟨"grouped", [⟨"x", .unconstrained⟩], .unconstrained,
      node (.flwor
        [.mk (.forEach "y" none false (call "spread" [x])) .unknown .empty,
          .mk (.letBe "x" (call "spread" [x])) .unknown .empty,
          .mk (.groupBy [⟨"y", none⟩]) .unknown .empty]
        (call "count" [x])), .unknown⟩
    let m : QueryModule := ⟨[grouped, spread], call "grouped" [node (.literal (.integer 1))]⟩
    m.Fresh ∧ m.Acyclic ∧ m.analyse.2 = .ok () ∧ m.analyse.1.body.slot.value = some .rows ∧
      (∀ a : QueryModule, a.FollowsRules m ↔ a = m.analyse.1) ∧
      ∃ functions' : Declarations, functions'.Perm m.analyse.1.functions ∧
        (QueryModule.mk [spread, grouped] m.body).analyse =
          (⟨functions', m.analyse.1.body⟩, .ok ()) := by
  intro node call x spread grouped m
  have hx {C : FunctionKey → Prop} : CallsOnly C x := .leaf rfl rfl _
  have hcall {C : FunctionKey → Prop} {name : String} {e : Expression} (he : CallsOnly C e)
      (hc : C (name, 1)) : CallsOnly C (call name [e]) := by
    refine .expression (.cons he .nil) rfl (fun key hkey => ?_) _
    rw [ExpressionKind.call?] at hkey
    split at hkey
    · cases hkey
    · cases hkey
      exact hc
  have hspread : CallsOnly (fun _ => False) spread.body :=
    .expression (.cons hx (.cons (.leaf rfl rfl _) .nil)) rfl (fun _ h => by cases h) _
  have hgrouped : CallsOnly (· = ("spread", 1)) grouped.body := by
    have hsource : CallsOnly (· = ("spread", 1)) (call "spread" [x]) := hcall hx rfl
    have hresult : CallsOnly (· = ("spread", 1)) (call "count" [x]) :=
      .expression (.cons hx .nil) rfl (fun _ h => by cases h) _
    exact .expression (.pair (.cons (.clause hsource rfl _) (.cons (.clause hsource rfl _)
      (.cons (.clause (.nil (τ := Expression)) rfl _) .nil))) hresult) rfl (fun _ h => by cases h) _
  have hbody : CallsOnly (fun _ => True) m.body := hcall (.leaf rfl rfl _) trivial
  have hfresh : m.Fresh :=
    ⟨hbody.fresh, List.forall_mem_cons.mpr ⟨hgrouped.fresh, List.forall_mem_singleton.mpr hspread.fresh⟩⟩
  have hacyclic : m.Acyclic := by
    refine acyclic_of_rank (fun key => if key = ("grouped", 1) then 1 else 0) fun f g hcalls => ?_
    obtain ⟨d, hd, hkey, hg⟩ := hcalls
    rcases List.mem_cons.mp hd with rfl | hd
    · obtain rfl := hgrouped.mem hg
      obtain rfl : ("grouped", 1) = f := hkey
      decide
    · obtain rfl := List.mem_singleton.mp hd
      exact (hspread.mem hg).elim
  have hok : m.analyse.2 = .ok () := by rfl
  obtain ⟨hrules, hperm⟩ := analyse_follows_rules hfresh hacyclic hok
  exact ⟨hfresh, hacyclic, hok, by rfl, hrules, hperm _ (.swap _ _ _)⟩

end QueryModule
end HybridQuery
