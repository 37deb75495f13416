import HybridQuery.Proofs.Completeness.Passes

/-!
# Analysing a module

What is kept by the passes over expressions is kept while the bodies of declared functions are analysed
on first use, and so by the pass over a module.

* `declaredMode_settles`: finding the mode of a declared function, at any level of recursion.
* `QueryModule.moments_settled`, `QueryModule.analyse_complete`: the pass over a module.
-/

namespace HybridQuery

/-! ## Declared functions -/

namespace Declarations

variable {D : Declarations} {key : FunctionKey} {body : Expression}

theorem Settled.setBody (hD : Settled D) (hbody : IsSettled body) : Settled (setBody D key body) := by
  refine List.forall_mem_map.mpr fun d hd => ?_
  split
  · exact hbody
  · exact hD d hd

theorem advances_setBody (D : Declarations) (key : FunctionKey) (hbody : IsComplete body) :
    Advances D (HybridQuery.setBody D key body) := by
  refine List.forall₂_map_right_iff.mpr (List.forall₂_same.mpr fun d _ => ?_)
  split
  · exact ⟨rfl, fun _ => hbody⟩
  · exact ⟨rfl, id⟩

/-- What functions of a key are complete stays so. -/
theorem Advances.complete {E : Declarations} (h : Advances D E) {P : FunctionKey → Prop}
    (hD : ∀ d ∈ D, P d.key → IsComplete d.body) : ∀ e ∈ E, P e.key → IsComplete e.body := by
  induction h with
  | nil => exact nofun
  | cons hd _ ih =>
    obtain ⟨hhead, htail⟩ := List.forall_mem_cons.mp hD
    exact List.forall_mem_cons.mpr ⟨fun hkey => hd.2 (hhead (hd.1 ▸ hkey)), ih htail⟩

theorem Advances.keys {E : Declarations} (h : Advances D E) :
    E.map FunctionDeclaration.key = D.map FunctionDeclaration.key := by
  induction h with
  | nil => rfl
  | cons hd _ ih => rw [List.map_cons, List.map_cons, hd.1, ih]

end Declarations

/-- The pass over the body of a declared function. -/
theorem FunctionDeclaration.body_settles {callee : CalleeMode} {shown : CalleeMoments}
    (h : callee.Settles shown) {D : Declarations} (hD : Declarations.Settled D)
    {d : FunctionDeclaration} (hd : d ∈ D) :
    Pass.SettlesFrom d.body (· ≠ .unset) (d.body.analyse callee [parameterScope d.parameters])
      (d.body.moments callee shown [parameterScope d.parameters]) D :=
  (Expression.settles h d.body (Scopes.Proper.empty.parameters d.parameters)).run (hD d hd) D hD

/-- A declared function whose mode is found is complete, unless it is being analysed already. -/
theorem declaredMode_complete {level : Nat} {inProgress : List FunctionKey} {key : FunctionKey}
    (h : (declaredMode level (key :: inProgress)).Settles (declaredMoments level (key :: inProgress)))
    {D : Declarations} (hD : Declarations.Settled D) {mode : Mode}
    (hmode : ((declaredMode (level + 1) inProgress key).run D).1 = .ok mode) :
    mode ≠ .unset ∧ Declarations.Advances D ((declaredMode (level + 1) inProgress key).run D).2 ∧
      (inProgress.contains key = false →
        ∀ e ∈ ((declaredMode (level + 1) inProgress key).run D).2, e.key = key → IsComplete e.body) := by
  rw [declaredMode_run_succ] at hmode ⊢
  split at hmode
  · rename_i hkey
    cases hmode
    rw [if_pos hkey]
    exact ⟨Mode.host_ne_unset, .refl D, fun h => by rw [hkey] at h; cases h⟩
  · rename_i hkey
    rw [if_neg hkey]
    split at hmode
    · cases hmode
    · rename_i d hd
      have hbody := d.body_settles h hD (List.mem_of_find?_eq_some hd)
      obtain ⟨hcomplete, hset, hadv⟩ := hbody.complete mode hmode
      refine ⟨hset, hadv.trans (Declarations.advances_setBody _ key hcomplete), fun _ => ?_⟩
      refine List.forall_mem_map.mpr fun e _ hkey => ?_
      split at hkey
      · rename_i h
        rw [if_pos h]
        exact hcomplete
      · rename_i h
        exact absurd (beq_iff_eq.mpr hkey) h

theorem declaredMode_settles (level : Nat) (inProgress : List FunctionKey) :
    (declaredMode level inProgress).Settles (declaredMoments level inProgress) := by
  induction level generalizing inProgress with
  | zero =>
    refine ⟨fun _ _ _ => List.forall_mem_nil _, fun _ _ hD => hD, fun _ D _ mode hmode => ?_⟩
    cases hmode
    exact ⟨Mode.host_ne_unset, .refl D⟩
  | succ level ih =>
    refine ⟨fun key D hD => ?_, fun key D hD => ?_, fun key D hD mode hmode => ?_⟩
    · rw [declaredMoments]
      split
      · exact List.forall_mem_nil _
      · split
        · exact List.forall_mem_nil _
        · rename_i d hd
          have hbody := d.body_settles (ih (key :: inProgress)) hD (List.mem_of_find?_eq_some hd)
          exact List.forall_mem_map.mpr fun s hs =>
            (hbody.moments s hs).2.setBody (hbody.moments s hs).1.settled
    · rw [declaredMode_run_succ]
      split
      · exact hD
      · split
        · exact hD
        · rename_i d hd
          have hbody := d.body_settles (ih (key :: inProgress)) hD (List.mem_of_find?_eq_some hd)
          exact hbody.settled.setBody hbody.kept.settled
    · obtain ⟨hset, hadv, -⟩ := declaredMode_complete (ih (key :: inProgress)) hD hmode
      exact ⟨hset, hadv⟩

/-- The functions that are not being analysed and have been analysed are complete, and stay so. -/
theorem analyseDeclared_settles (level : Nat) (keys : List FunctionKey) {D : Declarations}
    (hD : Declarations.Settled D) :
    let x := (analyseDeclared (declaredMode (level + 1) []) keys).run D
    (∀ E ∈ analyseDeclaredMoments (declaredMode (level + 1) []) (declaredMoments (level + 1) []) keys D,
      Declarations.Settled E) ∧
    Declarations.Settled x.2 ∧
    (x.1 = .ok () → Declarations.Advances D x.2 ∧ ∀ e ∈ x.2, e.key ∈ keys → IsComplete e.body) := by
  have hcallee := declaredMode_settles (level + 1) []
  induction keys generalizing D with
  | nil => exact ⟨nofun, hD, fun _ => ⟨.refl D, fun _ _ => nofun⟩⟩
  | cons key keys ih =>
    have hm := hcallee.moments key D hD
    have hs := hcallee.settled key D hD
    rw [analyseDeclared_cons_run, analyseDeclaredMoments]
    rcases hx : (declaredMode (level + 1) [] key).run D with ⟨e | mode, E⟩
    · rw [hx] at hs
      exact ⟨List.forall_mem_append.mpr ⟨hm, nofun⟩, hs, nofun⟩
    · obtain ⟨-, hadv, hkey⟩ :=
        declaredMode_complete (declaredMode_settles level [key]) hD (congrArg Prod.fst hx)
      rw [hx] at hs hadv hkey
      obtain ⟨hm', hs', hc'⟩ := ih hs
      refine ⟨List.forall_mem_append.mpr ⟨hm, hm'⟩, hs', fun hok => ?_⟩
      obtain ⟨hadv', hkeys⟩ := hc' hok
      refine ⟨hadv.trans hadv', fun e he hmem => ?_⟩
      rcases List.mem_cons.mp hmem with hhead | htail
      · exact hadv'.complete (P := (· = key)) (hkey rfl) e he hhead
      · exact hkeys e he htail

/-! ## Modules -/

theorem EngineResult.exists_ok_of_map {β γ : Type} {r : EngineResult β} {f : β → γ} {c : γ}
    (h : r.map f = .ok c) : ∃ b, r = .ok b := by
  cases r with
  | error e => cases h
  | ok b => exact ⟨b, rfl⟩

namespace QueryModule

variable {m : QueryModule}

/-- The modes that are written, and the module at the end. -/
theorem writes_settled (h : m.Settled) :
    (∀ s ∈ m.writes, s.Settled) ∧ m.analyse.1.Settled ∧ (m.analyse.2 = .ok () → m.analyse.1.Complete) := by
  rw [writes, analyse]
  cases hcheck : checkDeclarations [] m.functions with
  | error e => exact ⟨nofun, h, nofun⟩
  | ok _ =>
    obtain ⟨hm, hs, hc⟩ := analyseDeclared_settles m.functions.length (m.functions.map (·.key)) h.2
    dsimp only
    rcases hx : (analyseDeclared (declaredMode (m.functions.length + 1) [])
      (m.functions.map (·.key))).run m.functions with ⟨e | _, E⟩
    all_goals simp only [hx] at hs hc ⊢
    · refine ⟨?_, ⟨h.1, hs⟩, nofun⟩
      rw [List.append_nil]
      exact List.forall_mem_map.mpr fun D hD => ⟨h.1, hm D hD⟩
    · obtain ⟨hadv, hkeys⟩ := hc trivial
      have hbody := (Expression.settles (declaredMode_settles (m.functions.length + 1) []) m.body
        Scopes.Proper.empty).run h.1 E hs
      refine ⟨List.forall_mem_append.mpr ⟨?_, ?_⟩, ⟨hbody.kept.settled, hbody.settled⟩, fun hok => ?_⟩
      · exact List.forall_mem_map.mpr fun D hD => ⟨h.1, hm D hD⟩
      · exact List.forall_mem_map.mpr fun s hs =>
          ⟨(hbody.moments s hs).1.settled, (hbody.moments s hs).2⟩
      · obtain ⟨mode, hr⟩ := EngineResult.exists_ok_of_map (f := fun _ => ()) hok
        obtain ⟨hcomplete, -, hadv'⟩ := hbody.complete mode hr
        refine ⟨hcomplete, fun d hd => hadv'.complete (P := (· ∈ m.functions.map (·.key))) hkeys d hd ?_⟩
        change d.key ∈ m.functions.map FunctionDeclaration.key
        rw [← hadv.keys, ← hadv'.keys]
        exact List.mem_map.mpr ⟨d, hd, rfl⟩

/-- At every moment of the pass over a module, what has a mode has only nodes with modes below it. -/
theorem moments_settled (h : m.Settled) : ∀ s ∈ m.moments, s.Settled := by
  obtain ⟨hwrites, hend, -⟩ := writes_settled h
  exact List.forall_mem_cons.mpr
    ⟨h, List.forall_mem_append.mpr ⟨hwrites, List.forall_mem_singleton.mpr hend⟩⟩

/-- A module that passes has a mode at every node. -/
theorem analyse_complete (h : m.Settled) (hok : m.analyse.2 = .ok ()) : m.analyse.1.Complete :=
  (writes_settled h).2.2 hok

end QueryModule

end HybridQuery
