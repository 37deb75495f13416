import HybridQuery.Proofs.Modes.Keeping
import HybridQuery.Proofs.Repeating.Passes
import HybridQuery.Proofs.Spreading.Modules
import HybridQuery.Session.Basic

/-!
# Analysing a module again

A module that was analysed, explained or evaluated before, by whichever session and however it ended, is
analysed as it was the first time: it passes again, or it is rejected with the same error, and nothing is
written to it any more.

* `Declarations.Later`: what a run of analysis does to the declared functions.
* `declaredMode_repeats`: calls of declared functions fail again; by induction on the levels of recursion.
* `QueryModule.analyse_analyse`: analysis is idempotent.
* `QueryModule.analysis_repeats`: a module after any history of uses.
-/

namespace HybridQuery

/-! ## Declared functions -/

/-- Declared functions at a later time: the same but for their bodies, and those that had been analysed
are as they were. -/
structure Declarations.Later (D E : Declarations) : Prop where
  heads : List.Forall₂ FunctionDeclaration.SameHead D E
  computed : ∀ key d, D.find? (·.key == key) = some d → d.body.slot.isComputed = true →
    E.find? (·.key == key) = some d

theorem find?_setBody (D : Declarations) (key other : FunctionKey) (body : Expression) :
    (setBody D key body).find? (·.key == other) =
      (D.find? (·.key == other)).map fun d => if d.key == key then { d with body := body } else d := by
  rw [setBody, List.find?_map]
  congr 2
  funext d
  dsimp only [Function.comp_apply]
  split <;> rfl

namespace Declarations.Later

variable {D E F : Declarations} {key : FunctionKey} {d : FunctionDeclaration} {body : Expression}

theorem refl (D : Declarations) : Later D D := ⟨List.forall₂_same.mpr fun _ _ => rfl, fun _ _ h _ => h⟩

theorem trans (h : Later D E) (h' : Later E F) : Later D F where
  heads := forall₂_comp (fun _ _ _ hd he => hd.trans he) h.heads h'.heads
  computed key d hd hcomputed := h'.computed key d (h.computed key d hd hcomputed) hcomputed

theorem keys (h : Later D E) : E.map FunctionDeclaration.key = D.map FunctionDeclaration.key := by
  obtain ⟨heads, -⟩ := h
  induction heads with
  | nil => rfl
  | cons hd _ ih => rw [List.map_cons, List.map_cons, ih, hd.key]

theorem find? (h : Later D E) (hd : D.find? (·.key == key) = some d) :
    ∃ e, E.find? (·.key == key) = some e ∧ d.SameHead e := by
  obtain ⟨heads, -⟩ := h
  induction heads with
  | nil => cases hd
  | @cons d₀ e₀ _ _ he _ ih =>
    rw [List.find?_cons] at hd ⊢
    rw [he.key]
    split at hd
    · cases hd
      exact ⟨e₀, rfl, he⟩
    · exact ih hd

/-- The check of declarations does not look at bodies. -/
theorem checkDeclarations (h : Later D E) (seen : List FunctionKey) :
    checkDeclarations seen E = HybridQuery.checkDeclarations seen D := by
  obtain ⟨heads, -⟩ := h
  induction heads generalizing seen with
  | nil => rfl
  | cons hd _ ih =>
    rw [HybridQuery.checkDeclarations, HybridQuery.checkDeclarations, ih, hd]
    rfl

/-- A body is written back; one that had been analysed is written back as it was. -/
theorem setBody (h : Later D E) (hd : D.find? (·.key == key) = some d)
    (hbody : d.body.slot.isComputed = true → body = d.body) : Later D (setBody E key body) where
  heads := by
    refine List.forall₂_map_right_iff.mpr (h.heads.imp fun d e he => ?_)
    split
    · exact he.withBody body
    · exact he
  computed other d' hd' hcomputed := by
    rw [find?_setBody, h.computed other d' hd' hcomputed, Option.map_some]
    split
    · next hkey =>
      have hsame : d' = d := by
        obtain rfl : d'.key = other := by simpa using List.find?_some hd'
        rw [beq_iff_eq.mp hkey, hd] at hd'
        exact (Option.some.inj hd').symm
      subst hsame
      rw [hbody hcomputed]
    · rfl

end Declarations.Later

/-! ## Calls of declared functions -/

section
variable {D E : Declarations}

/-- What holds of every node, and what may be blamed on one. -/
theorem NodeRef.keepable_true : NodeRef.Keepable (fun _ => True) fun _ => True :=
  ⟨fun _ _ => trivial, fun _ _ => trivial, fun _ _ => trivial⟩

theorem EngineResult.failsOnly_true {α : Type} : ∀ r : EngineResult α,
    r.FailsOnly (EngineError.Raised fun _ => True)
  | .ok _ => .ok trivial
  | .error _ => .error (.inl trivial)

/-- The pass over an expression leaves the declared functions as they may be at a later time, if the calls
in it do. -/
theorem Expression.analyse_later {callee : CalleeMode}
    (h : callee.Keeps (Declarations.Later D) fun _ => True) (e : Expression) (scopes : List Scope) :
    D.Later ((e.analyse callee scopes).run D).2 :=
  (e.analyse_keeps NodeRef.keepable_true h scopes (fun _ _ _ _ => trivial) D (.refl D)).2

/-- The calls do. -/
theorem declaredMode_keepsLater (level : Nat) (inProgress : List FunctionKey) (D₀ : Declarations) :
    (declaredMode level inProgress).Keeps (Declarations.Later D₀) fun _ => True := by
  induction level generalizing inProgress D₀ with
  | zero => exact fun _ D hD => ⟨EngineResult.failsOnly_true _, hD⟩
  | succ level ih =>
    intro key D hD
    refine ⟨EngineResult.failsOnly_true _, ?_⟩
    rw [declaredMode_run_succ]
    split
    · exact hD
    · cases hd : D.find? (·.key == key) with
      | none => exact hD
      | some d =>
        have hbody := d.body.analyse_later (ih (key :: inProgress) D) [parameterScope d.parameters]
        refine hD.trans (hbody.setBody hd fun hcomputed => ?_)
        rw [Expression.analyse_computed hcomputed]

theorem declaredMode_later (level : Nat) (inProgress : List FunctionKey) (key : FunctionKey)
    (D : Declarations) : D.Later (((declaredMode level inProgress) key).run D).2 :=
  (declaredMode_keepsLater level inProgress D key D (.refl D)).2

/-- A call of a declared function that failed fails again. -/
theorem declaredMode_repeats (level : Nat) (inProgress : List FunctionKey) :
    (declaredMode level inProgress).Repeats inProgress := by
  induction level generalizing inProgress with
  | zero => exact ⟨fun _ _ => rfl, fun _ _ _ _ hx => by cases hx⟩
  | succ level ih =>
    refine ⟨fun key D => (declaredMode_later _ _ key D).keys, fun key D e F hx D' hD => ?_⟩
    rw [declaredMode_run_succ] at hx ⊢
    split at hx
    · cases hx
    · next hfree =>
      have hkey : key ∉ inProgress := by simpa using hfree
      rw [if_neg hfree]
      cases hd : D.find? (·.key == key) with
      | none =>
        rw [hd] at hx
        cases hx
        rw [hD.find? hkey, hd]
        rfl
      | some d =>
        rw [hd] at hx
        dsimp only at hx
        have hlater := d.body.analyse_later (declaredMode_keepsLater level (key :: inProgress) D)
          [parameterScope d.parameters]
        rcases hbody : (d.body.analyse (declaredMode level (key :: inProgress))
          [parameterScope d.parameters]).run D with ⟨⟨body, r⟩, E⟩
        rw [hbody] at hx hlater
        cases hx
        -- The function is found as it was, but for the body that was written back.
        obtain ⟨d', hd', hhead⟩ := hlater.find? hd
        have hfound : D'.find? (·.key == key) = some { d' with body := body } := by
          have hkey' : d'.key = key := by simpa using List.find?_some hd'
          rw [hD.find? hkey, find?_setBody, hd', Option.map_some, if_pos (by simpa using hkey')]
        have hagain := (Expression.repeats (ih (key :: inProgress)) d.body
          [parameterScope d.parameters]).fails hbody hD.of_setBody
        have hparameters : d'.parameters = d.parameters := by rw [hhead]
        rw [hfound]
        dsimp only
        rw [hparameters, hagain]
        exact Prod.ext rfl (hD.setBody hkey)

/-- A function whose call succeeded outside of every analysis has been analysed. -/
theorem declaredMode_finishes {level : Nat} {key : FunctionKey} {mode : Mode}
    (hx : (declaredMode (level + 1) [] key).run D = (.ok mode, E)) :
    ∃ d, E.find? (·.key == key) = some d ∧ d.body.slot.isComputed = true := by
  rw [declaredMode_run_succ, if_neg (by simp)] at hx
  cases hd : D.find? (·.key == key) with
  | none =>
    rw [hd] at hx
    cases hx
  | some d =>
    rw [hd] at hx
    dsimp only at hx
    have hlater := d.body.analyse_later (declaredMode_keepsLater level [key] D) [parameterScope d.parameters]
    rcases hbody : (d.body.analyse (declaredMode level [key]) [parameterScope d.parameters]).run D with
      ⟨⟨body, r⟩, F⟩
    rw [hbody] at hx hlater
    cases hx
    obtain ⟨d', hd', -⟩ := hlater.find? hd
    have hkey : d'.key = key := by simpa using List.find?_some hd'
    refine ⟨{ d' with body := body }, ?_, Expression.analyse_computes hbody⟩
    rw [find?_setBody, hd', Option.map_some, if_pos (by simpa using hkey)]

/-- A call of a function that has been analysed succeeds and changes nothing. -/
theorem declaredMode_finished {level : Nat} {key : FunctionKey} {d : FunctionDeclaration}
    (hdistinct : (D.map FunctionDeclaration.key).Nodup) (hd : D.find? (·.key == key) = some d)
    (hcomputed : d.body.slot.isComputed = true) :
    (declaredMode (level + 1) [] key).run D = (.ok d.body.slot.getD, D) := by
  obtain rfl : d.key = key := by simpa using List.find?_some hd
  rw [declaredMode_run_succ, if_neg (by simp), hd]
  simp only [Expression.analyse_computed hcomputed, setBody_same (List.mem_of_find?_eq_some hd) hdistinct]

variable {level : Nat} {keys : List FunctionKey}

theorem analyseDeclared_later (level : Nat) (keys : List FunctionKey) (D : Declarations) :
    D.Later ((analyseDeclared (declaredMode level []) keys).run D).2 := by
  induction keys generalizing D with
  | nil => exact .refl D
  | cons key keys ih =>
    have hkey := declaredMode_later level [] key D
    rw [analyseDeclared_cons_run]
    rcases hx : (declaredMode level [] key).run D with ⟨e | mode, E⟩
    all_goals rw [hx] at hkey
    · exact hkey
    · exact hkey.trans (ih E)

/-- The functions of a list that are past are past at every later time. -/
theorem analyseDeclared_succeeds (hdistinct : (D.map FunctionDeclaration.key).Nodup)
    (hx : (analyseDeclared (declaredMode (level + 1) []) keys).run D = (.ok (), E))
    {F : Declarations} (hF : E.Later F) :
    (analyseDeclared (declaredMode (level + 1) []) keys).run F = (.ok (), F) := by
  induction keys generalizing D with
  | nil => rfl
  | cons key keys ih =>
    rw [analyseDeclared_cons_run] at hx
    have hkey := declaredMode_later (level + 1) [] key D
    rcases hcall : (declaredMode (level + 1) [] key).run D with ⟨e | mode, D'⟩ <;>
      simp only [hcall] at hx hkey
    · cases hx
    · have hrest := analyseDeclared_later (level + 1) keys D'
      rw [hx] at hrest
      obtain ⟨d, hd, hcomputed⟩ := declaredMode_finishes hcall
      have hlater := hrest.trans hF
      have hdistinct' := hkey.keys ▸ hdistinct
      rw [analyseDeclared_cons_run, declaredMode_finished (hlater.keys ▸ hdistinct')
        (hlater.computed key d hd hcomputed) hcomputed]
      exact ih hdistinct' hx

/-- Where the functions of a list fail, those before the failing one are past. -/
theorem analyseDeclared_fails (hdistinct : (D.map FunctionDeclaration.key).Nodup) {e : EngineError}
    (hx : (analyseDeclared (declaredMode (level + 1) []) keys).run D = (.error e, E)) :
    (analyseDeclared (declaredMode (level + 1) []) keys).run E = (.error e, E) := by
  induction keys generalizing D with
  | nil => cases hx
  | cons key keys ih =>
    rw [analyseDeclared_cons_run] at hx
    have hkey := declaredMode_later (level + 1) [] key D
    rcases hcall : (declaredMode (level + 1) [] key).run D with ⟨e' | mode, D'⟩ <;>
      simp only [hcall] at hx hkey
    · cases hx
      rw [analyseDeclared_cons_run, (declaredMode_repeats (level + 1) []).fails hcall (.refl [] E)]
    · have hrest := analyseDeclared_later (level + 1) keys D'
      rw [hx] at hrest
      obtain ⟨d, hd, hcomputed⟩ := declaredMode_finishes hcall
      have hdistinct' := hkey.keys ▸ hdistinct
      rw [analyseDeclared_cons_run, declaredMode_finished (hrest.keys ▸ hdistinct')
        (hrest.computed key d hd hcomputed) hcomputed]
      exact ih hdistinct' hx

end

/-! ## Modules -/

namespace QueryModule

/-- A module whose functions are those of a later time goes through the same passes. -/
theorem analyse_of_later {m : QueryModule} (hcheck : checkDeclarations [] m.functions = .ok ())
    {D : Declarations} (hD : Declarations.Later m.functions D) (body : Expression) :
    (QueryModule.mk D body).analyse =
      (match (analyseDeclared m.callees (m.functions.map (·.key))).run D with
        | (.error e, E) => (⟨E, body⟩, .error e)
        | (.ok _, E) =>
          match (body.analyse m.callees []).run E with
          | ((body, r), F) => (⟨F, body⟩, r.map fun _ => ())) := by
  have hkeys : D.map (·.key) = m.functions.map (·.key) := hD.keys
  have hlength : D.length = m.functions.length := by simpa using congrArg List.length hkeys
  have hcallees : (QueryModule.mk D body).callees = m.callees := by simp only [callees, hlength]
  have hanalyse := analyse_of_check (m := ⟨D, body⟩) (hD.checkDeclarations [] ▸ hcheck)
  rw [hcallees, hkeys] at hanalyse
  exact hanalyse

/-- Analysis is idempotent: what it made of a module, it leaves as it is, and with the same outcome. -/
theorem analyse_analyse (m : QueryModule) : m.analyse.1.analyse = m.analyse := by
  cases hcheck : checkDeclarations [] m.functions with
  | error e =>
    have hm : m.analyse = (m, .error e) := by rw [analyse, hcheck]
    rw [hm]
    exact hm
  | ok _ =>
    have hdistinct := (distinct_of_checkDeclarations hcheck).1
    have hdeclared := analyseDeclared_later (m.functions.length + 1) (m.functions.map (·.key)) m.functions
    change Declarations.Later _ ((analyseDeclared m.callees _).run m.functions).2 at hdeclared
    rcases hx : (analyseDeclared m.callees (m.functions.map (·.key))).run m.functions with ⟨e | _, D⟩
    all_goals rw [hx] at hdeclared
    · have hm : m.analyse = (⟨D, m.body⟩, .error e) := by rw [analyse_of_check hcheck, hx]
      rw [hm, analyse_of_later hcheck hdeclared, show (analyseDeclared m.callees _).run D = _ from
        analyseDeclared_fails hdistinct hx]
    · have hbody := m.body.analyse_later (declaredMode_keepsLater (m.functions.length + 1) [] D) []
      change Declarations.Later _ ((m.body.analyse m.callees []).run D).2 at hbody
      have hrepeats := Expression.repeats (declaredMode_repeats (m.functions.length + 1) []) m.body []
      rcases hy : (m.body.analyse m.callees []).run D with ⟨⟨body, r⟩, E⟩
      rw [hy] at hbody
      have hm : m.analyse = (⟨E, body⟩, r.map fun _ => ()) := by
        rw [analyse_of_check hcheck, hx]
        dsimp only
        rw [hy]
      have hagain : (body.analyse m.callees []).run E = ((body, r), E) := by
        cases r with
        | error e => exact hrepeats.fails hy (.refl [] E)
        | ok mode => exact hrepeats.succeeds hy E
      rw [hm, analyse_of_later hcheck (hdeclared.trans hbody),
        show (analyseDeclared m.callees _).run E = _ from analyseDeclared_succeeds hdistinct hx hbody]
      dsimp only
      rw [hagain]

end QueryModule

/-! ## Uses of a module -/

/-- What may be done with a parsed module, by any session. -/
inductive ModuleUse where
  | analysed
  | explained (s : Session)
  | evaluated (s : Session) (files : Files)

/-- The module as a use leaves it. -/
def ModuleUse.leaves : ModuleUse → QueryModule → QueryModule
  | analysed, m => m.analyse.1
  | explained s, m => (s.explain m).2.1
  | evaluated s files, m => (s.evaluate files m).2.1

/-- The module as several uses leave it, one after the other. -/
def QueryModule.after (m : QueryModule) (uses : List ModuleUse) : QueryModule :=
  uses.foldl (fun m use => use.leaves m) m

/-- Every use analyses the module, and writes nothing else to it. -/
theorem ModuleUse.leaves_eq (use : ModuleUse) (m : QueryModule) : use.leaves m = m.analyse.1 := by
  cases use with
  | analysed => rfl
  | explained s =>
    change (ExplainPlan.ofModule m).1 = m.analyse.1
    rw [ExplainPlan.ofModule]
    rcases m.analyse with ⟨m', e | _⟩ <;> rfl
  | evaluated s files => rfl

namespace QueryModule

theorem after_analysed (m : QueryModule) (uses : List ModuleUse) :
    m.analyse.1.after uses = m.analyse.1 := by
  induction uses with
  | nil => rfl
  | cons use uses ih =>
    change (use.leaves m.analyse.1).after uses = m.analyse.1
    rw [use.leaves_eq, m.analyse_analyse, ih]

theorem after_eq (m : QueryModule) {uses : List ModuleUse} (h : uses ≠ []) : m.after uses = m.analyse.1 := by
  obtain ⟨use, uses, rfl⟩ := List.exists_cons_of_ne_nil h
  change (use.leaves m).after uses = m.analyse.1
  rw [use.leaves_eq, after_analysed]

theorem analyse_after (m : QueryModule) (uses : List ModuleUse) : (m.after uses).analyse = m.analyse := by
  cases uses with
  | nil => rfl
  | cons use uses => rw [m.after_eq (List.cons_ne_nil use uses), m.analyse_analyse]

end QueryModule

/-- A module is shown as accepted when analysis passes. -/
theorem ExplainPlan.isAccepted_ofModule (m : QueryModule) :
    (ofModule m).2.isAccepted = true ↔ m.analyse.2 = .ok () := by
  rw [ofModule]
  rcases m.analyse with ⟨m', e | _⟩
  · exact ⟨nofun, nofun⟩
  · exact ⟨fun _ => rfl, fun _ => rfl⟩

namespace Session

/-- A module that analysis rejects is not evaluated; its error is the answer. -/
theorem evaluate_rejected (s : Session) (files : Files) {m : QueryModule} {e : EngineError}
    (h : m.analyse.2 = .error e) : (s.evaluate files m).1 = .error e := by
  have hm : m.analyse = (m.analyse.1, .error e) := Prod.ext rfl h
  rw [evaluate, hm]
  rfl

/-- Sessions answer a module as its analysis tells them to. -/
theorem answers_of_analyse (s : Session) (files : Files) {m n : QueryModule} (h : n.analyse = m.analyse) :
    s.explain n = s.explain m ∧ s.evaluate files n = s.evaluate files m := by
  constructor
  · rw [explain, explain, ExplainPlan.ofModule, ExplainPlan.ofModule, h]
  · rw [evaluate, evaluate, h]

end Session

/-- **Analysis can be repeated.** After any uses of a module, whatever they were and however they ended,
analysis ends as it does on the module itself, with the same error if it fails, and writes nothing more.
So every session explains and evaluates the module as if nothing had been done with it; it is shown as
accepted just if its analysis passes, and if not, the error of the analysis is what evaluation fails with. -/
theorem QueryModule.analysis_repeats (m : QueryModule) (uses : List ModuleUse) :
    (m.after uses).analyse.2 = m.analyse.2 ∧
      (uses ≠ [] → (m.after uses).analyse.1 = m.after uses) ∧
      ∀ (s : Session) (files : Files),
        s.explain (m.after uses) = s.explain m ∧
        s.evaluate files (m.after uses) = s.evaluate files m ∧
        ((s.explain (m.after uses)).1.isAccepted = true ↔ m.analyse.2 = .ok ()) ∧
        ∀ e, m.analyse.2 = .error e → (s.evaluate files (m.after uses)).1 = .error e := by
  have hanalyse := m.analyse_after uses
  refine ⟨by rw [hanalyse], fun huses => by rw [hanalyse, m.after_eq huses], fun s files => ?_⟩
  obtain ⟨hexplain, hevaluate⟩ := s.answers_of_analyse files hanalyse
  refine ⟨hexplain, hevaluate, ?_, fun e he => ?_⟩
  · rw [hexplain]
    exact ExplainPlan.isAccepted_ofModule m
  · rw [hevaluate]
    exact s.evaluate_rejected files he

/-- `declare f() { (g(), $x) } g() { f() }; f()`, in which `$x` is bound nowhere. -/
def QueryModule.stopping : QueryModule :=
  let call (name : String) := (ExpressionKind.functionCall name []).bare
  let missing : Expression := .mk (.varRef "x") (.make 1 24) .empty
  ⟨[⟨"f", [], .unconstrained, (ExpressionKind.sequence [call "g", missing]).bare, .unknown⟩,
    ⟨"g", [], .unconstrained, call "f", .unknown⟩], call "f"⟩

/-- The analysis of `f` stops at `$x`, after that of `g`, which met `f` in progress. However often it is
analysed, explained or evaluated, the module is rejected at `$x`. -/
theorem QueryModule.analysis_repeats_stopping :
    let error : EngineError := ⟨.undefinedVariable "x", some (.make 1 24)⟩
    stopping.analyse.2 = .error error ∧
      stopping.analyse.1.functions.map (·.body.slot.getD) = [.unset, .host] ∧
      ∀ uses, (stopping.after uses).analyse.2 = .error error ∧
        ∀ (s : Session) (files : Files), (s.evaluate files (stopping.after uses)).1 = .error error := by
  intro error
  have hfails : stopping.analyse.2 = .error error := rfl
  refine ⟨hfails, rfl, fun uses => ?_⟩
  obtain ⟨houtcome, -, hsessions⟩ := analysis_repeats stopping uses
  exact ⟨houtcome.trans hfails, fun s files => (hsessions s files).2.2.2 error hfails⟩

end HybridQuery
