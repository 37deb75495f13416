import HybridQuery.Proofs.Meaning.Answers
import HybridQuery.Proofs.Meaning.Success
import HybridQuery.Proofs.Spreading.Depth
import HybridQuery.Proofs.Spreading.Modules

/-!
# Spreading a module changes no answer

* `QueryModule.Wraps.analyse`: if the pass over a module succeeds, so does the pass over the module that
  it spreads.
* `QueryModule.AnalysedAlike.compile`: the plans of the two modules, and `environment_spread` for what
  their evaluations read.
* `QueryModule.Yields`: a module answers a query, however many steps that takes. `Session.evaluate`
  gives such answers only, unless it runs out of steps.
* `QueryModule.Wraps.yields`: a module yields what a module that spreads it yields, if no `let` of a
  distributed value is moved into a distributed stream.
-/

namespace HybridQuery

open Declarations

/-! ## Analysed modules -/

/-- Analysed modules, the first of which spreads the second. -/
structure QueryModule.AnalysedAlike (a' a : QueryModule) : Prop where
  alike : Matched [] a'.functions a.functions
  computed : ∀ d ∈ a.functions, d.body.slot.isComputed = true
  builtins : ∀ d ∈ a.functions, Builtin.find? d.key.1 d.key.2 = none
  lets : a'.body.lets.length = a.body.lets.length
  body : ∀ calls, Fine calls a'.functions a.functions → Kept a'.body a.body →
    a'.body.Spreads calls a.body

/-- If the pass over a module succeeds, so does the pass over the module that it spreads. -/
theorem QueryModule.Wraps.analyse {m' m a' : QueryModule} (h : m'.Wraps m)
    (hok : m'.analyse = (a', .ok ())) : ∃ a, m.analyse = (a, .ok ()) ∧ a'.AnalysedAlike a := by
  obtain ⟨hcheck, D', hdeclared', mode', hbody'⟩ := analyse_eq_ok.mp hok
  rw [Wraps.checkDeclarations h.functions] at hcheck
  obtain ⟨hdistinct, -, hbuiltins⟩ := distinct_of_checkDeclarations hcheck
  have halike : Matched [] m'.functions m.functions :=
    ⟨h.functions.imp fun d' d hd =>
      ⟨hd.name, hd.parameters, hd.returnType, hd.position, .inl hd.body⟩, hdistinct, nofun⟩
  have hcallees : m'.callees = m.callees := by
    rw [callees, callees, h.functions.length_eq]
  rw [halike.keys, hcallees] at hdeclared'
  rw [hcallees] at hbody'
  obtain ⟨D, hdeclared, hD, hgrows, hcomputed⟩ := analyseDeclared_agrees _ halike hdeclared'
  obtain ⟨body, mode, E, hbody, hE, hgrows₂, -, hlets, hspreads⟩ :=
    h.body.passes (declaredMode_agrees _ []) [] [] .nil D' D hD a'.body mode' a'.functions hbody'
  have hkeys : E.map FunctionDeclaration.key = m.functions.map FunctionDeclaration.key :=
    hgrows₂.keys.trans hgrows.keys
  have hmember (d : FunctionDeclaration) (hd : d ∈ E) :
      d.key ∈ m.functions.map FunctionDeclaration.key := hkeys ▸ List.mem_map_of_mem hd
  refine ⟨⟨E, body⟩, analyse_eq_ok.mpr ⟨hcheck, D, hdeclared, mode, hbody⟩, hE, fun d hd => ?_,
    fun d hd => ?_, hlets, fun calls hf hk => hspreads calls hf hk .nil⟩
  · -- The function of this key is computed since the pass over it.
    obtain ⟨e, he, hkey, hc⟩ := hcomputed d.key (hmember d hd)
    rwa [List.inj_on_of_nodup_map hE.distinct hd (hgrows₂.stays e he hc) hkey.symm]
  · obtain ⟨e, he, hkey⟩ := List.mem_map.mp (hmember d hd)
    rw [← hkey]
    exact hbuiltins e he

/-! ## `let` clauses of whole modules -/

/-- Lists of lists that are related in total are related one by one, if they are equally long. -/
theorem forall₂_of_flatMap {α β γ δ : Type} {R : γ → δ → Prop} {f : α → List γ} {g : β → List δ}
    {l : List α} {k : List β} (hlen : List.Forall₂ (fun a b => (f a).length = (g b).length) l k)
    (h : List.Forall₂ R (l.flatMap f) (k.flatMap g)) :
    List.Forall₂ (fun a b => List.Forall₂ R (f a) (g b)) l k := by
  induction hlen with
  | nil => exact .nil
  | cons hab _ ih =>
    rw [List.flatMap_cons, List.flatMap_cons] at h
    obtain ⟨hhead, hrest⟩ := forall₂_of_append hab h
    exact .cons hhead (ih hrest)

theorem length_flatMap_of_forall₂ {α β γ δ : Type} {f : α → List γ} {g : β → List δ} {l : List α}
    {k : List β} (hlen : List.Forall₂ (fun a b => (f a).length = (g b).length) l k) :
    (l.flatMap f).length = (k.flatMap g).length := by
  induction hlen with
  | nil => rfl
  | cons hab _ ih => rw [List.flatMap_cons, List.flatMap_cons, List.length_append, List.length_append,
      hab, ih]

/-- Whether the body of a declared function is distributed, for each key. -/
def QueryModule.HasRows (a : QueryModule) (key : FunctionKey) : Prop :=
  ∃ d ∈ a.functions, d.key = key ∧ d.body.slot.value = some .rows

namespace QueryModule.AnalysedAlike

variable {a' a : QueryModule} (h : a'.AnalysedAlike a)
include h

/-- The functions of the two modules, all of which are analysed. -/
theorem finished : List.Forall₂ (fun d' d => Paired a'.functions a.functions d' d ∧
    Finished a'.functions a.functions d'.body d.body) a'.functions a.functions := by
  refine List.forall₂_iff_zip.mpr ⟨h.alike.paired.length_eq, fun {d' d} hmem => ?_⟩
  have hp := (List.forall₂_iff_zip.mp h.alike.paired).2 hmem
  refine ⟨hp, hp.body.resolve_left fun hw => ?_⟩
  have hc := h.computed d (List.of_mem_zip hmem).2
  rw [hw.slot_eq] at hc
  cases hc

/-- If the `let` clauses of the modules are kept, so are those of all their parts. -/
theorem fine (hk : a'.KeepsLets a) :
    Fine a.HasRows a'.functions a.functions ∧ Kept a'.body a.body := by
  have hlen := h.finished.imp fun d' d hd => hd.2.lets
  obtain ⟨hfunctions, hbody⟩ := forall₂_of_append (length_flatMap_of_forall₂ hlen) hk
  have hkept : List.Forall₂ (fun d' d => Kept d'.body d.body) a'.functions a.functions :=
    forall₂_of_flatMap hlen hfunctions
  refine ⟨⟨?_, fun d hd hrows => ⟨d, hd, rfl, hrows⟩⟩, hbody⟩
  refine hkept.imp ?_
  exact fun d' d hd _ => hd

/-- All functions and the body are spread if the `let` clauses are kept. -/
theorem spreads (hk : a'.KeepsLets a) :
    List.Forall₂ (fun d' d => Paired a'.functions a.functions d' d ∧
      d'.body.Spreads a.HasRows d.body) a'.functions a.functions ∧
      a'.body.Spreads a.HasRows a.body := by
  obtain ⟨hfine, hbody⟩ := h.fine hk
  refine ⟨List.forall₂_iff_zip.mpr ⟨h.finished.length_eq, fun {d' d} hmem => ?_⟩,
    h.body _ hfine hbody⟩
  obtain ⟨hp, hf⟩ := (List.forall₂_iff_zip.mp h.finished).2 hmem
  exact ⟨hp, hf.spreads _ hfine ((List.forall₂_iff_zip.mp hfine.kept).2 hmem hf.computed)⟩

end QueryModule.AnalysedAlike

/-! ## Compiled modules -/

/-- A compiled function that spreads another one. -/
structure FunctionPlan.Spread (calls : FunctionKey → Prop) (f' f : FunctionPlan) : Prop where
  name : f'.name = f.name
  parameters : f'.parameters = f.parameters
  signature : f'.signature = f.signature
  body : f'.body.Spread calls f.body

theorem FunctionPlan.Spread.key {calls : FunctionKey → Prop} {f' f : FunctionPlan}
    (h : f'.Spread calls f) : f'.key = f.key := by
  rw [FunctionPlan.key, FunctionPlan.key, h.name, h.parameters]

/-- What a declared function is compiled to. -/
theorem FunctionDeclaration.compile_eq_ok {c : Catalogue} {d : FunctionDeclaration}
    {f : FunctionPlan} :
    d.compile c = .ok f ↔ ∃ signature body,
      compileSignature c d.parameters d.returnType d.position = .ok signature ∧
        d.body.compile c = .ok body ∧
        ⟨d.name, d.parameters.map (·.name), signature, body⟩ = f := by
  rw [FunctionDeclaration.compile]
  simp only [EngineResult.bind_eq_ok, EngineResult.pure_eq_ok]
  grind

section
variable {calls : FunctionKey → Prop} {D' D : Declarations} {c : Catalogue}

theorem Declarations.Paired.compile {d' d : FunctionDeclaration} (hp : Paired D' D d' d)
    (hbody : d'.body.Spreads calls d.body) {f' : FunctionPlan} (hf' : d'.compile c = .ok f') :
    ∃ f, d.compile c = .ok f ∧ f'.Spread calls f ∧ f.key = d.key ∧
      f.body.mode = d.body.slot.getD := by
  obtain ⟨signature, body', hsignature, hbody', rfl⟩ := FunctionDeclaration.compile_eq_ok.mp hf'
  obtain ⟨body, hcompile, hspread, hmode⟩ := hbody.plans c body' hbody'
  rw [hp.parameters, hp.returnType, hp.position] at hsignature
  refine ⟨_, FunctionDeclaration.compile_eq_ok.mpr ⟨signature, body, hsignature, hcompile, rfl⟩,
    ⟨hp.name, by rw [hp.parameters], rfl, hspread⟩, ?_, hmode⟩
  simp [FunctionPlan.key, FunctionDeclaration.key, FunctionDeclaration.arity]

/-- The functions of two modules are compiled alike; the mode of each is the one it was analysed to. -/
theorem compileDeclarations_spread {E' E : Declarations} {compiled' compiled plans' : List FunctionPlan}
    (h : List.Forall₂ (fun d' d => Paired E' E d' d ∧ d'.body.Spreads calls d.body) D' D)
    (hcompiled : List.Forall₂ (FunctionPlan.Spread calls) compiled' compiled)
    (hplans' : compileDeclarations c compiled' D' = .ok plans') :
    ∃ plans, compileDeclarations c compiled D = .ok plans ∧
      List.Forall₂ (FunctionPlan.Spread calls) plans' plans ∧
      ∀ f ∈ plans, f ∈ compiled ∨ ∃ d ∈ D, f.key = d.key ∧ f.body.mode = d.body.slot.getD := by
  induction h generalizing compiled' compiled with
  | nil =>
    cases hplans'
    exact ⟨compiled, rfl, hcompiled, fun f hf => .inl hf⟩
  | @cons d' d _ _ hd _ ih =>
    rw [compileDeclarations, EngineResult.bind_eq_ok] at hplans'
    obtain ⟨f', hf', hplans'⟩ := hplans'
    obtain ⟨f, hf, hspread, hkey, hmode⟩ := hd.1.compile hd.2 hf'
    have hany : compiled'.any (·.key == f'.key) = compiled.any (·.key == f.key) := by
      rw [hspread.key]
      clear ih hplans'
      induction hcompiled with
      | nil => rfl
      | cons hg _ ih => rw [List.any_cons, List.any_cons, hg.key, ih]
    rw [hany] at hplans'
    split at hplans'
    · cases hplans'
    · rename_i hfresh
      obtain ⟨plans, hplans, hall, hmodes⟩ :=
        ih (List.rel_append hcompiled (.cons hspread .nil)) hplans'
      refine ⟨plans, ?_, hall, fun g hg => ?_⟩
      · rw [compileDeclarations, EngineResult.bind_eq_ok]
        exact ⟨f, hf, by rw [if_neg hfresh]; exact hplans⟩
      · rcases hmodes g hg with hmem | ⟨e, he, hge⟩
        · rcases List.mem_append.mp hmem with hmem | hmem
          · exact .inl hmem
          · obtain rfl := List.mem_singleton.mp hmem
            exact .inr ⟨d, List.mem_cons_self, hkey, hmode⟩
        · exact .inr ⟨e, List.mem_cons_of_mem _ he, hge⟩

end

/-- What a module is compiled to. -/
theorem QueryModule.compile_eq_ok {c : Catalogue} {m : QueryModule} {plan : ModulePlan} :
    m.compile c = .ok plan ↔
      compileDeclarations c [] m.functions = .ok plan.functions ∧ m.body.compile c = .ok plan.body := by
  obtain ⟨functions, body⟩ := plan
  rw [QueryModule.compile]
  simp only [EngineResult.bind_eq_ok, EngineResult.pure_eq_ok, ModulePlan.mk.injEq]
  grind

/-- The modules are compiled alike; the mode of each function is the one it was analysed to. -/
theorem QueryModule.AnalysedAlike.compile {a' a : QueryModule} (h : a'.AnalysedAlike a)
    (hk : a'.KeepsLets a) {c : Catalogue} {plan' : ModulePlan} (hplan' : a'.compile c = .ok plan') :
    ∃ plan, a.compile c = .ok plan ∧
      List.Forall₂ (FunctionPlan.Spread a.HasRows) plan'.functions plan.functions ∧
      plan'.body.Spread a.HasRows plan.body ∧
      ∀ f ∈ plan.functions, ∃ d ∈ a.functions, f.key = d.key ∧ f.body.mode = d.body.slot.getD := by
  obtain ⟨hfunctions', hbody'⟩ := QueryModule.compile_eq_ok.mp hplan'
  obtain ⟨hfunctions, hbody⟩ := h.spreads hk
  obtain ⟨plans, hplans, hspread, hmodes⟩ := compileDeclarations_spread hfunctions .nil hfunctions'
  obtain ⟨p, hp, hps, -⟩ := hbody.plans c _ hbody'
  exact ⟨⟨plans, p⟩, QueryModule.compile_eq_ok.mpr ⟨hplans, hp⟩, hspread, hps,
    fun f hf => (hmodes f hf).resolve_left (by simp)⟩

/-! ## What evaluations read -/

/-- A built-in function as a value spreads itself. -/
theorem Builtin.toFunction_spread {calls : FunctionKey → Prop} {b : Builtin}
    (hb : b ≠ .structuredJsonFile) (n : Nat) :
    (b.toFunction n).body.Spread calls (b.toFunction n).body := by
  refine .node (fun _ => .inl rfl) nofun (.compute (.builtin hb (List.forall₂_same.mpr fun p hp => ?_)))
  obtain ⟨name, -, rfl⟩ := List.mem_map.mp hp
  exact .node (fun _ => .inl rfl) nofun (.varRef name)

/-- What the evaluations of two modules read. -/
theorem QueryModule.AnalysedAlike.environment_spread {a' a : QueryModule} (h : a'.AnalysedAlike a)
    {env : Environment} (hcap : env.materializationCap = none) {plan' plan : ModulePlan}
    (hplans : List.Forall₂ (FunctionPlan.Spread a.HasRows) plan'.functions plan.functions)
    (hmodes : ∀ f ∈ plan.functions,
      ∃ d ∈ a.functions, f.key = d.key ∧ f.body.mode = d.body.slot.getD) :
    Environment.Spread (Plan.Spread a.HasRows) a.HasRows (env.running plan') (env.running plan) where
  cap' := hcap
  cap := hcap
  catalogue := rfl
  files := rfl
  functions := by
    change List.Forall₂ _ (plan'.functions.map Registry.ofPlan) (plan.functions.map Registry.ofPlan)
    rw [List.forall₂_map_left_iff, List.forall₂_map_right_iff]
    refine hplans.imp fun f' f hf => ?_
    rw [Registry.ofPlan, Registry.ofPlan, hf.name, hf.parameters, hf.signature]
    exact .function none (some f.name) f.parameters f.signature hf.body .nil
  bodies key hkey := by
    obtain ⟨d, hd, rfl, hrows⟩ := hkey
    refine ⟨h.builtins d hd, fun g hg => ?_⟩
    obtain ⟨f, hf, rfl⟩ := List.mem_map.mp (List.mem_of_find?_eq_some hg)
    obtain ⟨e, he, hkey, hmode⟩ := hmodes f hf
    have hfound : (f.name, f.parameters.length) = d.key := by
      simpa [Registry.keyOf?, Registry.ofPlan, FunctionOf.arity] using List.find?_some hg
    -- Keys are distinct, so that this function is the one with the distributed body.
    have hed : e = d := List.inj_on_of_nodup_map h.alike.distinct he hd (hkey.symm.trans hfound)
    change f.body.mode = .rows
    rw [hmode, hed, ModeSlot.getD, hrows]
    rfl
  modes := Plan.Wraps.spreads
  builtins hb n := Builtin.toFunction_spread hb n

/-! ## Answers -/

section
variable {m' m : QueryModule} {items' : Sequence}

/-- A module yields what a module that spreads it yields, if no `let` of a distributed value is moved
from a stream on the host to a distributed one. -/
theorem QueryModule.Wraps.yields {env : Environment} (h : m'.Wraps m)
    (hcap : env.materializationCap = none) (hkeeps : m'.analyse.1.KeepsLets m.analyse.1)
    (hitems' : m'.Yields env (.ok items')) :
    ∃ items, m.Yields env (.ok items) ∧
      Sequence.Like (Plan.Spread m.analyse.1.HasRows) items' items := by
  obtain ⟨a', plan', ha', hplan', hsettles'⟩ := hitems'
  obtain ⟨a, ha, halike⟩ := h.analyse ha'
  rw [ha', ha] at hkeeps
  obtain ⟨plan, hplan, hfunctions, hbody, hmodes⟩ := halike.compile hkeeps hplan'
  have henv := halike.environment_spread hcap hfunctions hmodes
  -- At a depth at which the first module means its items the second one means like items.
  obtain ⟨depth, hmeans'⟩ := (meant_evaluate plan'.body rfl).settles_iff.mp hsettles'
  have hroot : Context.Like (Plan.Spread a.HasRows) .root .root := .cons .nil .nil
  obtain ⟨items, hmeans, hlike⟩ :=
    ((Meaning.Carries.ofDepth henv (le_refl depth)).plans.evaluate hbody hroot).result items' hmeans'
  refine ⟨items, ⟨a, plan, ha, hplan, ?_⟩, by rw [ha]; exact hlike⟩
  exact (meant_evaluate plan.body rfl).settles_of_result depth hmeans

/-- **Distribution is transparent.** If any parts of a module are handed to `parallelize` and the
session answers it with items, the module itself yields like items, and the session answers with them
unless its allowance of steps is used up. This is so if no `let` of a distributed value is moved from a
stream on the host to a distributed one, and if no cap limits what is pulled to the host. -/
theorem Session.evaluate_of_spread {s : Session} {files : Files}
    (hcap : s.config.materializationCap = none) (h : m'.Wraps m)
    (hkeeps : m'.analyse.1.KeepsLets m.analyse.1) (hanswer : (s.evaluate files m').1 = .ok items') :
    ∃ items, Sequence.Like (Plan.Spread m.analyse.1.HasRows) items' items ∧
      m.Yields (s.environment files) (.ok items) ∧
      ((s.evaluate files m).1 = .ok items ∨ (s.evaluate files m).1 = .error .allowanceUsed) := by
  obtain ⟨items, hyields, hlike⟩ := h.yields hcap hkeeps (Session.yields_of_evaluate_ok hanswer)
  exact ⟨items, hlike, hyields, hyields.evaluate⟩

end

/-- `for $x in source let $y := $x return $y`. -/
def QueryModule.copying (source : Expression) : QueryModule :=
  ⟨[], (ExpressionKind.flwor
    [.mk (.forEach "x" none false source) .unknown .empty,
     .mk (.letBe "y" (ExpressionKind.varRef "x").bare) .unknown .empty]
    (ExpressionKind.varRef "y").bare).bare⟩

/-- A `for` over two partitions is answered like the `for` over the list. What its `let` binds is on the
host. -/
theorem Session.evaluate_of_spread_copying :
    let source := (ExpressionKind.sequence
      [(ExpressionKind.literal (.integer 7)).bare, (ExpressionKind.literal (.integer 8)).bare]).bare
    let m := QueryModule.copying source
    let m' := QueryModule.copying (source.handed 2)
    let s : Session := ⟨"session", {}, .empty, .empty⟩
    m'.Wraps m ∧ m'.analyse.1.KeepsLets m.analyse.1 ∧
      (s.evaluate .empty m').1 = .ok [.integer 7, .integer 8] ∧
      ∃ items, Sequence.Like (Plan.Spread m.analyse.1.HasRows) [.integer 7, .integer 8] items ∧
        m.Yields (s.environment .empty) (.ok items) ∧
        ((s.evaluate .empty m).1 = .ok items ∨ (s.evaluate .empty m).1 = .error .allowanceUsed) := by
  intro source m m' s
  have hsource : Expression.Wraps source source :=
    .node .unknown (.sequence
      (.cons (ExpressionKind.literal_wraps _) (.cons (ExpressionKind.literal_wraps _) .nil)))
  have hwraps : m'.Wraps m :=
    ⟨.nil, .node .unknown (.flwor
      (.cons (.mk .unknown (.forEach "x" none false (Expression.Wraps.handed hsource 2)))
        (.cons (.mk .unknown (.letBe "y" (.node .unknown (.varRef "x")))) .nil))
      (.node .unknown (.varRef "y")))⟩
  have hkeeps : m'.analyse.1.KeepsLets m.analyse.1 := by
    unfold QueryModule.KeepsLets
    decide +kernel
  have hanswer : (s.evaluate .empty m').1 = .ok [.integer 7, .integer 8] :=
    EngineResult.eq_ok_of_read Item.eq_of_integer? [7, 8] (by decide +kernel)
  exact ⟨hwraps, hkeeps, hanswer, Session.evaluate_of_spread rfl hwraps hkeeps hanswer⟩

/-- `for $x in source let $v := parallelize((1, "a"), 1) return empty($v[$$ + 1 eq 2])`. -/
def QueryModule.probing (source : Expression) : QueryModule :=
  let one := (ExpressionKind.literal (.integer 1)).bare
  let mixed := (ExpressionKind.sequence [one, (ExpressionKind.literal (.string "a")).bare]).bare
  let successor := (ExpressionKind.arithmetic .add ExpressionKind.contextItem.bare one).bare
  let test := (ExpressionKind.comparison .eq successor (ExpressionKind.literal (.integer 2)).bare).bare
  ⟨[], (ExpressionKind.flwor
    [.mk (.forEach "x" none false source) .unknown .empty,
     .mk (.letBe "v" (mixed.handed 1)) .unknown .empty]
    (ExpressionKind.functionCall Builtin.empty.name
      [some (ExpressionKind.filter (ExpressionKind.varRef "v").bare test).bare]).bare).bare⟩

/-- A `let` of a distributed value that is moved to a distributed stream changes the answer. The value is
on the host then, where nothing after the first match is looked at. -/
theorem Session.evaluate_probing :
    let source := (ExpressionKind.literal (.integer 1)).bare
    let m := QueryModule.probing source
    let m' := QueryModule.probing (source.handed 1)
    let s : Session := ⟨"session", {}, .empty, .empty⟩
    m'.Wraps m ∧ s.config.materializationCap = none ∧
      (s.evaluate .empty m').1 = .ok [.boolean false] ∧
      ∃ e, (s.evaluate .empty m).1 = .error e ∧ e.code = .typeMismatch := by
  intro source m m' s
  have hone : Expression.Wraps (ExpressionKind.literal (.integer 1)).bare
      (ExpressionKind.literal (.integer 1)).bare := ExpressionKind.literal_wraps _
  have hvalue := Expression.Wraps.handed_both (.node .unknown (.sequence
    (.cons hone (.cons (ExpressionKind.literal_wraps (.string "a")) .nil)))) 1
  have htest := Expression.Wraps.node .unknown (.comparison .eq
    (.node .unknown (.arithmetic .add (.node .unknown .contextItem) hone))
    (ExpressionKind.literal_wraps (.integer 2)))
  have hwraps : m'.Wraps m :=
    ⟨.nil, .node .unknown (.flwor
      (.cons (.mk .unknown (.forEach "x" none false (Expression.Wraps.handed hone 1)))
        (.cons (.mk .unknown (.letBe "v" hvalue)) .nil))
      (.node .unknown (.functionCall (by decide)
        (.cons (.some (.node .unknown (.filter (.node .unknown (.varRef "v")) htest))) .nil))))⟩
  refine ⟨hwraps, rfl, ?_, ?_⟩
  · exact EngineResult.eq_ok_of_read Item.eq_of_boolean? [false] (by decide +kernel)
  · exact EndsIn.exists_error (by decide +kernel)

end HybridQuery
