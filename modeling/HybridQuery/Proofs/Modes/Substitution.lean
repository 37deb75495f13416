import HybridQuery.Proofs.Modes.Constants

/-!
# Folding constants in a module

What the rules say of folded parts holds of the passes over modules where these keep to the rules: over an
acyclic module, and over the body of a module once its functions are analysed. Elsewhere folding can
change the order in which functions are met.

* `QueryModule.analyse_folds`: folding sub-expressions on the host changes no other mode, in any part of
  an acyclic module and in the body of every module.
* `QueryModule.fold_lowers_mode`: a module of functions that reach each other, in which folding one call
  to the constant it stands for takes the distributed mode away from the call around it.
-/

namespace HybridQuery

/-! ## Expressions with given modes -/

/-- An expression at no position, with a mode or without. -/
def Expression.withMode (mode : Option Mode) (kind : ExpressionKind) : Expression :=
  .mk kind .unknown ⟨mode⟩

/-- A call by name at no position, with a mode or without. -/
def Expression.callWithMode (mode : Option Mode) (name : String) (given : List Expression) : Expression :=
  .withMode mode (.functionCall name (given.map some))

/-! ## Acyclic modules -/

/-- A declared function, and one in which sub-expressions on the host are folded, with the modes of the
rules. -/
structure FunctionDeclaration.Folded (calls : CallModes) (d d' : FunctionDeclaration) : Prop where
  name : d'.name = d.name
  parameters : d'.parameters = d.parameters
  ruled : ∃ a a', d.ruled calls = some a ∧ d'.ruled calls = some a' ∧ a.Folds Eq a'
  calls : ∀ C, CallsOnly C d.body → CallsOnly C d'.body

namespace FunctionDeclaration.Folded

variable {calls : CallModes} {d d' a : FunctionDeclaration}

theorem of_folds (hd : d.ruled calls = some a) (h : a.Folds Unread d') : d.Folded calls d' := by
  have hruled := hd
  obtain ⟨body, hbody, rfl⟩ := FunctionDeclaration.ruled_eq_some.mp hd
  obtain ⟨⟨body', hbody', hfolds⟩, hcalls⟩ := Expression.folds_ruled d.body hbody h.body
  rw [← show d'.parameters = d.parameters from h.parameters] at hbody'
  exact ⟨h.name, h.parameters, ⟨_, _, hruled, FunctionDeclaration.ruled_eq_some.mpr ⟨body', hbody', rfl⟩,
    ⟨h.name, h.parameters, h.returnType, h.position, hfolds⟩⟩, hcalls⟩

theorem key (h : d.Folded calls d') : d'.key = d.key := by
  rw [FunctionDeclaration.key, FunctionDeclaration.key, FunctionDeclaration.arity, FunctionDeclaration.arity,
    h.name, h.parameters]

theorem ruleMode (h : d.Folded calls d') : d'.ruleMode calls = d.ruleMode calls := by
  obtain ⟨a, a', ha, ha', hfolds⟩ := h.ruled
  rw [FunctionDeclaration.ruleMode, FunctionDeclaration.ruleMode, ha, ha']
  exact congrArg ModeSlot.getD hfolds.body.slot.symm

end FunctionDeclaration.Folded

namespace QueryModule

variable {m m' a : QueryModule} {calls : CallModes}

theorem folded_of_folds (ha : m.ruled calls = some a) (h : a.Folds Unread m') :
    List.Forall₂ (FunctionDeclaration.Folded calls) m.functions m'.functions :=
  forall₂_comp (fun _ _ _ => .of_folds) (mapM_ruled_eq_some.mp (ruled_eq_some.mp ha).1) h.functions

/-- Folded functions with the modes of the rules. -/
theorem mapM_ruled_of_folded {D D' : Declarations}
    (h : List.Forall₂ (FunctionDeclaration.Folded calls) D D') :
    ∃ A A', D.mapM (·.ruled calls) = some A ∧ D'.mapM (·.ruled calls) = some A' ∧
      List.Forall₂ (FunctionDeclaration.Folds Eq) A A' := by
  simp only [mapM_ruled_eq_some]
  induction h with
  | nil => exact ⟨[], [], .nil, .nil, .nil⟩
  | cons hd _ ih =>
    obtain ⟨a, a', ha, ha', hfolds⟩ := hd.ruled
    obtain ⟨A, A', hA, hA', hfolds'⟩ := ih
    exact ⟨a :: A, a' :: A', .cons ha hA, .cons ha' hA', .cons hfolds hfolds'⟩

section
variable (hm : m.Fresh)
  (hfolded : List.Forall₂ (FunctionDeclaration.Folded calls) m.functions m'.functions)
include hfolded

theorem keys_of_folded :
    m'.functions.map FunctionDeclaration.key = m.functions.map FunctionDeclaration.key := by
  revert hfolded
  generalize m.functions = D, m'.functions = D'
  intro hfolded
  induction hfolded with
  | nil => rfl
  | cons hd _ ih => rw [List.map_cons, List.map_cons, hd.key, ih]

theorem isModing_of_folded (hcalls : m.IsModing calls) : m'.IsModing calls := by
  intro key
  rw [hcalls key]
  have hfind := find?_forall₂ (p := (·.key == key)) (q := (·.key == key)) hfolded
    fun d d' hd => by rw [hd.key]
  exact Option.Rel.map_eq hfind fun d d' hd => hd.ruleMode.symm

theorem checkDeclarations_of_folded (h : checkDeclarations [] m.functions = .ok ()) :
    checkDeclarations [] m'.functions = .ok () := by
  obtain ⟨hdistinct, -, hbuiltins⟩ := distinct_of_checkDeclarations h
  refine checkDeclarations_eq_ok (fun d' hd' => ?_) (keys_of_folded hfolded ▸ hdistinct) nofun
  obtain ⟨d, hd, hfold⟩ := exists_of_mem_forall₂ hfolded d' hd'
  rw [FunctionDeclaration.arity, hfold.name, hfold.parameters]
  exact hbuiltins d hd

include hm

/-- Folded functions call no other ones. -/
theorem callsOnly_of_folded {d' : FunctionDeclaration} (hd' : d' ∈ m'.functions) :
    CallsOnly (m.Calls d'.key) d'.body := by
  obtain ⟨d, hd, hfold⟩ := exists_of_mem_forall₂ hfolded d' hd'
  rw [hfold.key]
  exact hfold.calls _ ((hm.2 d hd).and (everywhere_call.mpr fun g hg => ⟨d, hd, rfl, hg⟩))

theorem acyclic_of_folded (hacyclic : m.Acyclic) : m'.Acyclic := by
  intro f hf
  refine hacyclic f (Relation.TransGen.mono (fun f g hcall => ?_) f f hf)
  obtain ⟨d', hd', rfl, hcall⟩ := hcall
  exact everywhere_call.mp ((callsOnly_of_folded hm hfolded hd').imp fun _ h => h.2) g hcall

end

/-- The rules give a folded module the modes of the original one. -/
theorem ruled_of_folds (ha : m.ruled calls = some a) (h : a.Folds Unread m') :
    ∃ a', m'.ruled calls = some a' ∧ a.Folds Eq a' := by
  obtain ⟨hfunctions, hbody⟩ := ruled_eq_some.mp ha
  obtain ⟨A, A', hA, hA', hfolds⟩ := mapM_ruled_of_folded (folded_of_folds ha h)
  obtain rfl := Option.some.inj (hfunctions.symm.trans hA)
  obtain ⟨⟨body, hbody', hfoldsBody⟩, -⟩ := Expression.folds_ruled m.body hbody h.body
  exact ⟨⟨A', body⟩, ruled_eq_some.mpr ⟨hA', hbody'⟩, hfolds, hfoldsBody⟩

theorem analyse_folds_of_acyclic (hm : m.Fresh) (hacyclic : m.Acyclic) (hok : m.analyse.2 = .ok ())
    (h : m.analyse.1.Folds Unread m') : m'.analyse.2 = .ok () ∧ m.analyse.1.Folds Eq m'.analyse.1 := by
  obtain ⟨calls, hcalls⟩ := exists_moding hm hacyclic
  obtain ⟨hcheck, hruled⟩ := (analyse_eq_ok_iff hm hacyclic hcalls).mp (Prod.ext rfl hok)
  have hfolded := folded_of_folds hruled h
  obtain ⟨a', hruled', hfolds⟩ := ruled_of_folds hruled h
  have hfresh : m'.Fresh := by
    refine ⟨?_, fun d' hd' => (callsOnly_of_folded hm hfolded hd').imp fun _ h => h.1⟩
    obtain ⟨-, hcalls⟩ := Expression.folds_ruled m.body (ruled_eq_some.mp hruled).2 h.body
    exact (hcalls (fun _ => True) (hm.1.imp fun _ h => ⟨h, fun _ _ => trivial⟩)).imp fun _ h => h.1
  have hrun := (analyse_eq_ok_iff hfresh (acyclic_of_folded hm hfolded hacyclic)
    (isModing_of_folded hfolded hcalls)).mpr ⟨checkDeclarations_of_folded hfolded hcheck, hruled'⟩
  rw [hrun]
  exact ⟨rfl, hfolds⟩

/-! ## Bodies of modules -/

/-- The mode of a function that has been analysed is looked up. -/
theorem declaredMode_run_computed (hdistinct : (a.functions.map FunctionDeclaration.key).Nodup)
    (hcomputed : ∀ d ∈ a.functions, IsComplete d.body) (level : Nat) (key : FunctionKey) :
    (declaredMode (level + 1) [] key).run a.functions =
      match a.callModes key with
      | none => (.fail (.undefinedFunction key.1 key.2), a.functions)
      | some mode => (.ok mode, a.functions) := by
  rw [declaredMode_run_succ, if_neg (by simp), callModes, declaration?]
  cases hd : a.functions.find? (·.key == key) with
  | none => rfl
  | some d =>
    have hmem := List.mem_of_find?_eq_some hd
    obtain ⟨mode, hmode, -⟩ := hcomputed d hmem _ (List.mem_singleton.mpr rfl) _ .refl
    have hslot : d.body.slot.isComputed = true := Option.isSome_of_mem hmode
    obtain rfl : _ = key := by simpa using List.find?_some hd
    simp only [Expression.analyse_computed hslot, setBody_same hmem hdistinct]
    rfl

theorem declaredMode_follows_computed (hdistinct : (a.functions.map FunctionDeclaration.key).Nodup)
    (hcomputed : ∀ d ∈ a.functions, IsComplete d.body) (level : Nat) (key : FunctionKey) :
    (declaredMode (level + 1) []).Follows (· = a.functions) True a.callModes key := by
  have hrun := declaredMode_run_computed hdistinct hcomputed level key
  refine ⟨fun {D mode E} hD hx => ?_, fun _ {D} hD hne => ?_⟩
  · subst hD
    rw [hrun] at hx
    cases hkey : a.callModes key with
    | none =>
      rw [hkey] at hx
      cases hx
    | some mode' =>
      rw [hkey] at hx
      cases hx
      exact ⟨rfl, rfl⟩
  · subst hD
    obtain ⟨mode, hmode⟩ := Option.ne_none_iff_exists'.mp hne
    exact ⟨mode, a.functions, by rw [hrun, hmode]⟩

/-- The body of a module follows the rules once its functions are analysed, whether they reach themselves
or not. -/
theorem body_follows (hm : m.Fresh) (hok : m.analyse.2 = .ok ()) :
    m.body.ruled m.analyse.1.callModes (fun _ => none) = some m.analyse.1.body ∧
      ∀ {e s : Expression}, IsFresh e → e.ruled m.analyse.1.callModes (fun _ => none) = some s →
        (QueryModule.mk m.functions e).analyse = (⟨m.analyse.1.functions, s⟩, .ok ()) := by
  obtain ⟨hcheck, D, hx, mode, hy⟩ := analyse_eq_ok.mp (Prod.ext rfl hok)
  -- All functions are analysed now, and the pass over a body only looks their modes up.
  obtain ⟨-, -, hdone⟩ := analyseDeclared_settles m.functions.length (m.functions.map (·.key)) hm.settled.2
  unfold callees at hx
  rw [hx] at hdone
  obtain ⟨hadvances, hcomplete⟩ := hdone rfl
  have hkeys := hadvances.keys
  have hmem (d : FunctionDeclaration) (hd : d ∈ D) : d.key ∈ m.functions.map FunctionDeclaration.key :=
    hkeys ▸ List.mem_map_of_mem hd
  have hcallee := declaredMode_follows_computed (a := ⟨D, m.body⟩)
    (hkeys ▸ (distinct_of_checkDeclarations hcheck).1) (fun d hd => hcomplete d hd (hmem d hd))
    m.functions.length
  have hfollows {e : Expression} (he : IsFresh e) :=
    Expression.follows (declared_of_map fun _ => rfl) e []
      (he.and (everywhere_call.mpr fun key _ => hcallee key))
  obtain ⟨hD, s, hs, rfl, -⟩ := (hfollows hm.1).sound rfl hy
  change m.analyse.1.functions = D at hD
  subst hD
  refine ⟨hs, fun {e s} he hs => ?_⟩
  obtain ⟨t, mode', E, hz⟩ := (hfollows he).total trivial rfl hs
  obtain ⟨rfl, s', hs', rfl, -⟩ := (hfollows he).sound rfl hz
  obtain rfl := Option.some.inj (hs.symm.trans hs')
  exact analyse_eq_ok.mpr ⟨hcheck, _, hx, mode', hz⟩

/-! ## Folding constants -/

/-- **Folding constants lowers no mode** where no function reaches itself: when sub-expressions on the host
give way to literals, the module still passes, and all other nodes keep their modes. In the body of a
module that is so whether functions reach themselves or not. -/
theorem analyse_folds (hm : m.Fresh) (hok : m.analyse.2 = .ok ()) :
    (m.Acyclic → ∀ m', m.analyse.1.Folds Unread m' →
      m'.analyse.2 = .ok () ∧ m.analyse.1.Folds Eq m'.analyse.1) ∧
    ∀ e, m.analyse.1.body.Folds Unread e → ∃ s,
      (QueryModule.mk m.functions e).analyse = (⟨m.analyse.1.functions, s⟩, .ok ()) ∧
        m.analyse.1.body.Folds Eq s := by
  refine ⟨fun hacyclic m' h => analyse_folds_of_acyclic hm hacyclic hok h, fun e h => ?_⟩
  obtain ⟨hbody, hrun⟩ := body_follows hm hok
  obtain ⟨⟨s, hs, hfolds⟩, hcalls⟩ := Expression.folds_ruled m.body hbody h
  have he := hcalls (fun _ => True) (hm.1.imp fun _ h => ⟨h, fun _ _ => trivial⟩)
  exact ⟨s, hrun (he.imp fun _ h => h.1) hs, hfolds⟩

/-- A number of partitions and an argument that are folded. -/
theorem analyse_folds_sums :
    let one (mode : Option Mode) : Expression := .withMode mode (.literal (.integer 1))
    let sum (mode : Option Mode) : Expression := .withMode mode (.arithmetic .add (one mode) (one mode))
    let two (mode : Option Mode) : Expression := .withMode mode (.literal (.integer 2))
    let module (host rows : Option Mode) (partitions argument : Expression) : QueryModule :=
      ⟨[⟨"spread", [⟨"x", .unconstrained⟩], .unconstrained,
        .callWithMode rows "parallelize" [.withMode host (.varRef "x"), partitions], .unknown⟩],
        .callWithMode rows "spread" [argument]⟩
    let m := module none none (sum none) (sum none)
    let m' := module none none (two none) (two none)
    m.Fresh ∧ m.Acyclic ∧
      m.analyse = (module (some .host) (some .rows) (sum (some .host)) (sum (some .host)), .ok ()) ∧
      m.analyse.1.Folds Unread m' ∧ m'.analyse.2 = .ok () ∧ m.analyse.1.Folds Eq m'.analyse.1 ∧
      ∃ s, (QueryModule.mk m.functions m'.body).analyse = (⟨m.analyse.1.functions, s⟩, .ok ()) ∧
        m.analyse.1.body.Folds Eq s := by
  intro one sum two module m m'
  have hsum {C : FunctionKey → Prop} : CallsOnly C (sum none) :=
    .expression (.pair (.leaf rfl rfl _) (.leaf rfl rfl _)) rfl nofun _
  have hspread : CallsOnly (fun _ => False)
      (Expression.callWithMode none "parallelize" [.withMode none (.varRef "x"), sum none]) :=
    .expression (.cons (.leaf rfl rfl _) (.cons hsum .nil)) rfl nofun _
  have hbody : CallsOnly (fun _ => True) (Expression.callWithMode none "spread" [sum none]) :=
    .expression (.cons hsum .nil) rfl (fun _ _ => trivial) _
  have hfresh : m.Fresh := ⟨hbody.fresh, List.forall_mem_singleton.mpr hspread.fresh⟩
  have hacyclic : m.Acyclic := acyclic_of_rank (fun _ => 0) fun f g ⟨d, hd, _, hg⟩ => by
    obtain rfl := List.mem_singleton.mp hd
    exact (hspread.mem hg).elim
  have hrun : m.analyse =
      (module (some .host) (some .rows) (sum (some .host)) (sum (some .host)), .ok ()) := by rfl
  have hok : m.analyse.2 = .ok () := congrArg Prod.snd hrun
  have hfolds : m.analyse.1.Folds Unread m' := by
    rw [hrun]
    have hcall : (Expression.callWithMode (some .rows) "spread" [sum (some .host)]).Folds Unread m'.body :=
      .keep _ rfl (.functionCall _ (.cons (.some (.fold _ _ rfl rfl)) .nil))
    refine ⟨.cons ⟨rfl, rfl, rfl, rfl, .keep _ rfl (.functionCall _ ?_)⟩ .nil, hcall⟩
    exact .cons (.some (.keep _ rfl (.varRef "x"))) (.cons (.some (.fold _ _ rfl rfl)) .nil)
  obtain ⟨hmodule, hbodies⟩ := analyse_folds hfresh hok
  obtain ⟨hok', hfolds'⟩ := hmodule hacyclic m' hfolds
  exact ⟨hfresh, hacyclic, hrun, hfolds, hok', hfolds', hbodies m'.body hfolds.body⟩

/-- Functions `p` and `q` that call each other, and `r`, which always gives zero. The call of `q` in `f`
has a sum for its argument. Nodes on the host, nodes distributed by rows, and calls of which the mode
depends on what is met first have the given modes. -/
def entangled (host rows called : Option Mode) (summand : Expression) : QueryModule :=
  let literal (value : Json) : Expression := .withMode host (.literal value)
  let never (yes no : Expression) : Expression :=
    .withMode host (.conditional (literal (.bool false)) yes no)
  let zero : Expression := literal (.integer 0)
  let count (e : Expression) : Expression := .callWithMode host "count" [e]
  ⟨[⟨"f", [], .unconstrained,
      .callWithMode called "q"
        [.withMode host (.arithmetic .add summand (count (.callWithMode rows "p" [])))], .unknown⟩,
    ⟨"p", [], .unconstrained,
      .callWithMode rows "json-file"
        [never (.callWithMode host "q" [zero]) (literal (.string "data.json"))], .unknown⟩,
    ⟨"q", [⟨"x", .unconstrained⟩], .unconstrained, .callWithMode called "p" [], .unknown⟩,
    ⟨"r", [], .unconstrained, never (count (.callWithMode called "q" [zero])) zero, .unknown⟩],
    .callWithMode called "f" []⟩

/-- As long as the summand in `f` is a call of `r`, `q` is met through it first, and `p` while `q` is being
analysed: both are distributed. With the literal that `r` always gives in its place, `p` is met first, and
`q` while `p` is being analysed. The call of `p` in `q` is on the host then, and so are `q` and every call
of it, with the one around the literal. -/
theorem fold_lowers_mode :
    let before := entangled none none none (.callWithMode none "r" [])
    let after := entangled none none none (.withMode none (.literal (.integer 0)))
    before.analyse =
        (entangled (some .host) (some .rows) (some .rows) (.callWithMode (some .host) "r" []), .ok ()) ∧
      before.analyse.1.Folds Unread after ∧
      after.analyse =
        (entangled (some .host) (some .rows) (some .host) (.withMode (some .host) (.literal (.integer 0))),
          .ok ()) := by
  have hbefore : (entangled none none none (.callWithMode none "r" [])).analyse =
      (entangled (some .host) (some .rows) (some .rows) (.callWithMode (some .host) "r" []), .ok ()) := by
    rfl
  refine ⟨hbefore, ?_, by rfl⟩
  rw [hbefore]
  have hliteral (value : Json) :
      (Expression.withMode (some .host) (.literal value)).Folds Unread (.withMode none (.literal value)) :=
    .keep _ rfl (.literal value)
  have hcall {mode : Option Mode} (name : String) {given given' : List Expression}
      (h : List.Forall₂ (Option.Rel (Expression.Folds Unread)) (given.map some) (given'.map some)) :
      (Expression.callWithMode mode name given).Folds Unread (.callWithMode none name given') :=
    .keep _ rfl (.functionCall name h)
  have hnever {yes yes' no no' : Expression} (hyes : yes.Folds Unread yes') (hno : no.Folds Unread no') :
      (Expression.withMode (some .host) (.conditional (.withMode (some .host) (.literal (.bool false))) yes
        no)).Folds Unread
        (.withMode none (.conditional (.withMode none (.literal (.bool false))) yes' no')) :=
    .keep _ rfl (.conditional (hliteral _) hyes hno)
  have hone {e e' : Expression} (h : e.Folds Unread e') :
      List.Forall₂ (Option.Rel (Expression.Folds Unread)) ([e].map some) ([e'].map some) :=
    .cons (.some h) .nil
  have hsum : (Expression.withMode (some .host) (.arithmetic .add (.callWithMode (some .host) "r" [])
      (.callWithMode (some .host) "count" [.callWithMode (some .rows) "p" []]))).Folds Unread
      (.withMode none (.arithmetic .add (.withMode none (.literal (.integer 0)))
        (.callWithMode none "count" [.callWithMode none "p" []]))) :=
    .keep _ rfl (.arithmetic .add (.fold _ _ rfl rfl) (hcall "count" (hone (hcall "p" .nil))))
  refine ⟨.cons ⟨rfl, rfl, rfl, rfl, hcall "q" (hone hsum)⟩ (.cons ⟨rfl, rfl, rfl, rfl, ?_⟩
    (.cons ⟨rfl, rfl, rfl, rfl, hcall "p" .nil⟩ (.cons ⟨rfl, rfl, rfl, rfl, ?_⟩ .nil))), hcall "f" .nil⟩
  · exact hcall "json-file" (hone (hnever (hcall "q" (hone (hliteral _))) (hliteral _)))
  · exact hnever (hcall "count" (hone (hcall "q" (hone (hliteral _))))) (hliteral _)

end QueryModule
end HybridQuery
