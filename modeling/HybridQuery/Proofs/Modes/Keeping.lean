import HybridQuery.Proofs.Modes.Calls
import HybridQuery.Proofs.Results
import HybridQuery.Syntax.Analysis

/-!
# What analysis keeps, and what it fails with

Analysis fills slots and changes nothing else, whether it succeeds or not. A property of nodes that does
not look at modes is kept by it, and a failure is blamed on a node that the pass has reached.

* `NodeRef.Keepable`: such a property, with a property of the errors that nodes with it are blamed for.
* `Pass.Keeps`: the judgement on passes, with a rule for every way to combine them.
* `Expression.analyse_keeps` and its like: one lemma for every pass over a part.
* `QueryModule.analyse_keeps`: what analysis makes of a module.
-/

namespace HybridQuery

/-- Where the node stands. -/
def NodeRef.position : NodeRef → SourcePosition
  | expression e => e.position
  | clause c => c.position

/-! ## Passes -/

/-- The error is a fault without a position, or has the property. -/
def EngineError.Raised (E : EngineError → Prop) (e : EngineError) : Prop := E e ∨ ∃ fault, e = .of fault

/-- A property of nodes that looks only at where they stand and what they are called, and one that errors
have when they are blamed on such nodes. -/
structure NodeRef.Keepable (P : NodeRef → Prop) (E : EngineError → Prop) : Prop where
  expression {kind kind' : ExpressionKind} {position : SourcePosition} {slot slot' : ModeSlot}
    (hname : kind'.name = kind.name) (h : P (.expression (.mk kind position slot))) :
    P (.expression (.mk kind' position slot'))
  clause {kind kind' : ClauseKind} {position : SourcePosition} {slot slot' : ModeSlot}
    (hname : kind'.name = kind.name) (h : P (.clause (.mk kind position slot))) :
    P (.clause (.mk kind' position slot'))
  blamed {d : NodeRef} {e : EngineError} (h : P d) (he : e.Raised E) : E (e.locate d.position)

theorem EngineError.raised_of {E : EngineError → Prop} (fault : Fault) : (of fault).Raised E :=
  .inr ⟨fault, rfl⟩

/-- The result fails with an error of `E` if it fails. -/
abbrev EngineResult.FailsOnly {α : Type} (E : EngineError → Prop) (r : EngineResult α) : Prop :=
  EndsIn (fun _ => True) E r

/-- The tree has the property, and so has the error if there is one. -/
structure Analysed.Meets {τ β : Type} (T : τ → Prop) (E : EngineError → Prop) (a : Analysed τ β) : Prop where
  tree : T a.1
  result : a.2.FailsOnly E

/-- A pass with results in `R` that keeps an invariant of the declared functions. -/
def Pass.Keeps {α : Type} (Inv : Declarations → Prop) (R : α → Prop) (x : Pass α) : Prop :=
  ∀ D, Inv D → R (x.run D).1 ∧ Inv (x.run D).2

namespace Pass.Keeps

variable {Inv : Declarations → Prop} {α β γ τ υ : Type} {R : α → Prop} {Q : β → Prop} {T : τ → Prop}
  {U : υ → Prop} {E D : EngineError → Prop}

theorem pure {a : α} (h : R a) : Keeps Inv R (Pure.pure a : Pass α) := fun _ hD => ⟨h, hD⟩

theorem mono {R' : α → Prop} {x : Pass α} (hx : x.Keeps Inv R) (h : ∀ a, R a → R' a) : x.Keeps Inv R' :=
  fun D hD => ⟨h _ (hx D hD).1, (hx D hD).2⟩

theorem bind {x : Pass α} {f : α → Pass β} (hx : x.Keeps Inv R) (hf : ∀ a, R a → (f a).Keeps Inv Q) :
    Keeps Inv Q (x >>= f) := fun D hD => by
  rw [StateT.run_bind]
  exact hf _ (hx D hD).1 _ (hx D hD).2

theorem get : Keeps Inv Inv (MonadState.get : Pass Declarations) := fun _ hD => ⟨hD, hD⟩

theorem modify {f : Declarations → Declarations} (hf : ∀ D, Inv D → Inv (f D)) :
    Keeps Inv (fun _ => True) (modify f : Pass Unit) := fun D hD => ⟨trivial, hf D hD⟩

/-- A pass that analyses nothing. -/
theorem done {t : τ} (ht : T t) {r : EngineResult β} (hr : r.FailsOnly E) :
    Keeps Inv (Analysed.Meets T E) (Pass.done t r) := .pure ⟨ht, hr⟩

/-- What is rebuilt around a part. -/
theorem wrap {x : Pass (Analysed τ β)} {tree : τ → υ} {value : β → γ}
    (hx : x.Keeps Inv (Analysed.Meets T D)) (htree : ∀ t, T t → U (tree t)) (he : ∀ e, D e → E e) :
    Keeps Inv (Analysed.Meets U E) (Pass.wrap x tree value) :=
  hx.bind fun a ha => .pure ⟨htree a.1 ha.tree, (ha.result.mono (fun _ h => h) he).map fun _ _ => trivial⟩

section
variable [HasNodes τ] [HasNodes υ] {P : NodeRef → Prop}

theorem andThen {x : Pass (Analysed τ β)} (hx : x.Keeps Inv (Analysed.Meets (Everywhere P) E)) {second : υ}
    (hsecond : Everywhere P second) {y : β → Pass (Analysed υ γ)}
    (hy : ∀ b, (y b).Keeps Inv (Analysed.Meets (Everywhere P) E)) :
    Keeps Inv (Analysed.Meets (Everywhere P) E) (Pass.andThen x second y) := by
  refine hx.bind fun (t, r) ht => ?_
  cases r with
  | ok b => exact (hy b).bind fun _ hu => .pure ⟨everywhere_pair.mpr ⟨ht.tree, hu.tree⟩, hu.result⟩
  | error e => exact .pure ⟨everywhere_pair.mpr ⟨ht.tree, hsecond⟩, .error (ht.result.of_error rfl)⟩

/-- A second part whose own result is not asked for. -/
theorem keeping {x : Pass (Analysed τ β)} (hx : x.Keeps Inv (Analysed.Meets (Everywhere P) E)) {second : υ}
    (hsecond : Everywhere P second) {y : β → Pass (Analysed υ γ)}
    (hy : ∀ b, (y b).Keeps Inv (Analysed.Meets (Everywhere P) E)) :
    Keeps Inv (Analysed.Meets (Everywhere P) E)
      (Pass.andThen x second fun b => Pass.wrap (y b) id fun _ => b) :=
  hx.andThen hsecond fun b => (hy b).wrap (fun _ h => h) fun _ h => h

end

end Pass.Keeps

/-- A way of finding the modes of calls that keeps the invariant. -/
def CalleeMode.Keeps (Inv : Declarations → Prop) (E : EngineError → Prop) (callee : CalleeMode) : Prop :=
  ∀ key, (callee key).Keeps Inv (EngineResult.FailsOnly (EngineError.Raised E))

/-! ## Parts -/

/-- A kind of the same name whose nodes have the property, or an error that is not blamed yet. -/
abbrev ExpressionKind.Preserved (P : NodeRef → Prop) (E : EngineError → Prop) (name : String) :
    Analysed ExpressionKind Mode → Prop :=
  Analysed.Meets (fun kind => kind.name = name ∧ Everywhere P kind) (EngineError.Raised E)

/-- A kind of clause of the same name whose nodes have the property, or an error. -/
abbrev ClauseKind.Preserved (P : NodeRef → Prop) (E : EngineError → Prop) (name : String) :
    Analysed ClauseKind ClauseScope → Prop :=
  Analysed.Meets (fun kind => kind.name = name ∧ Everywhere P kind) E

section
variable {Inv : Declarations → Prop} {P : NodeRef → Prop} {E : EngineError → Prop} {callee : CalleeMode}

theorem callMode_keeps (h : callee.Keeps Inv E) (name : String) (arity : Nat) (gap declared : Bool) :
    (callMode callee name arity gap declared).Keeps Inv (EngineResult.FailsOnly (EngineError.Raised E)) := by
  unfold callMode
  split
  · exact .pure (.ok trivial)
  · split
    · exact .pure (.error (EngineError.raised_of _))
    · split
      · exact .pure (.ok trivial)
      · exact h _

theorem Expression.mode_failsOnly (hP : NodeRef.Keepable P E) {e : Expression} (he : Everywhere P e) :
    e.mode.FailsOnly E := by
  obtain ⟨kind, position, slot⟩ := e
  rcases slot with ⟨_ | mode⟩
  · exact .error (hP.blamed (everywhere_expression.mp he).1 (EngineError.raised_of _))
  · exact .ok trivial

mutual
theorem Expression.analyse_keeps (hP : NodeRef.Keepable P E) (h : callee.Keeps Inv E) :
    ∀ (e : Expression) (scopes : List Scope), Everywhere P e →
      (e.analyse callee scopes).Keeps Inv (Analysed.Meets (Everywhere P) E)
  | .mk kind position slot, scopes, he => by
    rw [Expression.analyse]
    split
    · exact .done he (Expression.mode_failsOnly hP he)
    · obtain ⟨hnode, hk⟩ := everywhere_expression.mp he
      refine (ExpressionKind.analyse_keeps hP h kind scopes hk).bind fun (kind', r) hkind => ?_
      have hnode' (slot' : ModeSlot) : Everywhere P (Expression.mk kind' position slot') :=
        everywhere_expression.mpr ⟨hP.expression hkind.tree.1 hnode, hkind.tree.2⟩
      cases r with
      | ok mode => exact .pure ⟨hnode' _, .ok trivial⟩
      | error e => exact .pure ⟨hnode' _, .error (hP.blamed hnode (hkind.result.of_error rfl))⟩

theorem ExpressionKind.analyse_keeps (hP : NodeRef.Keepable P E) (h : callee.Keeps Inv E) :
    ∀ (kind : ExpressionKind) (scopes : List Scope), Everywhere P kind →
    (kind.analyse callee scopes).Keeps Inv (ExpressionKind.Preserved P E kind.name)
  | .literal _, _, hk | .contextItem, _, hk | .array none, _, hk => .done ⟨rfl, hk⟩ (.ok trivial)
  | .varRef name, scopes, hk => by
    rw [ExpressionKind.analyse]
    refine .done ⟨rfl, hk⟩ ?_
    split
    · exact .ok trivial
    · exact .error (EngineError.raised_of _)
  | .functionRef name arity, _, hk => by
    rw [ExpressionKind.analyse]
    refine .bind (R := fun _ => True) (.bind .get fun _ _ => .pure trivial) fun known _ =>
      .pure ⟨⟨rfl, hk⟩, ?_⟩
    dsimp only
    split
    · exact .ok trivial
    · exact .error (EngineError.raised_of _)
  | .sequence members, scopes, hk => by
    rw [ExpressionKind.analyse]
    exact (analyseMembers_keeps hP h members scopes hk).wrap (fun _ h => ⟨rfl, h⟩) fun _ => .inl
  | .arithmetic op left right, scopes, hk => by
    obtain ⟨h₁, h₂⟩ : Everywhere P left ∧ Everywhere P right := everywhere_pair.mp hk
    rw [ExpressionKind.analyse]
    exact ((Expression.analyse_keeps hP h left scopes h₁).andThen h₂ fun _ =>
      Expression.analyse_keeps hP h right scopes h₂).wrap (fun _ h => ⟨rfl, h⟩) fun _ => .inl
  | .comparison op left right, scopes, hk => by
    obtain ⟨h₁, h₂⟩ : Everywhere P left ∧ Everywhere P right := everywhere_pair.mp hk
    rw [ExpressionKind.analyse]
    exact ((Expression.analyse_keeps hP h left scopes h₁).andThen h₂ fun _ =>
      Expression.analyse_keeps hP h right scopes h₂).wrap (fun _ h => ⟨rfl, h⟩) fun _ => .inl
  | .logical op left right, scopes, hk => by
    obtain ⟨h₁, h₂⟩ : Everywhere P left ∧ Everywhere P right := everywhere_pair.mp hk
    rw [ExpressionKind.analyse]
    exact ((Expression.analyse_keeps hP h left scopes h₁).andThen h₂ fun _ =>
      Expression.analyse_keeps hP h right scopes h₂).wrap (fun _ h => ⟨rfl, h⟩) fun _ => .inl
  | .range first last, scopes, hk => by
    obtain ⟨h₁, h₂⟩ : Everywhere P first ∧ Everywhere P last := everywhere_pair.mp hk
    rw [ExpressionKind.analyse]
    exact ((Expression.analyse_keeps hP h first scopes h₁).andThen h₂ fun _ =>
      Expression.analyse_keeps hP h last scopes h₂).wrap (fun _ h => ⟨rfl, h⟩) fun _ => .inl
  | .not operand, scopes, hk => by
    rw [ExpressionKind.analyse]
    exact (Expression.analyse_keeps hP h operand scopes hk).wrap (fun _ h => ⟨rfl, h⟩) fun _ => .inl
  | .conditional condition yes no, scopes, hk => by
    obtain ⟨h₁, h'⟩ : Everywhere P condition ∧ Everywhere P (yes, no) := everywhere_pair.mp hk
    obtain ⟨h₂, h₃⟩ := everywhere_pair.mp h'
    rw [ExpressionKind.analyse]
    exact ((Expression.analyse_keeps hP h condition scopes h₁).andThen h' fun _ =>
      (Expression.analyse_keeps hP h yes scopes h₂).andThen h₃ fun _ =>
        Expression.analyse_keeps hP h no scopes h₃).wrap (fun _ h => ⟨rfl, h⟩) fun _ => .inl
  | .object pairs, scopes, hk => by
    rw [ExpressionKind.analyse]
    exact (analysePairs_keeps hP h pairs scopes hk).wrap (fun _ h => ⟨rfl, h⟩) fun _ => .inl
  | .array (some members), scopes, hk => by
    rw [ExpressionKind.analyse]
    exact (Expression.analyse_keeps hP h members scopes hk).wrap (fun _ h => ⟨rfl, h⟩) fun _ => .inl
  | .objectLookup object key, scopes, hk => by
    obtain ⟨h₁, h₂⟩ : Everywhere P object ∧ Everywhere P key := everywhere_pair.mp hk
    rw [ExpressionKind.analyse]
    exact ((Expression.analyse_keeps hP h object scopes h₁).keeping h₂ fun _ =>
      Expression.analyse_keeps hP h key scopes h₂).wrap (fun _ h => ⟨rfl, h⟩) fun _ => .inl
  | .arrayLookup array index, scopes, hk => by
    obtain ⟨h₁, h₂⟩ : Everywhere P array ∧ Everywhere P index := everywhere_pair.mp hk
    rw [ExpressionKind.analyse]
    exact ((Expression.analyse_keeps hP h array scopes h₁).keeping h₂ fun _ =>
      Expression.analyse_keeps hP h index scopes h₂).wrap (fun _ h => ⟨rfl, h⟩) fun _ => .inl
  | .arrayUnbox array, scopes, hk => by
    rw [ExpressionKind.analyse]
    exact (Expression.analyse_keeps hP h array scopes hk).wrap (fun _ h => ⟨rfl, h⟩) fun _ => .inl
  | .filter sequence predicate, scopes, hk => by
    obtain ⟨h₁, h₂⟩ : Everywhere P sequence ∧ Everywhere P predicate := everywhere_pair.mp hk
    rw [ExpressionKind.analyse]
    exact ((Expression.analyse_keeps hP h sequence scopes h₁).keeping h₂ fun _ =>
      Expression.analyse_keeps hP h predicate _ h₂).wrap (fun _ h => ⟨rfl, h⟩) fun _ => .inl
  | .functionCall name given, scopes, hk => by
    rw [ExpressionKind.analyse]
    refine (analyseArguments_keeps hP h given scopes hk).bind fun (given, r) hgiven => ?_
    cases r with
    | error e => exact .pure ⟨⟨rfl, hgiven.tree⟩, .error (.inl (hgiven.result.of_error rfl))⟩
    | ok _ =>
      exact .bind (R := fun _ => True) (.bind .get fun _ _ => .pure trivial) fun declared _ =>
        (callMode_keeps h name given.length _ declared).bind fun _ hmode =>
          .pure ⟨⟨rfl, hgiven.tree⟩, hmode⟩
  | .dynamicCall function given, scopes, hk => by
    obtain ⟨h₁, h₂⟩ : Everywhere P function ∧ Everywhere P given := everywhere_pair.mp hk
    rw [ExpressionKind.analyse]
    exact ((Expression.analyse_keeps hP h function scopes h₁).andThen h₂ fun _ =>
      analyseArguments_keeps hP h given scopes h₂).wrap (fun _ h => ⟨rfl, h⟩) fun _ => .inl
  | .inlineFunction parameters _ body, scopes, hk => by
    rw [ExpressionKind.analyse]
    exact (Expression.analyse_keeps hP h body _ hk).wrap (fun _ h => ⟨rfl, h⟩) fun _ => .inl
  | .flwor clauses result, scopes, hk => by
    obtain ⟨h₁, h₂⟩ : Everywhere P clauses ∧ Everywhere P result := everywhere_pair.mp hk
    rw [ExpressionKind.analyse]
    exact ((analyseClauses_keeps hP h clauses true _ h₁).andThen h₂ fun scope =>
      (Expression.analyse_keeps hP h result scope.scopes h₂).wrap (fun _ h => h) fun _ h => h).wrap
        (fun _ h => ⟨rfl, h⟩) fun _ => .inl

theorem analyseMembers_keeps (hP : NodeRef.Keepable P E) (h : callee.Keeps Inv E) :
    ∀ (members : List Expression) (scopes : List Scope), Everywhere P members →
    (analyseMembers callee scopes members).Keeps Inv (Analysed.Meets (Everywhere P) E)
  | [], _, hk => .done hk (.ok trivial)
  | e :: rest, scopes, hk => by
    obtain ⟨h₁, h₂⟩ := everywhere_cons.mp hk
    rw [analyseMembers]
    exact ((Expression.analyse_keeps hP h e scopes h₁).andThen h₂ fun _ =>
      (analyseMembers_keeps hP h rest scopes h₂).wrap (fun _ h => h) fun _ h => h).wrap
        (fun _ h => everywhere_cons.mpr (everywhere_pair.mp h)) fun _ h => h

theorem analysePairs_keeps (hP : NodeRef.Keepable P E) (h : callee.Keeps Inv E) :
    ∀ (pairs : List (Expression × Expression)) (scopes : List Scope),
    Everywhere P pairs →
    (analysePairs callee scopes pairs).Keeps Inv (Analysed.Meets (Everywhere P) E)
  | [], _, hk => .done hk (.ok trivial)
  | (key, value) :: rest, scopes, hk => by
    obtain ⟨hpair, h₃⟩ := everywhere_cons.mp hk
    obtain ⟨h₁, h₂⟩ := everywhere_pair.mp hpair
    rw [analysePairs]
    refine ((Expression.analyse_keeps hP h key scopes h₁).andThen (everywhere_pair.mpr ⟨h₂, h₃⟩) fun _ =>
      (Expression.analyse_keeps hP h value scopes h₂).andThen h₃ fun _ =>
        analysePairs_keeps hP h rest scopes h₃).wrap (fun t ht => ?_) fun _ h => h
    obtain ⟨h₁, ht⟩ := everywhere_pair.mp ht
    obtain ⟨h₂, h₃⟩ := everywhere_pair.mp ht
    exact everywhere_cons.mpr ⟨everywhere_pair.mpr ⟨h₁, h₂⟩, h₃⟩

theorem analyseArguments_keeps (hP : NodeRef.Keepable P E) (h : callee.Keeps Inv E) :
    ∀ (given : List (Option Expression)) (scopes : List Scope),
    Everywhere P given →
    (analyseArguments callee scopes given).Keeps Inv (Analysed.Meets (Everywhere P) E)
  | [], _, hk => .done hk (.ok trivial)
  | none :: rest, scopes, hk => by
    rw [analyseArguments]
    exact (analyseArguments_keeps hP h rest scopes hk).wrap (fun _ h => h) fun _ h => h
  | some e :: rest, scopes, hk => by
    obtain ⟨h₁, h₂⟩ : Everywhere P e ∧ Everywhere P rest := everywhere_pair.mp hk
    rw [analyseArguments]
    exact ((Expression.analyse_keeps hP h e scopes h₁).andThen h₂ fun _ =>
      analyseArguments_keeps hP h rest scopes h₂).wrap (fun _ h => h) fun _ h => h

theorem analyseClauses_keeps (hP : NodeRef.Keepable P E) (h : callee.Keeps Inv E) :
    ∀ (clauses : List Clause) (isFirst : Bool) (scope : ClauseScope),
    Everywhere P clauses →
    (analyseClauses callee isFirst scope clauses).Keeps Inv (Analysed.Meets (Everywhere P) E)
  | [], _, _, hk => .done hk (.ok trivial)
  | .mk kind position slot :: rest, isFirst, scope, hk => by
    obtain ⟨hclause, hrest⟩ := everywhere_cons.mp hk
    obtain ⟨hnode, hkind⟩ := everywhere_clause.mp hclause
    rw [analyseClauses]
    refine (ClauseKind.analyse_keeps hP h kind isFirst scope position
      (fun fault => hP.blamed hnode (EngineError.raised_of fault)) hkind).bind fun (kind', r) hkind' => ?_
    have hnode' (slot' : ModeSlot) : Everywhere P (Clause.mk kind' position slot') :=
      everywhere_clause.mpr ⟨hP.clause hkind'.tree.1 hnode, hkind'.tree.2⟩
    cases r with
    | error e => exact .pure ⟨everywhere_cons.mpr ⟨hnode' _, hrest⟩, .error (hkind'.result.of_error rfl)⟩
    | ok scope =>
      exact (analyseClauses_keeps hP h rest false scope hrest).bind fun _ hrest =>
        .pure ⟨everywhere_cons.mpr ⟨hnode' _, hrest.tree⟩, hrest.result⟩

theorem ClauseKind.analyse_keeps (hP : NodeRef.Keepable P E) (h : callee.Keeps Inv E) :
    ∀ (kind : ClauseKind) (isFirst : Bool) (scope : ClauseScope)
    (position : SourcePosition), (∀ fault, E ((EngineError.of fault).locate position)) →
    Everywhere P kind →
    (kind.analyse callee isFirst scope position).Keeps Inv (ClauseKind.Preserved P E kind.name)
  | .forEach name place allowingEmpty source, _, scope, _, _, hk => by
    rw [ClauseKind.analyse]
    exact (Expression.analyse_keeps hP h source scope.scopes hk).wrap (fun _ h => ⟨rfl, h⟩) fun _ h => h
  | .letBe name value, _, scope, _, _, hk => by
    rw [ClauseKind.analyse]
    exact (Expression.analyse_keeps hP h value scope.scopes hk).wrap (fun _ h => ⟨rfl, h⟩) fun _ h => h
  | .keepWhere condition, _, scope, _, _, hk => by
    rw [ClauseKind.analyse]
    exact (Expression.analyse_keeps hP h condition scope.scopes hk).wrap (fun _ h => ⟨rfl, h⟩) fun _ h => h
  | .orderBy keys, _, scope, _, _, hk => by
    rw [ClauseKind.analyse]
    exact (analyseOrderKeys_keeps hP h keys scope.scopes hk).wrap (fun _ h => ⟨rfl, h⟩) fun _ h => h
  | .groupBy keys, _, scope, position, hposition, hk => by
    rw [ClauseKind.analyse]
    exact (analyseGroupKeys_keeps hP h keys scope.scopes position hposition hk).wrap
      (fun _ h => ⟨rfl, h⟩) fun _ h => h
  | .count _, _, _, _, _, hk => .done ⟨rfl, hk⟩ (.ok trivial)

theorem analyseOrderKeys_keeps (hP : NodeRef.Keepable P E) (h : callee.Keeps Inv E) :
    ∀ (keys : List (OrderKey Expression)) (scopes : List Scope),
    Everywhere P keys →
    (analyseOrderKeys callee scopes keys).Keeps Inv (Analysed.Meets (Everywhere P) E)
  | [], _, hk => .done hk (.ok trivial)
  | ⟨e, descending, empty⟩ :: rest, scopes, hk => by
    obtain ⟨h₁, h₂⟩ : Everywhere P e ∧ Everywhere P rest := everywhere_pair.mp hk
    rw [analyseOrderKeys]
    exact ((Expression.analyse_keeps hP h e scopes h₁).andThen h₂ fun _ =>
      analyseOrderKeys_keeps hP h rest scopes h₂).wrap (fun _ h => h) fun _ h => h

/-- A key that names no variable is blamed on the clause. -/
theorem analyseGroupKeys_keeps (hP : NodeRef.Keepable P E) (h : callee.Keeps Inv E) :
    ∀ (keys : List (GroupKey Expression)) (scopes : List Scope)
    (position : SourcePosition), (∀ fault, E ((EngineError.of fault).locate position)) → Everywhere P keys →
    (analyseGroupKeys callee scopes position keys).Keeps Inv (Analysed.Meets (Everywhere P) E)
  | [], _, _, _, hk => .done hk (.ok trivial)
  | ⟨name, none⟩ :: rest, scopes, position, hposition, hk => by
    rw [analyseGroupKeys]
    split
    · exact .done hk (.error (hposition _))
    · exact (analyseGroupKeys_keeps hP h rest scopes position hposition hk).wrap (fun _ h => h) fun _ h => h
  | ⟨name, some e⟩ :: rest, scopes, position, hposition, hk => by
    obtain ⟨h₁, h₂⟩ : Everywhere P e ∧ Everywhere P rest := everywhere_pair.mp hk
    rw [analyseGroupKeys]
    exact ((Expression.analyse_keeps hP h e scopes h₁).andThen h₂ fun _ =>
      analyseGroupKeys_keeps hP h rest scopes position hposition h₂).wrap (fun _ h => h) fun _ h => h
end

end

/-! ## Modules -/

/-- Declared functions with the keys and positions of others, whose bodies have a property. -/
structure Declarations.Keep (P : NodeRef → Prop) (D₀ D : Declarations) : Prop where
  heads : D.map (fun d => (d.key, d.position)) = D₀.map fun d => (d.key, d.position)
  bodies : ∀ d ∈ D, Everywhere P d.body

/-- A module whose functions keep keys and positions, and whose nodes have a property. -/
structure QueryModule.Keep (P : NodeRef → Prop) (m₀ m : QueryModule) : Prop where
  functions : Declarations.Keep P m₀.functions m.functions
  body : Everywhere P m.body

namespace Declarations.Keep

variable {P : NodeRef → Prop} {D₀ D : Declarations}

theorem refl (h : ∀ d ∈ D, Everywhere P d.body) : Keep P D D := ⟨rfl, h⟩

theorem keys (h : Keep P D₀ D) : D.map (·.key) = D₀.map (·.key) := by
  simpa only [List.map_map, Function.comp_def] using congrArg (List.map Prod.fst) h.heads

theorem exists_position (h : Keep P D₀ D) {d : FunctionDeclaration} (hd : d ∈ D) :
    ∃ d₀ ∈ D₀, d₀.position = d.position := by
  have hmem : (d.key, d.position) ∈ D₀.map fun d => (d.key, d.position) :=
    h.heads ▸ List.mem_map.mpr ⟨d, hd, rfl⟩
  obtain ⟨d₀, hd₀, heq⟩ := List.mem_map.mp hmem
  exact ⟨d₀, hd₀, (Prod.mk.inj heq).2⟩

theorem setBody (h : Keep P D₀ D) (key : FunctionKey) {body : Expression} (hbody : Everywhere P body) :
    Keep P D₀ (setBody D key body) where
  heads := by
    rw [HybridQuery.setBody, List.map_map, ← h.heads]
    refine List.map_congr_left fun d _ => ?_
    dsimp only [Function.comp_apply]
    split <;> rfl
  bodies := by
    refine List.forall_mem_map.mpr fun d hd => ?_
    split
    · exact hbody
    · exact h.bodies d hd

end Declarations.Keep

section
variable {P : NodeRef → Prop} {E : EngineError → Prop} (hP : NodeRef.Keepable P E) {D₀ : Declarations}
include hP

/-- A call of a declared function fails with a failure of its body. -/
theorem declaredMode_keeps (level : Nat) (inProgress : List FunctionKey) (key : FunctionKey) :
    (declaredMode level inProgress key).Keeps (Declarations.Keep P D₀) fun r =>
      r.FailsOnly (EngineError.Raised E) ∧ (key ∈ D₀.map (·.key) → r.FailsOnly E) := by
  induction level generalizing inProgress key with
  | zero => exact .pure ⟨.ok trivial, fun _ => .ok trivial⟩
  | succ level ih =>
    have hcallee : (declaredMode level (key :: inProgress)).Keeps (Declarations.Keep P D₀) E :=
      fun key' => (ih (key :: inProgress) key').mono fun _ hr => hr.1
    rw [declaredMode]
    split
    · exact .pure ⟨.ok trivial, fun _ => .ok trivial⟩
    · refine .bind .get fun D hD => ?_
      split
      · next hfind =>
        refine .pure ⟨.error (EngineError.raised_of _), fun hkey => ?_⟩
        rw [← hD.keys] at hkey
        obtain ⟨d, hd, rfl⟩ := List.mem_map.mp hkey
        exact absurd (beq_self_eq_true d.key) (List.find?_eq_none.mp hfind d hd)
      · next d hd =>
        exact (Expression.analyse_keeps hP hcallee d.body _ (hD.bodies d (List.mem_of_find?_eq_some hd))).bind
          fun (body, r) hbody => .bind (.modify fun D hD => hD.setBody key hbody.tree) fun _ _ =>
            .pure ⟨hbody.result.mono (fun _ h => h) fun _ => .inl, fun _ => hbody.result⟩

theorem analyseDeclared_keeps (level : Nat) {keys : List FunctionKey}
    (hkeys : ∀ key ∈ keys, key ∈ D₀.map (·.key)) :
    (analyseDeclared (declaredMode level []) keys).Keeps (Declarations.Keep P D₀)
      (EngineResult.FailsOnly E) := by
  induction keys with
  | nil => exact .pure (.ok trivial)
  | cons key keys ih =>
    obtain ⟨hkey, hkeys⟩ := List.forall_mem_cons.mp hkeys
    refine (declaredMode_keeps hP level [] key).bind fun r hr => ?_
    cases r with
    | ok _ => exact ih hkeys
    | error e => exact .pure (.error ((hr.2 hkey).of_error rfl))

omit hP in
theorem checkDeclarations_failsOnly {D : Declarations}
    (hD : ∀ d ∈ D, ∀ fault, E ((EngineError.of fault).locate d.position)) (seen : List FunctionKey) :
    (checkDeclarations seen D).FailsOnly E := by
  induction D generalizing seen with
  | nil => exact .ok trivial
  | cons d D ih =>
    obtain ⟨hd, hD⟩ := List.forall_mem_cons.mp hD
    rw [checkDeclarations]
    split
    · exact .error (hd _)
    · split
      · exact .error (hd _)
      · exact ih hD _

/-- Analysis keeps a module, whether it succeeds or not, and fails with an error that is blamed on a node or a
declaration. -/
theorem QueryModule.analyse_keeps {m : QueryModule} (hm : m.Keep P m)
    (hd : ∀ d ∈ m.functions, ∀ fault, E ((EngineError.of fault).locate d.position)) :
    m.Keep P m.analyse.1 ∧ m.analyse.2.FailsOnly E := by
  have hcallee : (declaredMode (m.functions.length + 1) []).Keeps (Declarations.Keep P m.functions) E :=
    fun key => (declaredMode_keeps hP _ [] key).mono fun _ hr => hr.1
  have hdeclared := analyseDeclared_keeps hP (m.functions.length + 1) (fun _ hkey => hkey) m.functions
    hm.functions
  have hcheck := checkDeclarations_failsOnly hd []
  rw [analyse]
  cases hc : checkDeclarations [] m.functions with
  | error e => exact ⟨hm, .error (hcheck.of_error hc)⟩
  | ok _ =>
    dsimp only
    rcases hx : (analyseDeclared (declaredMode (m.functions.length + 1) [])
      (m.functions.map (·.key))).run m.functions with ⟨e | _, D⟩
    all_goals simp only [hx] at hdeclared ⊢
    · exact ⟨⟨hdeclared.2, hm.body⟩, .error (hdeclared.1.of_error rfl)⟩
    · obtain ⟨hbody, hD⟩ := Expression.analyse_keeps hP hcallee m.body [] hm.body D hdeclared.2
      exact ⟨⟨hD, hbody.tree⟩, hbody.result.map fun _ _ => trivial⟩

end
end HybridQuery
