import HybridQuery.Plan.Compile
import HybridQuery.Proofs.Modes.Keeping

/-!
# What compilation makes of nodes

Compilation makes a plan of every expression and a link of a chain of every clause. A property of plans
that follows from one of the node that a plan is made of and from the plans directly below it holds of
everything that is compiled.

* `Operation.parts`: the plans directly below an operation. `Operation.pipeline`: its clauses.
* `NodeRef.CompilesTo`: a property of nodes with properties of the plans, chains and errors that are made
  of such nodes.
* `Expression.compile_endsIn` and its like: one lemma for every part.
* `QueryModule.compile_endsIn`: what compilation makes of a module.
-/

namespace HybridQuery

/-! ## Parts of plans -/

/-- The plans directly below a navigation step. -/
def NavigationStep.parts : NavigationStep → List Plan
  | objectLookup key => [key]
  | arrayLookup index => [index]
  | arrayUnbox => []
  | filter predicate => [predicate]

/-- The plans directly below a computation. -/
def Computation.parts : Computation → List Plan
  | literal _ | contextItem | functionRef _ _ => []
  | arithmetic _ left right => [left, right]
  | comparison _ left right => [left, right]
  | logical _ left right => [left, right]
  | not operand => [operand]
  | object pairs => pairs.flatMap fun pair => [pair.1, pair.2]
  | array members => members.toList
  | builtin _ arguments => arguments
  | inlineFunction _ _ body => [body]

/-- The plans directly below a clause. -/
def ClauseOperation.parts : ClauseOperation → List Plan
  | forEach _ _ _ source => [source]
  | letBe _ value => [value]
  | keepWhere condition => [condition]
  | orderBy keys => keys.map (·.expression)
  | groupBy keys => keys.filterMap (·.expression)
  | count _ => []

/-- The plans directly below the clauses of a chain. -/
def Pipeline.parts : Pipeline → List Plan
  | start => []
  | clause _ _ operation feed => operation.parts ++ feed.parts

/-- The plans directly below an operation. -/
def Operation.parts : Operation → List Plan
  | compute computation => computation.parts
  | sequence members => members
  | varRef _ => []
  | range first last => [first, last]
  | conditional condition yes no => [condition, yes, no]
  | navigate step input => input :: step.parts
  | staticCall _ arguments => arguments.filterMap id
  | dynamicCall function arguments => function :: arguments.filterMap id
  | flwor pipeline result => result :: pipeline.parts

/-- The clauses of an operation. -/
def Operation.pipeline : Operation → Pipeline
  | flwor pipeline _ => pipeline
  | _ => .start

theorem forall_mem_two {Q : Plan → Prop} {p q : Plan} : (∀ r ∈ [p, q], Q r) ↔ Q p ∧ Q q := by
  rw [List.forall_mem_cons, List.forall_mem_singleton]

/-! ## Properties of what is compiled -/

/-- A property `P` of nodes such that the plans made of nodes with it have the property `Q` if the plans
below them do, that chains of clauses with it have the property `B`, and that what such nodes are blamed
for has the property `E`. -/
structure NodeRef.CompilesTo (c : Catalogue) (P : NodeRef → Prop) (E : EngineError → Prop)
    (Q : Plan → Prop) (B : Pipeline → Prop) : Prop where
  mode {d : NodeRef} (h : P d) (name : String) : ((d.slot.get name).locate d.position).FailsOnly E
  type {d : NodeRef} (h : P d) (type : SequenceType) : (c.checkAt type d.position).FailsOnly E
  plan {kind : ExpressionKind} {position : SourcePosition} {slot : ModeSlot} {operation : Operation}
    (h : P (.expression (.mk kind position slot))) (mode : Mode) (hpipeline : B operation.pipeline)
    (hparts : ∀ p ∈ operation.parts, Q p) : Q (.mk mode position operation)
  start : B .start
  clause {kind : ClauseKind} {position : SourcePosition} {slot : ModeSlot} {operation : ClauseOperation}
    {feed : Pipeline} (h : P (.clause (.mk kind position slot))) (mode : Mode)
    (hname : operation.name = kind.name) (hparts : ∀ p ∈ operation.parts, Q p) (hfeed : B feed) :
    B (.clause mode position operation feed)

/-- An operation whose clauses and the plans below it have the properties. -/
structure Operation.Over (Q : Plan → Prop) (B : Pipeline → Prop) (operation : Operation) : Prop where
  pipeline : B operation.pipeline
  parts : ∀ p ∈ operation.parts, Q p

/-- A chain that has the property, and so do the plans below its clauses. -/
structure Pipeline.Over (Q : Plan → Prop) (B : Pipeline → Prop) (b : Pipeline) : Prop where
  pipeline : B b
  parts : ∀ p ∈ b.parts, Q p

/-- A clause of this name over plans with the property. -/
structure ClauseOperation.Over (Q : Plan → Prop) (name : String) (operation : ClauseOperation) : Prop where
  name_eq : operation.name = name
  parts : ∀ p ∈ operation.parts, Q p

section
variable {c : Catalogue} {P : NodeRef → Prop} {E : EngineError → Prop} {Q : Plan → Prop}
  {B : Pipeline → Prop}

theorem callOperation_over (hstart : B .start) (name : String) {given : List (Option Plan)}
    (h : ∀ p ∈ given.filterMap id, Q p) : (callOperation name given).Over Q B := by
  unfold callOperation
  split
  · split <;> exact ⟨hstart, h⟩
  · exact ⟨hstart, h⟩

/-- A signature is refused for one of its types. -/
theorem compileSignature_failsOnly {position : SourcePosition}
    (h : ∀ type, (c.checkAt type position).FailsOnly E) (parameters : List Parameter)
    (returnType : SequenceType) : (compileSignature c parameters returnType position).FailsOnly E := by
  have hparameters : (checkParameters c position parameters).FailsOnly E := by
    induction parameters with
    | nil => exact .ok trivial
    | cons p parameters ih => exact (h p.type).bind fun _ _ => ih
  exact hparameters.bind fun _ _ => (h returnType).bind fun _ _ => .ok trivial

mutual
theorem Expression.compile_endsIn (h : NodeRef.CompilesTo c P E Q B) :
    ∀ e : Expression, Everywhere P e → EndsIn Q E (e.compile c)
  | .mk kind position slot, he => by
    obtain ⟨hnode, hk⟩ := everywhere_expression.mp he
    rw [Expression.compile]
    exact (h.mode hnode kind.name).bind fun mode _ =>
      (ExpressionKind.compile_endsIn h kind position (h.type hnode) hk).bind fun _ ho =>
        .ok (h.plan hnode mode ho.pipeline ho.parts)

theorem ExpressionKind.compile_endsIn (h : NodeRef.CompilesTo c P E Q B) :
    ∀ (kind : ExpressionKind) (position : SourcePosition),
      (∀ type, (c.checkAt type position).FailsOnly E) → Everywhere P kind →
        EndsIn (Operation.Over Q B) E (kind.compile c position)
  | .literal _, _, _, _ | .contextItem, _, _, _ | .varRef _, _, _, _ | .functionRef _ _, _, _, _
  | .array none, _, _, _ => .ok ⟨h.start, List.forall_mem_nil _⟩
  | .sequence members, _, _, hk => by
    rw [ExpressionKind.compile]
    exact (compileMembers_endsIn h members hk).bind fun _ h₁ => .ok ⟨h.start, h₁⟩
  | .arithmetic op left right, _, _, hk => by
    obtain ⟨h₁, h₂⟩ : Everywhere P left ∧ Everywhere P right := everywhere_pair.mp hk
    rw [ExpressionKind.compile]
    exact (Expression.compile_endsIn h left h₁).bind fun _ h₁ =>
      (Expression.compile_endsIn h right h₂).bind fun _ h₂ => .ok ⟨h.start, forall_mem_two.mpr ⟨h₁, h₂⟩⟩
  | .comparison op left right, _, _, hk => by
    obtain ⟨h₁, h₂⟩ : Everywhere P left ∧ Everywhere P right := everywhere_pair.mp hk
    rw [ExpressionKind.compile]
    exact (Expression.compile_endsIn h left h₁).bind fun _ h₁ =>
      (Expression.compile_endsIn h right h₂).bind fun _ h₂ => .ok ⟨h.start, forall_mem_two.mpr ⟨h₁, h₂⟩⟩
  | .logical op left right, _, _, hk => by
    obtain ⟨h₁, h₂⟩ : Everywhere P left ∧ Everywhere P right := everywhere_pair.mp hk
    rw [ExpressionKind.compile]
    exact (Expression.compile_endsIn h left h₁).bind fun _ h₁ =>
      (Expression.compile_endsIn h right h₂).bind fun _ h₂ => .ok ⟨h.start, forall_mem_two.mpr ⟨h₁, h₂⟩⟩
  | .range first last, _, _, hk => by
    obtain ⟨h₁, h₂⟩ : Everywhere P first ∧ Everywhere P last := everywhere_pair.mp hk
    rw [ExpressionKind.compile]
    exact (Expression.compile_endsIn h first h₁).bind fun _ h₁ =>
      (Expression.compile_endsIn h last h₂).bind fun _ h₂ => .ok ⟨h.start, forall_mem_two.mpr ⟨h₁, h₂⟩⟩
  | .not operand, _, _, hk => by
    rw [ExpressionKind.compile]
    exact (Expression.compile_endsIn h operand hk).bind fun _ h₁ =>
      .ok ⟨h.start, List.forall_mem_singleton.mpr h₁⟩
  | .conditional condition yes no, _, _, hk => by
    obtain ⟨h₁, h'⟩ : Everywhere P condition ∧ Everywhere P (yes, no) := everywhere_pair.mp hk
    obtain ⟨h₂, h₃⟩ := everywhere_pair.mp h'
    rw [ExpressionKind.compile]
    exact (Expression.compile_endsIn h condition h₁).bind fun _ h₁ =>
      (Expression.compile_endsIn h yes h₂).bind fun _ h₂ =>
        (Expression.compile_endsIn h no h₃).bind fun _ h₃ =>
          .ok ⟨h.start, List.forall_mem_cons.mpr ⟨h₁, forall_mem_two.mpr ⟨h₂, h₃⟩⟩⟩
  | .object pairs, _, _, hk => by
    rw [ExpressionKind.compile]
    exact (compilePairs_endsIn h pairs hk).bind fun _ h₁ => .ok ⟨h.start, h₁⟩
  | .array (some members), _, _, hk => by
    rw [ExpressionKind.compile]
    exact (Expression.compile_endsIn h members hk).bind fun _ h₁ =>
      .ok ⟨h.start, List.forall_mem_singleton.mpr h₁⟩
  | .objectLookup object key, _, _, hk => by
    obtain ⟨h₁, h₂⟩ : Everywhere P object ∧ Everywhere P key := everywhere_pair.mp hk
    rw [ExpressionKind.compile]
    exact (Expression.compile_endsIn h key h₂).bind fun _ h₂ =>
      (Expression.compile_endsIn h object h₁).bind fun _ h₁ => .ok ⟨h.start, forall_mem_two.mpr ⟨h₁, h₂⟩⟩
  | .arrayLookup array index, _, _, hk => by
    obtain ⟨h₁, h₂⟩ : Everywhere P array ∧ Everywhere P index := everywhere_pair.mp hk
    rw [ExpressionKind.compile]
    exact (Expression.compile_endsIn h index h₂).bind fun _ h₂ =>
      (Expression.compile_endsIn h array h₁).bind fun _ h₁ => .ok ⟨h.start, forall_mem_two.mpr ⟨h₁, h₂⟩⟩
  | .arrayUnbox array, _, _, hk => by
    rw [ExpressionKind.compile]
    exact (Expression.compile_endsIn h array hk).bind fun _ h₁ =>
      .ok ⟨h.start, List.forall_mem_singleton.mpr h₁⟩
  | .filter sequence predicate, _, _, hk => by
    obtain ⟨h₁, h₂⟩ : Everywhere P sequence ∧ Everywhere P predicate := everywhere_pair.mp hk
    rw [ExpressionKind.compile]
    exact (Expression.compile_endsIn h predicate h₂).bind fun _ h₂ =>
      (Expression.compile_endsIn h sequence h₁).bind fun _ h₁ =>
        .ok ⟨h.start, forall_mem_two.mpr ⟨h₁, h₂⟩⟩
  | .functionCall name given, _, _, hk => by
    rw [ExpressionKind.compile]
    exact (compileArguments_endsIn h given hk).bind fun _ h₁ => .ok (callOperation_over h.start name h₁)
  | .dynamicCall function given, _, _, hk => by
    obtain ⟨h₁, h₂⟩ : Everywhere P function ∧ Everywhere P given := everywhere_pair.mp hk
    rw [ExpressionKind.compile]
    exact (Expression.compile_endsIn h function h₁).bind fun _ h₁ =>
      (compileArguments_endsIn h given h₂).bind fun _ h₂ =>
        .ok ⟨h.start, List.forall_mem_cons.mpr ⟨h₁, h₂⟩⟩
  | .inlineFunction parameters returnType body, _, htypes, hk => by
    rw [ExpressionKind.compile]
    exact (compileSignature_failsOnly htypes parameters returnType).bind fun _ _ =>
      (Expression.compile_endsIn h body hk).bind fun _ h₁ =>
        .ok ⟨h.start, List.forall_mem_singleton.mpr h₁⟩
  | .flwor clauses result, _, _, hk => by
    obtain ⟨h₁, h₂⟩ : Everywhere P clauses ∧ Everywhere P result := everywhere_pair.mp hk
    rw [ExpressionKind.compile]
    exact (compileClauses_endsIn h clauses .start ⟨h.start, List.forall_mem_nil _⟩ h₁).bind fun _ h₁ =>
      (Expression.compile_endsIn h result h₂).bind fun _ h₂ =>
        .ok ⟨h₁.pipeline, List.forall_mem_cons.mpr ⟨h₂, h₁.parts⟩⟩

theorem compileMembers_endsIn (h : NodeRef.CompilesTo c P E Q B) :
    ∀ members : List Expression, Everywhere P members →
      EndsIn (fun ps => ∀ p ∈ ps, Q p) E (compileMembers c members)
  | [], _ => .ok (List.forall_mem_nil _)
  | e :: rest, hk => by
    obtain ⟨h₁, h₂⟩ := everywhere_cons.mp hk
    rw [compileMembers]
    exact (Expression.compile_endsIn h e h₁).bind fun _ h₁ =>
      (compileMembers_endsIn h rest h₂).bind fun _ h₂ => .ok (List.forall_mem_cons.mpr ⟨h₁, h₂⟩)

theorem compilePairs_endsIn (h : NodeRef.CompilesTo c P E Q B) :
    ∀ pairs : List (Expression × Expression), Everywhere P pairs →
      EndsIn (fun ps => ∀ p ∈ ps.flatMap fun pair => [pair.1, pair.2], Q p) E (compilePairs c pairs)
  | [], _ => .ok (List.forall_mem_nil _)
  | (key, value) :: rest, hk => by
    obtain ⟨hpair, h₃⟩ := everywhere_cons.mp hk
    obtain ⟨h₁, h₂⟩ := everywhere_pair.mp hpair
    rw [compilePairs]
    exact (Expression.compile_endsIn h key h₁).bind fun _ h₁ =>
      (Expression.compile_endsIn h value h₂).bind fun _ h₂ =>
        (compilePairs_endsIn h rest h₃).bind fun _ h₃ =>
          .ok (List.forall_mem_append.mpr ⟨forall_mem_two.mpr ⟨h₁, h₂⟩, h₃⟩)

theorem compileArguments_endsIn (h : NodeRef.CompilesTo c P E Q B) :
    ∀ given : List (Option Expression), Everywhere P given →
      EndsIn (fun ps => ∀ p ∈ ps.filterMap id, Q p) E (compileArguments c given)
  | [], _ => .ok (List.forall_mem_nil _)
  | none :: rest, hk => by
    rw [compileArguments]
    exact (compileArguments_endsIn h rest hk).bind fun _ h₁ => .ok h₁
  | some e :: rest, hk => by
    obtain ⟨h₁, h₂⟩ : Everywhere P e ∧ Everywhere P rest := everywhere_pair.mp hk
    rw [compileArguments]
    exact (Expression.compile_endsIn h e h₁).bind fun _ h₁ =>
      (compileArguments_endsIn h rest h₂).bind fun _ h₂ => .ok (List.forall_mem_cons.mpr ⟨h₁, h₂⟩)

theorem compileClauses_endsIn (h : NodeRef.CompilesTo c P E Q B) :
    ∀ (clauses : List Clause) (feed : Pipeline), feed.Over Q B → Everywhere P clauses →
      EndsIn (Pipeline.Over Q B) E (compileClauses c feed clauses)
  | [], _, hfeed, _ => .ok hfeed
  | .mk kind position slot :: rest, feed, hfeed, hk => by
    obtain ⟨hclause, hrest⟩ := everywhere_cons.mp hk
    obtain ⟨hnode, hkind⟩ := everywhere_clause.mp hclause
    rw [compileClauses]
    refine (h.mode hnode kind.name).bind fun mode _ => (ClauseKind.compile_endsIn h kind hkind).bind
      fun _ ho => compileClauses_endsIn h rest _ ?_ hrest
    exact ⟨h.clause hnode mode ho.name_eq ho.parts hfeed.pipeline,
      List.forall_mem_append.mpr ⟨ho.parts, hfeed.parts⟩⟩

theorem ClauseKind.compile_endsIn (h : NodeRef.CompilesTo c P E Q B) :
    ∀ kind : ClauseKind, Everywhere P kind →
      EndsIn (ClauseOperation.Over Q kind.name) E (kind.compile c)
  | .forEach name place allowingEmpty source, hk => by
    rw [ClauseKind.compile]
    exact (Expression.compile_endsIn h source hk).bind fun _ h₁ =>
      .ok ⟨rfl, List.forall_mem_singleton.mpr h₁⟩
  | .letBe name value, hk => by
    rw [ClauseKind.compile]
    exact (Expression.compile_endsIn h value hk).bind fun _ h₁ =>
      .ok ⟨rfl, List.forall_mem_singleton.mpr h₁⟩
  | .keepWhere condition, hk => by
    rw [ClauseKind.compile]
    exact (Expression.compile_endsIn h condition hk).bind fun _ h₁ =>
      .ok ⟨rfl, List.forall_mem_singleton.mpr h₁⟩
  | .orderBy keys, hk => by
    rw [ClauseKind.compile]
    exact (compileOrderKeys_endsIn h keys hk).bind fun _ h₁ => .ok ⟨rfl, h₁⟩
  | .groupBy keys, hk => by
    rw [ClauseKind.compile]
    exact (compileGroupKeys_endsIn h keys hk).bind fun _ h₁ => .ok ⟨rfl, h₁⟩
  | .count _, _ => .ok ⟨rfl, List.forall_mem_nil _⟩

theorem compileOrderKeys_endsIn (h : NodeRef.CompilesTo c P E Q B) :
    ∀ keys : List (OrderKey Expression), Everywhere P keys →
      EndsIn (fun ks => ∀ p ∈ ks.map (·.expression), Q p) E (compileOrderKeys c keys)
  | [], _ => .ok (List.forall_mem_nil _)
  | ⟨e, _, _⟩ :: rest, hk => by
    obtain ⟨h₁, h₂⟩ : Everywhere P e ∧ Everywhere P rest := everywhere_pair.mp hk
    rw [compileOrderKeys]
    exact (Expression.compile_endsIn h e h₁).bind fun _ h₁ =>
      (compileOrderKeys_endsIn h rest h₂).bind fun _ h₂ => .ok (List.forall_mem_cons.mpr ⟨h₁, h₂⟩)

theorem compileGroupKeys_endsIn (h : NodeRef.CompilesTo c P E Q B) :
    ∀ keys : List (GroupKey Expression), Everywhere P keys →
      EndsIn (fun ks => ∀ p ∈ ks.filterMap (·.expression), Q p) E (compileGroupKeys c keys)
  | [], _ => .ok (List.forall_mem_nil _)
  | ⟨_, none⟩ :: rest, hk => by
    rw [compileGroupKeys]
    exact (compileGroupKeys_endsIn h rest hk).bind fun _ h₁ => .ok h₁
  | ⟨_, some e⟩ :: rest, hk => by
    obtain ⟨h₁, h₂⟩ : Everywhere P e ∧ Everywhere P rest := everywhere_pair.mp hk
    rw [compileGroupKeys]
    exact (Expression.compile_endsIn h e h₁).bind fun _ h₁ =>
      (compileGroupKeys_endsIn h rest h₂).bind fun _ h₂ => .ok (List.forall_mem_cons.mpr ⟨h₁, h₂⟩)
end

/-! ## Modules -/

/-- What a declaration is refused for has the property: a type that is unknown, or a key that was declared
before. -/
structure FunctionDeclaration.RefusedOnly (c : Catalogue) (E : EngineError → Prop)
    (d : FunctionDeclaration) : Prop where
  type (type : SequenceType) : (c.checkAt type d.position).FailsOnly E
  twice (key : FunctionKey) : E ((EngineError.of (.declaredTwice key)).locate d.position)

theorem compileDeclarations_endsIn (h : NodeRef.CompilesTo c P E Q B) {D : Declarations}
    (hbodies : ∀ d ∈ D, Everywhere P d.body) (hD : ∀ d ∈ D, d.RefusedOnly c E)
    {compiled : List FunctionPlan} (hcompiled : ∀ f ∈ compiled, Q f.body) :
    EndsIn (fun fs : List FunctionPlan => ∀ f ∈ fs, Q f.body) E (compileDeclarations c compiled D) := by
  induction D generalizing compiled with
  | nil => exact .ok hcompiled
  | cons d D ih =>
    obtain ⟨hbody, hbodies⟩ := List.forall_mem_cons.mp hbodies
    obtain ⟨hd, hD⟩ := List.forall_mem_cons.mp hD
    have hcompile : EndsIn (fun f : FunctionPlan => Q f.body) E (d.compile c) :=
      (compileSignature_failsOnly hd.type d.parameters d.returnType).bind fun _ _ =>
        (Expression.compile_endsIn h d.body hbody).bind fun _ hf => .ok hf
    refine hcompile.bind fun f hf => ?_
    split
    · exact .error (hd.twice f.key)
    · exact ih hbodies hD (List.forall_mem_append.mpr ⟨hcompiled, List.forall_mem_singleton.mpr hf⟩)

/-- A module of nodes with the property is compiled to plans with theirs, or fails as they fail. -/
theorem QueryModule.compile_endsIn (h : NodeRef.CompilesTo c P E Q B) {m : QueryModule}
    (hbody : Everywhere P m.body) (hbodies : ∀ d ∈ m.functions, Everywhere P d.body)
    (hfunctions : ∀ d ∈ m.functions, d.RefusedOnly c E) :
    EndsIn (fun plan : ModulePlan => Q plan.body ∧ ∀ f ∈ plan.functions, Q f.body) E (m.compile c) :=
  (compileDeclarations_endsIn h hbodies hfunctions (List.forall_mem_nil _)).bind fun _ hfs =>
    (Expression.compile_endsIn h m.body hbody).bind fun _ hb => .ok ⟨hb, hfs⟩

end
end HybridQuery
