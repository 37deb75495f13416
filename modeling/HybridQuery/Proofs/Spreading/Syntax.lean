import HybridQuery.Proofs.Spreading.Relation
import HybridQuery.Syntax.Outline

/-!
# Handing parts of a module to `parallelize`

* `Expression.Wraps`, `QueryModule.Wraps`: modules in one of which any sub-expressions are handed to
  `parallelize`. Neither was analysed before, and neither reads a columnar source, orders or groups.
* `QueryModule.lets`: the modes of all `let` clauses and of what they bind. `QueryModule.KeepsLets`
  says of analysed modules that no `let` of a distributed value has been moved from a stream on the
  host to a distributed one.
* `Expression.handed`: an expression that is handed to `parallelize`.
-/

namespace HybridQuery

/-! ## Modules -/

mutual
/-- An expression and one in which any sub-expressions of it are handed to `parallelize`. -/
inductive Expression.Wraps : Expression → Expression → Prop
  | node {k' k : ExpressionKind} (position : SourcePosition) (h : ExpressionKind.Wraps k' k) :
      Expression.Wraps (.mk k' position .empty) (.mk k position .empty)
  | wrap {e' e : Expression} (position place : SourcePosition) (partitions : Int)
      (h : Expression.Wraps e' e) :
      Expression.Wraps
        (.mk (.functionCall Builtin.parallelize.name
          [some e', some (.mk (.literal (.integer partitions)) place .empty)]) position .empty) e

/-- The same of what expressions are. -/
inductive ExpressionKind.Wraps : ExpressionKind → ExpressionKind → Prop
  | literal (value : Json) : ExpressionKind.Wraps (.literal value) (.literal value)
  | sequence {es' es : List Expression} (h : List.Forall₂ Expression.Wraps es' es) :
      ExpressionKind.Wraps (.sequence es') (.sequence es)
  | varRef (name : String) : ExpressionKind.Wraps (.varRef name) (.varRef name)
  | contextItem : ExpressionKind.Wraps .contextItem .contextItem
  | arithmetic {l' l r' r : Expression} (op : ArithmeticOp) (hl : Expression.Wraps l' l)
      (hr : Expression.Wraps r' r) :
      ExpressionKind.Wraps (.arithmetic op l' r') (.arithmetic op l r)
  | comparison {l' l r' r : Expression} (op : ComparisonOp) (hl : Expression.Wraps l' l)
      (hr : Expression.Wraps r' r) :
      ExpressionKind.Wraps (.comparison op l' r') (.comparison op l r)
  | logical {l' l r' r : Expression} (op : LogicalOp) (hl : Expression.Wraps l' l)
      (hr : Expression.Wraps r' r) : ExpressionKind.Wraps (.logical op l' r') (.logical op l r)
  | not {e' e : Expression} (h : Expression.Wraps e' e) : ExpressionKind.Wraps (.not e') (.not e)
  | conditional {c' c yes' yes no' no : Expression} (hc : Expression.Wraps c' c)
      (hy : Expression.Wraps yes' yes) (hn : Expression.Wraps no' no) :
      ExpressionKind.Wraps (.conditional c' yes' no') (.conditional c yes no)
  | range {first' first last' last : Expression} (hf : Expression.Wraps first' first)
      (hl : Expression.Wraps last' last) :
      ExpressionKind.Wraps (.range first' last') (.range first last)
  | object {ps' ps : List (Expression × Expression)} (h : List.Forall₂ (Both Expression.Wraps) ps' ps) :
      ExpressionKind.Wraps (.object ps') (.object ps)
  | array {m' m : Option Expression} (h : Option.Rel Expression.Wraps m' m) :
      ExpressionKind.Wraps (.array m') (.array m)
  | objectLookup {o' o key' key : Expression} (ho : Expression.Wraps o' o)
      (hk : Expression.Wraps key' key) :
      ExpressionKind.Wraps (.objectLookup o' key') (.objectLookup o key)
  | arrayLookup {a' a index' index : Expression} (ha : Expression.Wraps a' a)
      (hi : Expression.Wraps index' index) :
      ExpressionKind.Wraps (.arrayLookup a' index') (.arrayLookup a index)
  | arrayUnbox {a' a : Expression} (h : Expression.Wraps a' a) :
      ExpressionKind.Wraps (.arrayUnbox a') (.arrayUnbox a)
  | filter {s' s p' p : Expression} (hs : Expression.Wraps s' s) (hp : Expression.Wraps p' p) :
      ExpressionKind.Wraps (.filter s' p') (.filter s p)
  | functionCall {as' as : List (Option Expression)} {name : String}
      (hname : Builtin.find? name as.length ≠ some .structuredJsonFile)
      (h : List.Forall₂ (Option.Rel Expression.Wraps) as' as) :
      ExpressionKind.Wraps (.functionCall name as') (.functionCall name as)
  | dynamicCall {f' f : Expression} {as' as : List (Option Expression)} (hf : Expression.Wraps f' f)
      (h : List.Forall₂ (Option.Rel Expression.Wraps) as' as) :
      ExpressionKind.Wraps (.dynamicCall f' as') (.dynamicCall f as)
  | inlineFunction {e' e : Expression} (parameters : List Parameter) (returnType : SequenceType)
      (h : Expression.Wraps e' e) :
      ExpressionKind.Wraps (.inlineFunction parameters returnType e')
        (.inlineFunction parameters returnType e)
  | functionRef {name : String} {arity : Nat}
      (hname : Builtin.find? name arity ≠ some .structuredJsonFile) :
      ExpressionKind.Wraps (.functionRef name arity) (.functionRef name arity)
  | flwor {cs' cs : List Clause} {r' r : Expression} (hc : List.Forall₂ Clause.Wraps cs' cs)
      (hr : Expression.Wraps r' r) : ExpressionKind.Wraps (.flwor cs' r') (.flwor cs r)

/-- The same of clauses. -/
inductive Clause.Wraps : Clause → Clause → Prop
  | mk {k' k : ClauseKind} (position : SourcePosition) (h : ClauseKind.Wraps k' k) :
      Clause.Wraps (.mk k' position .empty) (.mk k position .empty)

/-- The same of what clauses are. -/
inductive ClauseKind.Wraps : ClauseKind → ClauseKind → Prop
  | forEach {e' e : Expression} (name : String) (place : Option String) (allowingEmpty : Bool)
      (h : Expression.Wraps e' e) :
      ClauseKind.Wraps (.forEach name place allowingEmpty e') (.forEach name place allowingEmpty e)
  | letBe {e' e : Expression} (name : String) (h : Expression.Wraps e' e) :
      ClauseKind.Wraps (.letBe name e') (.letBe name e)
  | keepWhere {e' e : Expression} (h : Expression.Wraps e' e) :
      ClauseKind.Wraps (.keepWhere e') (.keepWhere e)
  | count (name : String) : ClauseKind.Wraps (.count name) (.count name)
end

/-- The same of declared functions. -/
structure FunctionDeclaration.Wraps (d' d : FunctionDeclaration) : Prop where
  name : d'.name = d.name
  parameters : d'.parameters = d.parameters
  returnType : d'.returnType = d.returnType
  position : d'.position = d.position
  body : d'.body.Wraps d.body

/-- A module and one in which any sub-expressions of it are handed to `parallelize`. -/
structure QueryModule.Wraps (m' m : QueryModule) : Prop where
  functions : List.Forall₂ FunctionDeclaration.Wraps m'.functions m.functions
  body : m'.body.Wraps m.body

/-! ## Expressions that are handed over -/

/-- An expression at no position that is not analysed. -/
def ExpressionKind.bare (kind : ExpressionKind) : Expression := .mk kind .unknown .empty

/-- An expression that is handed to `parallelize`. -/
def Expression.handed (e : Expression) (partitions : Int) : Expression :=
  (ExpressionKind.functionCall Builtin.parallelize.name
    [some e, some (ExpressionKind.literal (.integer partitions)).bare]).bare

/-- An expression that is handed over beside the same one that is not. -/
theorem Expression.Wraps.handed {e' e : Expression} (h : e'.Wraps e) (partitions : Int) :
    (e'.handed partitions).Wraps e := .wrap .unknown .unknown partitions h

/-- A call of `parallelize` beside the same call of a part that is spread. -/
theorem Expression.Wraps.handed_both {e' e : Expression} (h : e'.Wraps e) (partitions : Int) :
    (e'.handed partitions).Wraps (e.handed partitions) :=
  .node .unknown (.functionCall
    (show Builtin.find? Builtin.parallelize.name 2 ≠ some .structuredJsonFile by decide)
    (.cons (.some h) (.cons (.some (.node .unknown (.literal _))) .nil)))

/-- A literal spreads itself. -/
theorem ExpressionKind.literal_wraps (value : Json) :
    (ExpressionKind.literal value).bare.Wraps (ExpressionKind.literal value).bare :=
  .node .unknown (.literal value)

/-! ## `let` clauses -/

/-- The modes of a `let` clause and of what it binds. -/
def Outline.let? : Outline → Option (Mode × Mode)
  | .node "let" mode _ [value] => some (mode, value.mode)
  | _ => none

/-- The modes of all `let` clauses in an expression. -/
def Expression.lets (e : Expression) : List (Mode × Mode) := e.outline.preorder.filterMap Outline.let?

/-- The modes of all `let` clauses in a module. -/
def QueryModule.lets (m : QueryModule) : List (Mode × Mode) :=
  m.functions.flatMap (·.body.lets) ++ m.body.lets

/-- The modes of a `let` clause beside those that it has in the original: it stays on the host, or it
was distributed before, or what it binds was on the host. -/
def KeepsLet (now before : Mode × Mode) : Prop :=
  now.1 = .host ∨ before.1 = .rows ∨ before.2 = .host

instance (now before : Mode × Mode) : Decidable (KeepsLet now before) :=
  inferInstanceAs (Decidable (_ ∨ _ ∨ _))

/-- No `let` of a distributed value has been moved from a stream on the host to a distributed one. The
modules are analysed. -/
def QueryModule.KeepsLets (m' m : QueryModule) : Prop := List.Forall₂ KeepsLet m'.lets m.lets

end HybridQuery
