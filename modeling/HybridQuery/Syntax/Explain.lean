import HybridQuery.Syntax.Analysis
import HybridQuery.Syntax.Outline

/-!
# Explain plans

What is shown of an analysed module: one line for each node, indented by its depth, with its mode and
its position; or why the module is rejected.

* `ExplainPlan.ofModule`: the plan of a module, with the module as analysis leaves it.
* `ExplainPlan.text`: the plan as it is shown.
-/

namespace HybridQuery

/-- One node as it is shown. -/
structure ExplainLine where
  depth : Nat
  node : String
  mode : Mode
  /-- Absent if it is unknown. -/
  position : Option SourcePosition
  deriving Repr, DecidableEq

/-- Why a module is rejected. -/
structure Rejection where
  reason : String
  code : ErrorCode
  deriving Repr, DecidableEq

/-- What is shown of a module. -/
inductive ExplainPlan where
  | accepted (functions : List (FunctionKey × List ExplainLine)) (body : List ExplainLine)
  | rejected (rejection : Rejection)

/-- The lines of an expression. -/
def Expression.explainLines (e : Expression) : List ExplainLine :=
  (e.outline.withDepth 0).map fun (depth, o) =>
    { depth := depth
      node := o.name
      mode := o.mode
      position := if o.position.isUnknown then none else some o.position }

/-- The text of a line. -/
def ExplainLine.text (line : ExplainLine) : String :=
  String.join (List.replicate (line.depth + 1) "  ") ++ s!"{line.node} [{line.mode.text}]"
    ++ (match line.position with
      | some position => s!" @ {position.text}"
      | none => "")
    ++ "\n"

/-- The texts of lines. -/
def ExplainLine.allText (lines : List ExplainLine) : String :=
  String.join (lines.map ExplainLine.text)

namespace ExplainPlan

/-- The plan of a module that analysis rejected. -/
def ofError (e : EngineError) : ExplainPlan :=
  .rejected
    { reason :=
        match e.position with
        | some position => s!"{e.message} (at {position.text})"
        | none => e.message
      code := e.code }

/-- The plan of an analysed module. -/
def ofAnalysed (m : QueryModule) : ExplainPlan :=
  .accepted (m.functions.map fun d => (d.key, d.body.explainLines)) m.body.explainLines

/-- The plan of a module, with the module as analysis leaves it. -/
def ofModule (m : QueryModule) : QueryModule × ExplainPlan :=
  match m.analyse with
  | (m, .ok ()) => (m, ofAnalysed m)
  | (m, .error e) => (m, ofError e)

/-- Whether the module is accepted. -/
def isAccepted : ExplainPlan → Bool
  | accepted .. => true
  | rejected _ => false

/-- Why the module is rejected. -/
def rejection? : ExplainPlan → Option Rejection
  | accepted .. => none
  | rejected r => some r

/-- The plan as it is shown. -/
def text : ExplainPlan → String
  | accepted functions body =>
    "=== EXPLAIN ===\nStatus: ACCEPTED\n"
      ++ String.join (functions.map fun (key, lines) =>
        s!"Function {key.1}#{key.2}:\n" ++ ExplainLine.allText lines)
      ++ "Body:\n" ++ ExplainLine.allText body
  | rejected r =>
    s!"=== EXPLAIN ===\nStatus: REJECTED\nError Code: {r.code.text}\nReason: {r.reason}\n"

end ExplainPlan
end HybridQuery
