import HybridQuery.Error
import HybridQuery.Flwor.Tuple

/-!
# Cursors

A cursor is a plan under evaluation: the plan itself and how far it has come. Cursors over items
evaluate expressions, cursors over tuples the clauses of a pipeline. One that is open holds its next result, if
there is one, so that asking for it has no effect.

* `Lookahead.hasNext`: whether a result is pending.
* `Lookahead.take`: hands the pending result out.
* `Cursor`: what all cursors have in common. `Node` and `ClauseNode` are what they drive.
* `Plan.cursor`: the closed cursor of a plan.
* `Node.closed`: the node with nothing under way; `Node.openBodies` counts the function bodies that
  are closed on the way.
-/

namespace HybridQuery

/-! ## Lookahead -/

/-- Whether an iterator is open, and its pending result. -/
structure Lookahead (α : Type) where
  isOpen : Bool
  pending : Option α
  deriving Repr, DecidableEq, Inhabited

namespace Lookahead

variable {α : Type}

/-- A closed iterator. -/
def closed : Lookahead α := ⟨false, none⟩

/-- An iterator that was opened with a first result. -/
def opened (first : Option α) : Lookahead α := ⟨true, first⟩

/-- Whether a result is pending. -/
def hasNext (l : Lookahead α) : Bool := l.isOpen && l.pending.isSome

/-- Sets the pending result. -/
def refill (l : Lookahead α) (next : Option α) : Lookahead α := { l with pending := next }

/-- The fault of asking a closed iterator for a result. -/
def closedFault (iterator : String) : Fault :=
  .flow s!"next() called on closed iterator {iterator}"

/-- Hands the pending result out; it is an error if there is none. -/
def take (l : Lookahead α) (iterator : String) : EngineResult α × Lookahead α :=
  if !l.isOpen then (.fail (closedFault iterator), l)
  else
    match l.pending with
    | some result => (.ok result, l.refill none)
    | none => (.fail (.exhausted iterator), l)

end Lookahead

/-! ## What cursors have in common -/

/-- A cursor that drives `ν` and yields `α`. -/
structure Cursor (ν α : Type) where
  mode : Mode
  position : SourcePosition
  lookahead : Lookahead α
  /-- What is left of a distributed result that was pulled to the host. -/
  materialized : Option (List α)
  /-- The distributed form in the context that was last asked for, by its handle. -/
  memo : Option (Nat × Collection α)
  node : ν

namespace Cursor

variable {ν α : Type}

/-- A closed cursor. -/
def idle (mode : Mode) (position : SourcePosition) (node : ν) : Cursor ν α :=
  { mode := mode
    position := position
    lookahead := .closed
    materialized := none
    memo := none
    node := node }

/-- Whether a result is pending. -/
def hasNext (c : Cursor ν α) : Bool := c.lookahead.hasNext

/-- Whether the cursor is open. -/
def isOpen (c : Cursor ν α) : Bool := c.lookahead.isOpen

end Cursor

/-! ## What cursors drive -/

/-- The operand of a navigation step, evaluated. -/
inductive StepOperand where
  | absent
  | key (key : Option String)
  | index (index : Option Int64)
  deriving Inhabited

/-- A navigation under way. -/
structure Walk where
  context : Context
  operand : StepOperand
  /-- Results of the last input item that were not handed out. -/
  buffer : List Item
  /-- Input items seen so far. -/
  place : Nat

/-- A `for` clause under way. -/
structure Binding where
  context : Context
  /-- The tuple whose source is open. -/
  current : Option Tuple
  /-- Items of that source seen so far. -/
  index : Nat

mutual
/-- What a cursor over items drives. -/
inductive Node where
  | computed (computation : Computation) (buffer : List Item)
  | varRef (name : String) (position : SourcePosition) (items : List Item)
  /-- The members that are through, and those from the current one on. -/
  | sequence (before after : List (Cursor Node Item)) (context : Option Context)
  | range (first last : Plan) (next : Option Int64) (greatest : Int64)
  | conditional (condition : Plan) (chosen : Option Bool) (yes no : Cursor Node Item)
  | navigate (step : NavigationStep) (walk : Option Walk) (input : Cursor Node Item)
  | staticCall (name : String) (arguments : List (Option Plan)) (call : Call)
  | dynamicCall (function : Plan) (arguments : List (Option Plan)) (position : SourcePosition)
      (call : Call)
  | flwor (result : Plan) (context : Option Context) (feed : Feed)
      (current : Option (Cursor Node Item))

/-- A call under way. -/
inductive Call where
  | idle
  /-- A partial application gives a function, once. -/
  | partially (result : Option Item)
  | running (body : Cursor Node Item) (returnType : SequenceType) (produced : Nat)

/-- Where the tuples of a clause come from. -/
inductive Feed where
  /-- A single empty tuple. -/
  | start (pending : Bool)
  | clause (tuples : Cursor ClauseNode Tuple)

/-- What a cursor over tuples drives. -/
inductive ClauseNode where
  | forEach (variableName : String) (place : Option String) (allowingEmpty : Bool)
      (binding : Option Binding) (source : Cursor Node Item) (feed : Feed)
  | letBe (variableName : String) (value : Plan) (context : Option Context) (feed : Feed)
  | keepWhere (condition : Plan) (context : Option Context) (feed : Feed)
  | orderBy (keys : List (OrderKey Plan)) (sorted : List Tuple) (feed : Feed)
  | groupBy (keys : List (GroupKey Plan)) (position : SourcePosition) (groups : List Tuple)
      (feed : Feed)
  | count (variableName : String) (counter : Nat) (feed : Feed)
end

/-- A cursor over items. -/
abbrev ItemCursor := Cursor Node Item

/-- A cursor over tuples. -/
abbrev TupleCursor := Cursor ClauseNode Tuple

instance : Inhabited Node := ⟨.computed .contextItem []⟩
instance : Inhabited ClauseNode := ⟨.count "" 0 (.start false)⟩

/-- The name of a node. -/
def Node.name : Node → String
  | computed computation _ => computation.name
  | varRef .. => "variable"
  | sequence .. => "sequence"
  | range .. => "range"
  | conditional .. => "if"
  | navigate step .. => step.name
  | staticCall .. => "function-call"
  | dynamicCall .. => "dynamic-call"
  | flwor .. => "flwor"

/-- The name of a clause. -/
def ClauseNode.name : ClauseNode → String
  | forEach .. => "for"
  | letBe .. => "let"
  | keepWhere .. => "where"
  | orderBy .. => "order-by"
  | groupBy .. => "group-by"
  | count .. => "count"

/-- Whether a pipeline starts here. -/
def Feed.isStart : Feed → Bool
  | start _ => true
  | clause _ => false

/-! ## From plans -/

mutual
/-- The closed cursor of a plan. -/
def Plan.cursor : Plan → ItemCursor
  | .mk mode position operation => .idle mode position (operation.node position)

/-- The node of an operation. -/
def Operation.node (position : SourcePosition) : Operation → Node
  | .compute computation => .computed computation []
  | .sequence members => .sequence [] (memberCursors members) none
  | .varRef name => .varRef name position []
  | .range first last => .range first last none 0
  | .conditional condition yes no => .conditional condition none yes.cursor no.cursor
  | .navigate step input => .navigate step none input.cursor
  | .staticCall name arguments => .staticCall name arguments .idle
  | .dynamicCall function arguments => .dynamicCall function arguments position .idle
  | .flwor pipeline result => .flwor result none pipeline.feed none

/-- The closed cursors of members. -/
def memberCursors : List Plan → List ItemCursor
  | [] => []
  | p :: rest => p.cursor :: memberCursors rest

/-- The closed cursor of the last clause of a pipeline. -/
def Pipeline.feed : Pipeline → Feed
  | .start => .start false
  | .clause mode position operation feed =>
    .clause (.idle mode position (operation.node position feed.feed))

/-- The node of a clause. -/
def ClauseOperation.node (position : SourcePosition) (feed : Feed) :
    ClauseOperation → ClauseNode
  | .forEach name place allowingEmpty source =>
    .forEach name place allowingEmpty none source.cursor feed
  | .letBe name value => .letBe name value none feed
  | .keepWhere condition => .keepWhere condition none feed
  | .orderBy keys => .orderBy keys [] feed
  | .groupBy keys => .groupBy keys position [] feed
  | .count name => .count name 0 feed
end

/-! ## Closing -/

mutual
/-- The cursor with nothing under way. -/
def closedItems : ItemCursor → ItemCursor
  | ⟨mode, position, _, _, _, node⟩ => .idle mode position node.closed

/-- The node with nothing under way. -/
def Node.closed : Node → Node
  | .computed computation _ => .computed computation []
  | .varRef name position _ => .varRef name position []
  | .sequence before after _ => .sequence [] (closedMembers before ++ closedMembers after) none
  | .range first last _ greatest => .range first last none greatest
  | .conditional condition _ yes no => .conditional condition none (closedItems yes) (closedItems no)
  | .navigate step _ input => .navigate step none (closedItems input)
  | .staticCall name arguments _ => .staticCall name arguments .idle
  | .dynamicCall function arguments position _ => .dynamicCall function arguments position .idle
  | .flwor result _ feed _ => .flwor result none feed.closed none

/-- The members with nothing under way. -/
def closedMembers : List ItemCursor → List ItemCursor
  | [] => []
  | c :: rest => closedItems c :: closedMembers rest

/-- The clauses before with nothing under way. -/
def Feed.closed : Feed → Feed
  | .start _ => .start false
  | .clause tuples => .clause (closedTuples tuples)

/-- The cursor with nothing under way. -/
def closedTuples : TupleCursor → TupleCursor
  | ⟨mode, position, _, _, _, node⟩ => .idle mode position node.closed

/-- The clause with nothing under way. -/
def ClauseNode.closed : ClauseNode → ClauseNode
  | .forEach name place allowingEmpty _ source feed =>
    .forEach name place allowingEmpty none (closedItems source) feed.closed
  | .letBe name value _ feed => .letBe name value none feed.closed
  | .keepWhere condition _ feed => .keepWhere condition none feed.closed
  | .orderBy keys _ feed => .orderBy keys [] feed.closed
  | .groupBy keys position _ feed => .groupBy keys position [] feed.closed
  | .count name _ feed => .count name 0 feed.closed
end

mutual
/-- Function bodies that closing a cursor closes. -/
def itemBodies : ItemCursor → Nat
  | ⟨_, _, _, _, _, node⟩ => node.openBodies

/-- Function bodies that closing a node closes. -/
def Node.openBodies : Node → Nat
  | .computed .. | .varRef .. | .range .. => 0
  | .sequence before after _ => memberBodies before + memberBodies after
  | .conditional _ _ yes no => itemBodies yes + itemBodies no
  | .navigate _ _ input => itemBodies input
  | .staticCall _ _ call => call.openBodies
  | .dynamicCall _ _ _ call => call.openBodies
  | .flwor _ _ feed current =>
    currentBodies current + feed.openBodies

/-- Function bodies that closing members closes. -/
def memberBodies : List ItemCursor → Nat
  | [] => 0
  | c :: rest => itemBodies c + memberBodies rest

/-- Function bodies that closing a cursor closes, if there is one. -/
def currentBodies : Option ItemCursor → Nat
  | none => 0
  | some c => itemBodies c

/-- Function bodies that ending a call closes: its own and those below, if it is open. -/
def Call.openBodies : Call → Nat
  | .idle | .partially _ => 0
  | .running body _ _ => if body.isOpen then itemBodies body + 1 else 0

/-- Function bodies that closing the clauses before closes. -/
def Feed.openBodies : Feed → Nat
  | .start _ => 0
  | .clause tuples => tupleBodies tuples

/-- Function bodies that closing a cursor over tuples closes. -/
def tupleBodies : TupleCursor → Nat
  | ⟨_, _, _, _, _, node⟩ => node.openBodies

/-- Function bodies that closing a clause closes. -/
def ClauseNode.openBodies : ClauseNode → Nat
  | .forEach _ _ _ _ source feed => itemBodies source + feed.openBodies
  | .letBe _ _ _ feed | .keepWhere _ _ feed | .orderBy _ _ feed
  | .groupBy _ _ _ feed | .count _ _ feed => feed.openBodies
end

end HybridQuery
