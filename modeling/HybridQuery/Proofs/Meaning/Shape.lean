import HybridQuery.Evaluation.Evaluator
import HybridQuery.Proofs.Meaning.Protocol

/-!
# Cursors of plans

A cursor of a plan keeps the shape of the plan, however far it has come: what changes is which of its
parts are open, and what they hold.

* `Plan.Shapes`, `Pipeline.Shapes`: the cursors of a plan and of a chain of clauses.
* `Plan.shapes_cursor`: the closed cursor that evaluation starts from has the shape.
* `Plan.Shapes.closed`: closing a cursor keeps the shape. `Node.closed_closed`,
  `Node.openBodies_closed`: closing it again has no effect, and `Plan.closed_cursor`: nor has closing
  the cursor of a plan.
* `Memory`: what cursors may keep of the distributed forms that they computed, level by level.
-/

namespace HybridQuery

/-! ## What cursors keep -/

/-- Which distributed forms may be kept: of a plan or of a clause, and for which handle. -/
structure Memos where
  items : Plan → Nat → Collection Item → Prop
  tuples : Mode → SourcePosition → ClauseOperation → Pipeline → Nat → Collection Tuple → Prop

/-- What a cursor and the cursors below it may keep, by how far below they are, and the contexts that
handles stand for. -/
structure Memory where
  marks : Nat → List Bindings
  level : Nat → Memos

namespace Memory

/-- What the cursor itself may keep. -/
def top (K : Memory) : Memos := K.level 0

/-- What the cursors below may keep. -/
def below (K : Memory) : Memory := ⟨K.marks, fun n => K.level (n + 1)⟩

/-- A cursor that may keep `forms`, over cursors that may keep what is said. -/
def under (forms : Memos) (K : Memory) : Memory where
  marks := K.marks
  level
    | 0 => forms
    | n + 1 => K.level n

end Memory

/-! ## Shapes -/

mutual
/-- The cursors of a plan. -/
inductive Plan.Shapes : Memory → Plan → ItemCursor → Prop where
  | mk {K : Memory} {mode : Mode} {position : SourcePosition} {operation : Operation}
    {c : ItemCursor} :
    c.mode = mode → c.position = position → operation.Shapes K.below position c.node →
    (mode = .host → c.materialized = none) →
    (∀ handle rows, c.memo = some (handle, rows) →
      K.top.items (.mk mode position operation) handle rows) →
    Plan.Shapes K (.mk mode position operation) c

/-- The nodes of an operation. -/
inductive Operation.Shapes : Memory → Operation → SourcePosition → Node → Prop where
  | compute {K computation position buffer} :
    Operation.Shapes K (.compute computation) position (.computed computation buffer)
  | varRef {K name position items} :
    Operation.Shapes K (.varRef name) position (.varRef name position items)
  | sequence {K members position before after context} :
    MembersShape K members (before ++ after) →
    (∀ c : Context, context = some c → c.Known K.marks) →
    Operation.Shapes K (.sequence members) position (.sequence before after context)
  | range {K first last position next greatest} :
    Operation.Shapes K (.range first last) position (.range first last next greatest)
  | conditional {K condition yes no position chosen yes' no'} :
    yes.Shapes K yes' → no.Shapes K no' →
    Operation.Shapes K (.conditional condition yes no) position
      (.conditional condition chosen yes' no')
  | navigate {K step input position walk input'} :
    input.Shapes K input' →
    Operation.Shapes K (.navigate step input) position (.navigate step walk input')
  | staticCall {K name arguments position call} :
    Operation.Shapes K (.staticCall name arguments) position (.staticCall name arguments call)
  | dynamicCall {K function arguments position call} :
    Operation.Shapes K (.dynamicCall function arguments) position
      (.dynamicCall function arguments position call)
  | flwor {K pipeline result position context feed current} :
    pipeline.Shapes K feed →
    Operation.Shapes K (.flwor pipeline result) position (.flwor result context feed current)

/-- The cursors of the members of a sequence. -/
inductive MembersShape : Memory → List Plan → List ItemCursor → Prop where
  | nil {K} : MembersShape K [] []
  | cons {K p ps c cs} : Plan.Shapes K p c → MembersShape K ps cs →
    MembersShape K (p :: ps) (c :: cs)

/-- Where a chain of clauses takes its tuples from. -/
inductive Pipeline.Shapes : Memory → Pipeline → Feed → Prop where
  | start {K pending} : Pipeline.Shapes K .start (.start pending)
  | clause {K : Memory} {mode : Mode} {position : SourcePosition} {operation : ClauseOperation}
    {before : Pipeline} {c : TupleCursor} :
    c.mode = mode → c.position = position → operation.Shapes K.below position before c.node →
    (mode = .host → c.materialized = none) →
    (∀ handle rows, c.memo = some (handle, rows) →
      K.top.tuples mode position operation before handle rows) →
    Pipeline.Shapes K (.clause mode position operation before) (.clause c)

/-- The nodes of a clause after a chain of clauses. -/
inductive ClauseOperation.Shapes : Memory → ClauseOperation → SourcePosition → Pipeline →
    ClauseNode → Prop where
  | forEach {K name place allowingEmpty source position before binding source' feed} :
    Plan.Shapes K source source' → before.Shapes K feed →
    ClauseOperation.Shapes K (.forEach name place allowingEmpty source) position before
      (.forEach name place allowingEmpty binding source' feed)
  | letBe {K name value position before context feed} :
    Pipeline.Shapes K before feed →
    ClauseOperation.Shapes K (.letBe name value) position before (.letBe name value context feed)
  | keepWhere {K condition position before context feed} :
    Pipeline.Shapes K before feed →
    ClauseOperation.Shapes K (.keepWhere condition) position before
      (.keepWhere condition context feed)
  | orderBy {K keys position before sorted feed} :
    Pipeline.Shapes K before feed →
    ClauseOperation.Shapes K (.orderBy keys) position before (.orderBy keys sorted feed)
  | groupBy {K keys position before groups feed} :
    Pipeline.Shapes K before feed →
    ClauseOperation.Shapes K (.groupBy keys) position before (.groupBy keys position groups feed)
  | count {K name position before counter feed} :
    Pipeline.Shapes K before feed →
    ClauseOperation.Shapes K (.count name) position before (.count name counter feed)
end

theorem MembersShape.append {K : Memory} {ps qs : List Plan} {cs ds : List ItemCursor}
    (h : MembersShape K ps cs) (h' : MembersShape K qs ds) :
    MembersShape K (ps ++ qs) (cs ++ ds) := by
  induction ps generalizing cs with
  | nil => cases h; exact h'
  | cons p ps ih =>
    obtain _ | ⟨hp, hs⟩ := h
    exact .cons hp (ih hs)

/-! ## Closed cursors -/

mutual
theorem Plan.shapes_cursor : ∀ {K : Memory} (p : Plan), p.Shapes K p.cursor
  | _, .mk _ position operation =>
    .mk rfl rfl (operation.shapes_node position) (fun _ => rfl) fun _ _ h => nomatch h

theorem Operation.shapes_node {K : Memory} (position : SourcePosition) :
    ∀ operation : Operation, operation.Shapes K position (operation.node position)
  | .compute _ => .compute
  | .sequence members => .sequence (shapes_memberCursors members) fun _ h => by cases h
  | .varRef _ => .varRef
  | .range _ _ => .range
  | .conditional _ yes no => .conditional yes.shapes_cursor no.shapes_cursor
  | .navigate _ input => .navigate input.shapes_cursor
  | .staticCall _ _ => .staticCall
  | .dynamicCall _ _ => .dynamicCall
  | .flwor pipeline _ => .flwor pipeline.shapes_feed

theorem shapes_memberCursors {K : Memory} :
    ∀ members : List Plan, MembersShape K members (memberCursors members)
  | [] => .nil
  | p :: rest => .cons p.shapes_cursor (shapes_memberCursors rest)

theorem Pipeline.shapes_feed : ∀ {K : Memory} (p : Pipeline), p.Shapes K p.feed
  | _, .start => .start
  | _, .clause _ position operation before =>
    .clause rfl rfl (operation.shapes_node position before before.shapes_feed) (fun _ => rfl)
      fun _ _ h => nomatch h

theorem ClauseOperation.shapes_node {K : Memory} (position : SourcePosition) (before : Pipeline)
    (h : before.Shapes K before.feed) :
    ∀ operation : ClauseOperation, operation.Shapes K position before
      (operation.node position before.feed)
  | .forEach _ _ _ source => .forEach source.shapes_cursor h
  | .letBe _ _ => .letBe h
  | .keepWhere _ => .keepWhere h
  | .orderBy _ => .orderBy h
  | .groupBy _ => .groupBy h
  | .count _ => .count h
end

/-! ## Closing -/

theorem closedMembers_append (cs ds : List ItemCursor) :
    closedMembers (cs ++ ds) = closedMembers cs ++ closedMembers ds := by
  induction cs with
  | nil => rfl
  | cons c cs ih => simp [closedMembers, ih]

mutual
theorem Plan.Shapes.closed : ∀ {K : Memory} {p : Plan} {c : ItemCursor}, p.Shapes K c →
    p.Shapes K (closedItems c)
  | _, _, ⟨_, _, _, _, _, _⟩, .mk hm hp hn _ _ =>
    .mk hm hp hn.closed (fun _ => rfl) fun _ _ h => nomatch h

theorem Operation.Shapes.closed : ∀ {K : Memory} {operation : Operation} {position : SourcePosition}
    {n : Node}, operation.Shapes K position n → operation.Shapes K position n.closed
  | _, _, _, _, .compute => .compute
  | _, _, _, _, .varRef => .varRef
  | _, _, _, _, .sequence h _ =>
    .sequence (by rw [← closedMembers_append]; exact h.closed) fun _ h => by cases h
  | _, _, _, _, .range => .range
  | _, _, _, _, .conditional hy hn => .conditional hy.closed hn.closed
  | _, _, _, _, .navigate h => .navigate h.closed
  | _, _, _, _, .staticCall => .staticCall
  | _, _, _, _, .dynamicCall => .dynamicCall
  | _, _, _, _, .flwor h => .flwor h.closed

theorem MembersShape.closed : ∀ {K : Memory} {ps : List Plan} {cs : List ItemCursor},
    MembersShape K ps cs → MembersShape K ps (closedMembers cs)
  | _, _, _, .nil => .nil
  | _, _, _, .cons hp hs => .cons hp.closed hs.closed

theorem Pipeline.Shapes.closed : ∀ {K : Memory} {p : Pipeline} {feed : Feed}, p.Shapes K feed →
    p.Shapes K feed.closed
  | _, _, _, .start => .start
  | _, _, .clause ⟨_, _, _, _, _, _⟩, .clause hm hp hn _ _ =>
    .clause hm hp hn.closed (fun _ => rfl) fun _ _ h => nomatch h

theorem ClauseOperation.Shapes.closed : ∀ {K : Memory} {operation : ClauseOperation}
    {position : SourcePosition} {before : Pipeline} {n : ClauseNode},
    operation.Shapes K position before n → operation.Shapes K position before n.closed
  | _, _, _, _, _, .forEach hs hf => .forEach hs.closed hf.closed
  | _, _, _, _, _, .letBe h => .letBe h.closed
  | _, _, _, _, _, .keepWhere h => .keepWhere h.closed
  | _, _, _, _, _, .orderBy h => .orderBy h.closed
  | _, _, _, _, _, .groupBy h => .groupBy h.closed
  | _, _, _, _, _, .count h => .count h.closed
end

/-! ### Closing twice -/

theorem memberBodies_append (cs ds : List ItemCursor) :
    memberBodies (cs ++ ds) = memberBodies cs + memberBodies ds := by
  induction cs with
  | nil => simp [memberBodies]
  | cons c cs ih => simp only [List.cons_append, memberBodies, ih, Nat.add_assoc]

mutual
theorem closedItems_closedItems : ∀ c : ItemCursor, closedItems (closedItems c) = closedItems c
  | ⟨_, _, _, _, _, node⟩ => by simp only [closedItems, Cursor.idle, node.closed_closed]

theorem Node.closed_closed : ∀ n : Node, n.closed.closed = n.closed
  | .computed .. | .varRef .. | .range .. | .staticCall .. | .dynamicCall .. => rfl
  | .sequence before after _ => by
    simp only [Node.closed, closedMembers, closedMembers_append, List.nil_append,
      closedMembers_closedMembers before, closedMembers_closedMembers after]
  | .conditional _ _ yes no => by
    simp only [Node.closed, closedItems_closedItems yes, closedItems_closedItems no]
  | .navigate _ _ input => by simp only [Node.closed, closedItems_closedItems input]
  | .flwor _ _ feed _ => by simp only [Node.closed, feed.closed_closed]

theorem closedMembers_closedMembers : ∀ cs : List ItemCursor,
    closedMembers (closedMembers cs) = closedMembers cs
  | [] => rfl
  | c :: rest => by
    simp only [closedMembers, closedItems_closedItems c, closedMembers_closedMembers rest]

theorem Feed.closed_closed : ∀ u : Feed, u.closed.closed = u.closed
  | .start _ => rfl
  | .clause c => by simp only [Feed.closed, closedTuples_closedTuples c]

theorem closedTuples_closedTuples : ∀ c : TupleCursor, closedTuples (closedTuples c) = closedTuples c
  | ⟨_, _, _, _, _, node⟩ => by simp only [closedTuples, Cursor.idle, node.closed_closed]

theorem ClauseNode.closed_closed : ∀ n : ClauseNode, n.closed.closed = n.closed
  | .forEach _ _ _ _ source feed => by
    simp only [ClauseNode.closed, closedItems_closedItems source, feed.closed_closed]
  | .letBe _ _ _ feed | .keepWhere _ _ feed | .orderBy _ _ feed | .groupBy _ _ _ feed
  | .count _ _ feed => by simp only [ClauseNode.closed, feed.closed_closed]
end

theorem Cursor.closed_closed (c : ItemCursor) : c.closed.closed = c.closed := by
  simp only [Cursor.closed, Cursor.idle, CursorNode.closed, Node.closed_closed]

mutual
/-- Closing the cursor of a plan changes nothing. -/
theorem Plan.closedItems_cursor : ∀ p : Plan, closedItems p.cursor = p.cursor
  | .mk _ position operation => by
    simp only [Plan.cursor, closedItems, Cursor.idle, operation.closed_node position]

theorem Operation.closed_node (position : SourcePosition) :
    ∀ operation : Operation, (operation.node position).closed = operation.node position
  | .compute _ | .varRef _ | .range _ _ | .staticCall _ _ | .dynamicCall _ _ => by
    simp only [Operation.node, Node.closed]
  | .sequence members => by
    simp only [Operation.node, Node.closed, closedMembers, closedMembers_memberCursors members,
      List.nil_append]
  | .conditional _ yes no => by
    simp only [Operation.node, Node.closed, yes.closedItems_cursor, no.closedItems_cursor]
  | .navigate _ input => by simp only [Operation.node, Node.closed, input.closedItems_cursor]
  | .flwor pipeline _ => by simp only [Operation.node, Node.closed, pipeline.closed_feed]

theorem closedMembers_memberCursors : ∀ ps : List Plan,
    closedMembers (memberCursors ps) = memberCursors ps
  | [] => rfl
  | p :: rest => by
    simp only [memberCursors, closedMembers, p.closedItems_cursor, closedMembers_memberCursors rest]

theorem Pipeline.closed_feed : ∀ p : Pipeline, p.feed.closed = p.feed
  | .start => rfl
  | .clause _ position operation before => by
    simp only [Pipeline.feed, Feed.closed, closedTuples, Cursor.idle,
      operation.closed_node position before.feed before.closed_feed]

theorem ClauseOperation.closed_node (position : SourcePosition) (feed : Feed) (h : feed.closed = feed) :
    ∀ operation : ClauseOperation, (operation.node position feed).closed = operation.node position feed
  | .forEach _ _ _ source => by
    simp only [ClauseOperation.node, ClauseNode.closed, source.closedItems_cursor, h]
  | .letBe .. | .keepWhere .. | .orderBy .. | .groupBy .. | .count .. => by
    simp only [ClauseOperation.node, ClauseNode.closed, h]
end

theorem Plan.closed_cursor (p : Plan) : p.cursor.closed = p.cursor := by
  have h := p.closedItems_cursor
  obtain ⟨mode, position, operation⟩ := p
  exact h

mutual
theorem itemBodies_closedItems : ∀ c : ItemCursor, itemBodies (closedItems c) = 0
  | ⟨_, _, _, _, _, node⟩ => by simp only [closedItems, Cursor.idle, itemBodies, node.openBodies_closed]

theorem Node.openBodies_closed : ∀ n : Node, n.closed.openBodies = 0
  | .computed .. | .varRef .. | .range .. | .staticCall .. | .dynamicCall .. => by
    simp only [Node.closed, Node.openBodies, Call.openBodies]
  | .sequence before after _ => by
    simp only [Node.closed, Node.openBodies, memberBodies, memberBodies_append,
      memberBodies_closedMembers before, memberBodies_closedMembers after]
  | .conditional _ _ yes no => by
    simp only [Node.closed, Node.openBodies, itemBodies_closedItems yes, itemBodies_closedItems no]
  | .navigate _ _ input => by simp only [Node.closed, Node.openBodies, itemBodies_closedItems input]
  | .flwor _ _ feed _ => by
    simp only [Node.closed, Node.openBodies, currentBodies, feed.openBodies_closed]

theorem memberBodies_closedMembers : ∀ cs : List ItemCursor, memberBodies (closedMembers cs) = 0
  | [] => rfl
  | c :: rest => by
    simp only [closedMembers, memberBodies, itemBodies_closedItems c, memberBodies_closedMembers rest]

theorem Feed.openBodies_closed : ∀ u : Feed, u.closed.openBodies = 0
  | .start _ => rfl
  | .clause c => by simp only [Feed.closed, Feed.openBodies, tupleBodies_closedTuples c]

theorem tupleBodies_closedTuples : ∀ c : TupleCursor, tupleBodies (closedTuples c) = 0
  | ⟨_, _, _, _, _, node⟩ => by
    simp only [closedTuples, Cursor.idle, tupleBodies, node.openBodies_closed]

theorem ClauseNode.openBodies_closed : ∀ n : ClauseNode, n.closed.openBodies = 0
  | .forEach _ _ _ _ source feed => by
    simp only [ClauseNode.closed, ClauseNode.openBodies, itemBodies_closedItems source,
      feed.openBodies_closed]
  | .letBe _ _ _ feed | .keepWhere _ _ feed | .orderBy _ _ feed | .groupBy _ _ _ feed
  | .count _ _ feed => by simp only [ClauseNode.closed, ClauseNode.openBodies, feed.openBodies_closed]
end

/-! ## Keeping less -/

/-- What may be kept by one memory may be kept by another. -/
structure Memory.Within (K K' : Memory) : Prop where
  marks : K.marks = K'.marks
  items : ∀ n p handle rows, (K.level n).items p handle rows → (K'.level n).items p handle rows
  tuples : ∀ n mode position operation before handle rows,
    (K.level n).tuples mode position operation before handle rows →
      (K'.level n).tuples mode position operation before handle rows

theorem Memory.Within.below {K K' : Memory} (h : K.Within K') : K.below.Within K'.below :=
  ⟨h.marks, fun n => h.items (n + 1), fun n => h.tuples (n + 1)⟩

mutual
theorem Plan.Shapes.mono : ∀ {K K' : Memory} {p : Plan} {c : ItemCursor}, K.Within K' →
    p.Shapes K c → p.Shapes K' c
  | _, _, _, _, h, .mk hm hp hn hh hv =>
    .mk hm hp (hn.mono h.below) hh fun handle rows hs => h.items 0 _ handle rows (hv handle rows hs)

theorem Operation.Shapes.mono : ∀ {K K' : Memory} {operation : Operation}
    {position : SourcePosition} {n : Node}, K.Within K' → operation.Shapes K position n →
    operation.Shapes K' position n
  | _, _, _, _, _, _, .compute => .compute
  | _, _, _, _, _, _, .varRef => .varRef
  | _, _, _, _, _, h, .sequence hs hknown =>
    .sequence (hs.mono h) fun c hc => h.marks ▸ hknown c hc
  | _, _, _, _, _, _, .range => .range
  | _, _, _, _, _, h, .conditional hy hn => .conditional (hy.mono h) (hn.mono h)
  | _, _, _, _, _, h, .navigate hi => .navigate (hi.mono h)
  | _, _, _, _, _, _, .staticCall => .staticCall
  | _, _, _, _, _, _, .dynamicCall => .dynamicCall
  | _, _, _, _, _, h, .flwor hf => .flwor (hf.mono h)

theorem MembersShape.mono : ∀ {K K' : Memory} {ps : List Plan} {cs : List ItemCursor},
    K.Within K' → MembersShape K ps cs → MembersShape K' ps cs
  | _, _, _, _, _, .nil => .nil
  | _, _, _, _, h, .cons hp hs => .cons (hp.mono h) (hs.mono h)

theorem Pipeline.Shapes.mono : ∀ {K K' : Memory} {p : Pipeline} {feed : Feed}, K.Within K' →
    p.Shapes K feed → p.Shapes K' feed
  | _, _, _, _, _, .start => .start
  | _, _, _, _, h, .clause hm hp hn hh hv =>
    .clause hm hp (hn.mono h.below) hh fun handle rows hs =>
      h.tuples 0 _ _ _ _ handle rows (hv handle rows hs)

theorem ClauseOperation.Shapes.mono : ∀ {K K' : Memory} {operation : ClauseOperation}
    {position : SourcePosition} {before : Pipeline} {n : ClauseNode}, K.Within K' →
    operation.Shapes K position before n → operation.Shapes K' position before n
  | _, _, _, _, _, _, h, .forEach hs hf => .forEach (hs.mono h) (hf.mono h)
  | _, _, _, _, _, _, h, .letBe hf => .letBe (hf.mono h)
  | _, _, _, _, _, _, h, .keepWhere hf => .keepWhere (hf.mono h)
  | _, _, _, _, _, _, h, .orderBy hf => .orderBy (hf.mono h)
  | _, _, _, _, _, _, h, .groupBy hf => .groupBy (hf.mono h)
  | _, _, _, _, _, _, h, .count hf => .count (hf.mono h)
end

end HybridQuery
