import HybridQuery.Proofs.Bodies.Books
import HybridQuery.Proofs.Meaning.Shape

/-!
# Books of cursors

A tidy cursor holds no function body unless it is open, and so do all cursors below it. The protocol keeps
cursors tidy and the books clean if driving their nodes does.

* `Node.Tidy`, `ClauseNode.Tidy`, `Cursor.Tidy`: tidy nodes and cursors.
* `Rules.Accounted`: rules that keep the books of nodes of one kind.
* `Rules.Accounted.openIn`, `Rules.Accounted.next` and their like: so does the protocol.
-/

namespace HybridQuery

variable {clean : Prop} {env : Environment} {lost : Int} {r : RunRecord}

/-! ## Tidy nodes -/

mutual
/-- A tidy cursor: it holds no function body unless it is open, and neither do those below it. -/
def tidyItems : ItemCursor → Prop
  | ⟨_, _, lookahead, _, _, node⟩ => node.Tidy ∧ (lookahead.isOpen = false → node.openBodies = 0)

/-- All cursors of the node are tidy. -/
def Node.Tidy : Node → Prop
  | .computed .. | .varRef .. | .range .. => True
  | .sequence before after _ => tidyMembers before ∧ tidyMembers after
  | .conditional _ _ yes no => tidyItems yes ∧ tidyItems no
  | .navigate _ _ input => tidyItems input
  | .staticCall _ _ call => call.Tidy
  | .dynamicCall _ _ _ call => call.Tidy
  | .flwor _ _ feed current => feed.Tidy ∧ tidyCurrent current

/-- All members are tidy. -/
def tidyMembers : List ItemCursor → Prop
  | [] => True
  | c :: rest => tidyItems c ∧ tidyMembers rest

/-- The cursor is tidy, if there is one. -/
def tidyCurrent : Option ItemCursor → Prop
  | none => True
  | some c => tidyItems c

/-- The body is tidy, if there is one. -/
def Call.Tidy : Call → Prop
  | .idle | .partially _ => True
  | .running body _ _ => tidyItems body

/-- The clauses before are tidy. -/
def Feed.Tidy : Feed → Prop
  | .start _ => True
  | .clause tuples => tidyTuples tuples

/-- A tidy cursor over tuples. -/
def tidyTuples : TupleCursor → Prop
  | ⟨_, _, lookahead, _, _, node⟩ => node.Tidy ∧ (lookahead.isOpen = false → node.openBodies = 0)

/-- All cursors of the clause are tidy. -/
def ClauseNode.Tidy : ClauseNode → Prop
  | .forEach _ _ _ _ source feed => tidyItems source ∧ feed.Tidy
  | .letBe _ _ _ feed | .keepWhere _ _ feed | .orderBy _ _ feed
  | .groupBy _ _ _ feed | .count _ _ feed => feed.Tidy
end

theorem tidyMembers_append {cs ds : List ItemCursor} :
    tidyMembers (cs ++ ds) ↔ tidyMembers cs ∧ tidyMembers ds := by
  induction cs with
  | nil => simp [tidyMembers]
  | cons c cs ih => simp only [List.cons_append, tidyMembers, ih, and_assoc]

/-! ### Closed cursors -/

mutual
theorem tidyItems_closedItems : ∀ c : ItemCursor, tidyItems (closedItems c)
  | ⟨_, _, _, _, _, node⟩ => ⟨node.tidy_closed, fun _ => node.openBodies_closed⟩

theorem Node.tidy_closed : ∀ n : Node, n.closed.Tidy
  | .computed .. | .varRef .. | .range .. | .staticCall .. | .dynamicCall .. => trivial
  | .sequence before after _ =>
    ⟨trivial, tidyMembers_append.mpr
      ⟨tidyMembers_closedMembers before, tidyMembers_closedMembers after⟩⟩
  | .conditional _ _ yes no => ⟨tidyItems_closedItems yes, tidyItems_closedItems no⟩
  | .navigate _ _ input => tidyItems_closedItems input
  | .flwor _ _ feed _ => ⟨feed.tidy_closed, trivial⟩

theorem tidyMembers_closedMembers : ∀ cs : List ItemCursor, tidyMembers (closedMembers cs)
  | [] => trivial
  | c :: rest => ⟨tidyItems_closedItems c, tidyMembers_closedMembers rest⟩

theorem Feed.tidy_closed : ∀ u : Feed, u.closed.Tidy
  | .start _ => trivial
  | .clause c => tidyTuples_closedTuples c

theorem tidyTuples_closedTuples : ∀ c : TupleCursor, tidyTuples (closedTuples c)
  | ⟨_, _, _, _, _, node⟩ => ⟨node.tidy_closed, fun _ => node.openBodies_closed⟩

theorem ClauseNode.tidy_closed : ∀ n : ClauseNode, n.closed.Tidy
  | .forEach _ _ _ _ source feed => ⟨tidyItems_closedItems source, feed.tidy_closed⟩
  | .letBe _ _ _ feed | .keepWhere _ _ feed | .orderBy _ _ feed
  | .groupBy _ _ _ feed | .count _ _ feed => feed.tidy_closed
end

/-! ## Tidy cursors -/

namespace Cursor

variable {ν α : Type} [CursorNode ν]

/-- Function bodies that closing the cursor closes. -/
def bodies (c : Cursor ν α) : Nat := CursorNode.openBodies c.node

/-- A cursor over a tidy node that holds no function body unless it is open. -/
structure Tidy (T : ν → Prop) (c : Cursor ν α) : Prop where
  node : T c.node
  idle : c.isOpen = false → c.bodies = 0

end Cursor

theorem itemBodies_eq (c : ItemCursor) : itemBodies c = c.bodies := by
  obtain ⟨_, _, _, _, _, node⟩ := c
  rw [itemBodies]
  rfl

theorem tupleBodies_eq (c : TupleCursor) : tupleBodies c = c.bodies := by
  obtain ⟨_, _, _, _, _, node⟩ := c
  rw [tupleBodies]
  rfl

theorem tidyItems_iff {c : ItemCursor} : tidyItems c ↔ c.Tidy Node.Tidy := by
  obtain ⟨_, _, _, _, _, node⟩ := c
  rw [tidyItems]
  constructor
  · rintro ⟨hnode, hidle⟩
    exact ⟨hnode, hidle⟩
  · rintro ⟨hnode, hidle⟩
    exact ⟨hnode, hidle⟩

theorem tidyTuples_iff {c : TupleCursor} : tidyTuples c ↔ c.Tidy ClauseNode.Tidy := by
  obtain ⟨_, _, _, _, _, node⟩ := c
  rw [tidyTuples]
  constructor
  · rintro ⟨hnode, hidle⟩
    exact ⟨hnode, hidle⟩
  · rintro ⟨hnode, hidle⟩
    exact ⟨hnode, hidle⟩

/-! ## The protocol -/

theorem Lookahead.isOpen_of_take {α : Type} {l : Lookahead α} {name : String} {a : α}
    (h : (l.take name).1 = .ok a) : (l.take name).2.isOpen = true := by
  cases ho : l.isOpen with
  | false => simp [take, ho, EngineResult.fail] at h
  | true => cases hp : l.pending <;> simp [take, ho, hp, refill]

section
variable {ν α : Type} [CursorNode ν]

/-- Rules that keep the books of nodes. A node that is started holds no body before; its distributed form
leaves what it holds alone. In clean books nodes are tidy. -/
structure Rules.Accounted (clean : Prop) (T : ν → Prop) (ru : Rules ν α) : Prop where
  closed (n : ν) : T (CursorNode.closed n) ∧ CursorNode.openBodies (CursorNode.closed n) = 0
  start {env : Environment} {r : RunRecord} {lost : Int} {n : ν} (context : Context)
    (ht : clean → T n ∧ CursorNode.openBodies n = 0)
    (hb : Books clean lost r.owed (CursorNode.openBodies n)) :
    Accounts clean env (ru.start context) n r lost CursorNode.openBodies fun _ n' => clean → T n'
  pull {env : Environment} {r : RunRecord} {lost : Int} {n : ν} (ht : clean → T n)
    (hb : Books clean lost r.owed (CursorNode.openBodies n)) :
    Accounts clean env ru.pull n r lost CursorNode.openBodies fun _ n' => clean → T n'
  collect {env : Environment} {r : RunRecord} {lost : Int} {n : ν} (mode : Mode) (context : Context)
    (ht : clean → T n) (hb : Books clean lost r.owed (CursorNode.openBodies n)) :
    Accounts clean env (ru.collect mode context) n r lost CursorNode.openBodies fun _ n' =>
      clean → T n' ∧ CursorNode.openBodies n' = CursorNode.openBodies n

namespace Rules.Accounted

variable {T : ν → Prop} {ru : Rules ν α} (h : ru.Accounted clean T) {c : Cursor ν α}

omit h in
theorem drive {β : Type} {x : Step ν β} {Q : β → ν → Prop} (hb : Books clean lost r.owed c.bodies)
    (hx : Accounts clean env x c.node r lost CursorNode.openBodies Q) :
    Accounts clean env (Cursor.drive x) c r lost Cursor.bodies fun b c' =>
      Q b c'.node ∧ c'.lookahead = c.lookahead := by
  refine .read_bind (.whole (k := 0) (fun _ => rfl) rfl hb fun _ => ?_)
  rw [Int.natCast_zero, Int.add_zero]
  exact hx.mono fun _ _ hq => ⟨hq, rfl⟩

include h

theorem tidy_closed (c : Cursor ν α) : c.closed.Tidy T := ⟨(h.closed c.node).1, fun _ => (h.closed c.node).2⟩

theorem bodies_closed (c : Cursor ν α) : c.closed.bodies = 0 := (h.closed c.node).2

/-- Closing a cursor closes the bodies that it holds. -/
theorem release {clean : Prop} {Q : Unit → Cursor ν α → Prop} (hb : Books clean lost r.owed c.bodies)
    (hq : Q () c.closed) : Accounts clean env Cursor.release c r lost Cursor.bodies Q :=
  .read_bind (.write_bind (.closeBodies (hb.congr (by rw [h.bodies_closed]; exact Nat.zero_add _)) hq))

theorem onFailure {β : Type} {x : Step (Cursor ν α) β} {Q : β → Cursor ν α → Prop}
    (hx : Accounts clean env x c r lost Cursor.bodies Q) :
    Accounts clean env (x.onFailure Cursor.release) c r lost Cursor.bodies Q :=
  .onFailure hx fun _ _ hb => h.release hb trivial

/-- The next result leaves it to who asks for it whether the cursor is open. -/
theorem advance (ht : clean → T c.node) (hb : Books clean lost r.owed c.bodies) :
    Accounts clean env ru.advance c r lost Cursor.bodies fun _ c' =>
      (clean → T c'.node) ∧ c'.lookahead = c.lookahead := by
  refine .read_bind ?_
  cases c.materialized with
  | none => exact .locate (drive hb (h.pull ht hb)) _
  | some l =>
    cases l with
    | nil => exact .pure hb ⟨ht, rfl⟩
    | cons a rest =>
      exact .write_pure hb ⟨ht, rfl⟩

theorem collection (context : Context) (ht : clean → T c.node) (hb : Books clean lost r.owed c.bodies) :
    Accounts clean env (ru.collection context) c r lost Cursor.bodies fun _ c' =>
      (clean → T c'.node ∧ c'.bodies = c.bodies) ∧ c'.lookahead = c.lookahead := by
  refine .read_bind ?_
  split
  · exact .locate (.raise hb) _
  · split
    · exact .pure hb ⟨fun hc => ⟨ht hc, rfl⟩, rfl⟩
    · refine .bind (.mono (.locate (drive hb (h.collect c.mode context ht hb)) _) fun rows c' hq r' hb => ?_)
      exact .read_bind (.write_pure hb hq)

/-- A tidy cursor stays tidy when it is asked for its distributed form. -/
theorem collection_tidy (context : Context) (ht : clean → c.Tidy T)
    (hb : Books clean lost r.owed c.bodies) :
    Accounts clean env (ru.collection context) c r lost Cursor.bodies fun _ c' =>
      clean → c'.Tidy T ∧ c'.bodies = c.bodies := by
  refine (h.collection context (fun hc => (ht hc).node) hb).mono fun _ c' ⟨hq, hl⟩ hc => ?_
  obtain ⟨hnode, hbodies⟩ := hq hc
  refine ⟨⟨hnode, fun hidle => ?_⟩, hbodies⟩
  rw [hbodies]
  exact (ht hc).idle (by rw [← hidle, Cursor.isOpen, Cursor.isOpen, hl])

theorem prepare (context : Context) (ht : clean → T c.node ∧ c.bodies = 0)
    (hb : Books clean lost r.owed c.bodies) :
    Accounts clean env (ru.prepare context) c r lost Cursor.bodies fun _ c' => clean → T c'.node := by
  refine .read_bind ?_
  have hpulled : Accounts clean env (do
      let rows ← ru.collection context
      let records ← Step.lift (Engine.materialize rows c.position)
      let c ← Step.read
      Step.write { c with materialized := some records }) c r lost Cursor.bodies
      fun _ c' => clean → T c'.node := by
    refine .bind ((h.collection context (fun hc => (ht hc).1) hb).mono fun rows c' ⟨hq, _⟩ r' hb => ?_)
    exact .balanced_bind hb (.materialize rows _) fun _ _ hb =>
      .read_bind (.write hb fun hc => (hq hc).1)
  cases c.mode with
  | unset => exact .locate (.raise hb) _
  | host => exact .locate ((drive hb (h.start context ht hb)).mono fun _ _ hq => hq.1) _
  | rows => exact hpulled
  | columns => exact hpulled

theorem begin (context : Context) (ht : clean → T c.node ∧ c.bodies = 0)
    (hb : Books clean lost r.owed c.bodies) :
    Accounts clean env (ru.begin context) c r lost Cursor.bodies fun _ c' =>
      (clean → c'.Tidy T) ∧ c'.isOpen = true := by
  refine .bind ((h.prepare context ht hb).mono fun _ c ht r hb => ?_)
  refine .bind ((h.advance ht hb).mono fun first c ⟨ht, _⟩ r hb => ?_)
  exact .read_bind (.write hb ⟨fun hc => ⟨ht hc, fun hidle => by cases hidle⟩, rfl⟩)

/-- Opening a tidy cursor opens it and keeps it tidy. -/
theorem openIn (context : Context) (ht : clean → c.Tidy T) (hb : Books clean lost r.owed c.bodies) :
    Accounts clean env (ru.openIn context) c r lost Cursor.bodies fun _ c' =>
      (clean → c'.Tidy T) ∧ c'.isOpen = true := by
  have hbegin {c : Cursor ν α} {r : RunRecord} (ht : clean → T c.node ∧ c.bodies = 0)
      (hb : Books clean lost r.owed c.bodies) : Accounts clean env (do
      Step.lift (Engine.count Metrics.iteratorOpened)
      (ru.begin context).onFailure Cursor.release) c r lost Cursor.bodies fun _ c' =>
        (clean → c'.Tidy T) ∧ c'.isOpen = true :=
    .balanced_bind hb (Engine.Balanced.inherited.count (fun _ => rfl) fun _ => rfl) fun _ _ hb =>
      h.onFailure (h.begin context ht hb)
  refine .read_bind ?_
  cases ho : c.isOpen with
  | true =>
    have hclosed : T c.closed.node ∧ c.closed.bodies = 0 := h.closed c.node
    exact .bind (h.release hb fun r hb => hbegin (fun _ => hclosed) hb)
  | false => exact hbegin (fun hc => ⟨(ht hc).node, (ht hc).idle ho⟩) hb

theorem reset (context : Context) (hb : Books clean lost r.owed c.bodies) :
    Accounts clean env (ru.reset context) c r lost Cursor.bodies fun _ c' =>
      (clean → c'.Tidy T) ∧ c'.isOpen = true := by
  have hclosed : T c.closed.node ∧ c.closed.bodies = 0 := h.closed c.node
  exact .bind (h.release hb fun r hb => h.begin context (fun _ => hclosed) hb)

/-- Handing out a result leaves an open cursor open. -/
theorem next (ht : clean → T c.node) (hb : Books clean lost r.owed c.bodies) :
    Accounts clean env ru.next c r lost Cursor.bodies fun _ c' =>
      (clean → T c'.node) ∧ c'.isOpen = true := by
  refine .read_bind ?_
  rcases htake : c.lookahead.take c.name with ⟨e | a, l⟩
  · exact .raise hb
  · have ho : l.isOpen = true := by simpa [htake] using Lookahead.isOpen_of_take (congrArg Prod.fst htake)
    refine .write_bind (.bind ((h.advance (c := { c with lookahead := l }) ht hb).mono
      fun following c' ⟨ht, hl⟩ r hb => ?_))
    refine .read_bind (.write_pure hb ⟨ht, ?_⟩)
    simpa only [Cursor.isOpen, Lookahead.refill, hl] using ho

theorem next? (ht : clean → c.Tidy T) (hb : Books clean lost r.owed c.bodies) :
    Accounts clean env ru.next? c r lost Cursor.bodies fun _ c' =>
      (clean → c'.Tidy T) ∧ c'.isOpen = c.isOpen := by
  refine .read_bind ?_
  cases hn : c.hasNext with
  | true =>
    have ho : c.isOpen = true := by
      simp only [Cursor.hasNext, Lookahead.hasNext, Bool.and_eq_true] at hn
      exact hn.1
    refine .bind ((h.next (fun hc => (ht hc).node) hb).mono fun a c' hc' r hb => ?_)
    obtain ⟨hnode, ho'⟩ := hc'
    exact .pure hb ⟨fun hc => ⟨hnode hc, fun hidle => by rw [ho'] at hidle; cases hidle⟩, by rw [ho, ho']⟩
  | false => exact .pure hb ⟨ht, rfl⟩

theorem drainOnto (limit : Nat) (taken : List α) (ht : clean → T c.node)
    (hb : Books clean lost r.owed c.bodies) :
    Accounts clean env (ru.drainOnto limit taken) c r lost Cursor.bodies fun _ c' => c'.bodies = 0 := by
  induction limit generalizing c r taken with
  | zero => exact .exhausted hb
  | succ limit ih =>
    refine .read_bind ?_
    cases c.hasNext with
    | true =>
      exact .bind ((h.onFailure (h.next ht hb)).mono fun a c' ⟨ht, _⟩ r hb => ih (a :: taken) ht hb)
    | false => exact .bind (h.release hb fun _ hb => .pure hb (h.bodies_closed c))

end Rules.Accounted
end
end HybridQuery
