import HybridQuery.Proofs.Landing
import HybridQuery.Proofs.Lookups.Frames

/-!
# Counting what is read

A call of a source reads a file: its lines, the items of its lines, or the objects of its lines for a frame. The
records are counted when the distributed form is made, which pulling goes through as well. The columnar form is
made without counting them.

* `Builtin.records?`: the records that a source finds at a location, if it can read it.
* `Engine.lands_readSource`, `Engine.lands_jsonFrame`: reading counts nothing by itself, and finds these records.
* `Engine.Counts`, `Engine.Delivers`: what a request adds to the counter, and when it succeeds.
* `Ingested.advance`, `Ingested.drainOnto`: handing out results counts nothing more.
* `Evaluator.sources_counted`: pulling a call, and asking for its distributed form.
* `Evaluator.frame_uncounted`: its columnar form.
-/

namespace HybridQuery

open Run (Lands)

variable {α : Type} {env : Environment}

/-! ## Records of a file -/

/-- The lines that hold a record of JSON: those that are not blank. -/
def Text.recordLines (lines : List String) : List String := lines.filter fun line => !(Text.trim line).isEmpty

namespace Builtin

/-- The sources that read a file. -/
def ReadsFile (b : Builtin) : Prop := b = .jsonFile ∨ b = .textFile ∨ b = .structuredJsonFile

/-- The records that a source finds at a location, if it can read it: every line of a text, or the item of every
line that is not blank, as long as all of them are JSON, and objects if they are to make a frame. -/
def records? (b : Builtin) (files : Files) (location : String) : Option (List Item) := do
  let lines := Text.lines (← (SourceLocation.readText files location).toOption)
  match b with
  | .textFile => return lines.map .string
  | .jsonFile => ((Text.recordLines lines).mapM Item.ofLine).toOption
  | .structuredJsonFile =>
    ((Text.recordLines lines).mapM Item.ofLine).toOption.filter fun items => items.all Item.isObject
  | _ => none

end Builtin

/-! ## Reading -/

namespace Engine

variable {r : RunRecord} {location : String} {partitions : Nat}

theorem lands_sourceText {Q : Except SourceFault String → RunRecord → Prop} {E : RunRecord → Prop}
    (h : ∀ r', r'.metrics = r.metrics → Q (SourceLocation.readText env.files location) r') :
    Lands env (sourceText location) r Q E := by
  refine .bind (.environment ?_)
  split
  · exact .bind (.consult fun r' hr => .pure (h r' hr))
  · exact .pure (h r rfl)

/-- The lines of a text are read without counting anything. -/
theorem lands_textLines :
    Lands env (textLines location partitions) r
      (fun lines r' => r'.metrics = r.metrics ∧
        ∃ text, SourceLocation.readText env.files location = .ok text ∧ lines.records = Text.lines text)
      fun r' => r'.metrics = r.metrics ∧ (SourceLocation.readText env.files location).toOption = none := by
  refine .bind (.bind (lands_sourceText fun r' hr => ?_))
  cases SourceLocation.readText env.files location with
  | error fault => exact .pure (.fail ⟨hr, rfl⟩)
  | ok text => 
    exact .bind (.log fun r'' hr' => .pure (.pure ⟨hr'.trans hr, text, rfl, Collection.records_parallelize _ _⟩))

/-! ### Items of lines -/

theorem flatten_mapM_lineItems (lines : List String) :
    List.flatten <$> lines.mapM lineItems = (Text.recordLines lines).mapM Item.ofLine := by
  induction lines with
  | nil => rfl
  | cons line lines ih =>
    rw [Text.recordLines] at ih
    rw [List.mapM_cons, Text.recordLines, List.filter_cons, lineItems]
    cases (Text.trim line).isEmpty with
    | true =>
      change List.flatten <$> (lines.mapM lineItems >>= fun rest => pure ([] :: rest)) = _
      simpa using ih
    | false => simp [← ih]

/-- The items of a file of lines are those of the lines that are not blank. -/
theorem records_flatMapM_lineItems (lines : Collection String) :
    Collection.records <$> lines.flatMapM lineItems = (Text.recordLines lines.records).mapM Item.ofLine := by
  rw [Collection.records_flatMapM, flatten_mapM_lineItems]

theorem lands_jsonLines :
    Lands env (jsonLines location partitions) r
      (fun rows r' => r'.metrics = r.metrics ∧ Builtin.records? .jsonFile env.files location = some rows.records)
      fun r' => r'.metrics = r.metrics ∧ Builtin.records? .jsonFile env.files location = none := by
  refine .bind (lands_textLines.mono ?_ ?_)
  · rintro lines r' ⟨hr, text, htext, hlines⟩
    have hitems := records_flatMapM_lineItems lines
    rw [hlines] at hitems
    refine .ofResult (fun rows hrows => ⟨hr, ?_⟩) fun e he => ⟨hr, ?_⟩
    · rw [hrows] at hitems
      simp [Builtin.records?, htext, ← hitems, Except.toOption]
    · rw [he] at hitems
      simp [Builtin.records?, htext, ← hitems, Except.toOption]
  · rintro r' ⟨hr, htext⟩
    exact ⟨hr, by simp [Builtin.records?, htext]⟩

end Engine

/-! ### Objects in a frame -/

namespace Frame

variable {c : Collection Item} {frame : Frame Item}

theorem all_isObject_of_ofObjects (h : ofObjects c = .ok frame) : c.records.all Item.isObject = true := by
  have hkeys := flatten_mapM_keysOf c.partitions
  rw [ofObjects] at h
  obtain ⟨keys, hk, -⟩ := except_bind_eq_ok_iff.mp h
  rw [hk] at hkeys
  have hall : keysOf c.records = .ok keys.flatten := hkeys.symm
  rw [keysOf] at hall
  split at hall
  case h_1 => cases hall
  case h_2 hnone => simpa using hnone

/-- A frame of objects has a row for each. -/
theorem count_ofObjects (h : ofObjects c = .ok frame) : frame.count = c.records.length := by
  rw [count_eq]
  exact (List.rel_flatten (partitions_toRows_objects h)).length_eq.symm

end Frame

namespace Engine

variable {r : RunRecord} {location : String} {partitions : Nat}

theorem lands_jsonFrame :
    Lands env (jsonFrame location) r
      (fun frame r' => r'.metrics = r.metrics ∧
        ∃ items, Builtin.records? .structuredJsonFile env.files location = some items ∧ frame.count = items.length)
      fun r' => r'.metrics = r.metrics ∧ Builtin.records? .structuredJsonFile env.files location = none := by
  have hrecords : Builtin.records? .structuredJsonFile env.files location =
      (Builtin.records? .jsonFile env.files location).filter fun items => items.all Item.isObject := by
    simp only [Builtin.records?]
    cases (SourceLocation.readText env.files location).toOption <;> rfl
  rw [hrecords]
  refine .bind (.environment (.bind (lands_jsonLines.mono ?_ ?_)))
  · rintro rows r' ⟨hr, hitems⟩
    rw [hitems]
    refine .ofResult (fun frame hframe => ⟨hr, rows.records, ?_, Frame.count_ofObjects hframe⟩) fun e he => ⟨hr, ?_⟩
    · exact Option.filter_some_pos (Frame.all_isObject_of_ofObjects hframe)
    · refine Option.filter_some_neg (Bool.eq_false_iff.mpr fun hall => ?_)
      obtain ⟨frame, hframe⟩ := Frame.exists_ofObjects (List.all_eq_true.mp hall)
      rw [hframe] at he
      cases he
  · rintro r' ⟨hr, hnone⟩
    exact ⟨hr, by rw [hnone]; rfl⟩

/-- The distributed form of a source, before its records are counted. -/
def readSource (b : Builtin) (location : String) (partitions : Nat) : Engine (Collection Item) :=
  match b with
  | .jsonFile => jsonLines location partitions
  | .textFile => do return (← textLines location partitions).map .string
  | _ => do return (← jsonFrame location).toRows

/-- A source is read without counting anything. -/
theorem lands_readSource {b : Builtin} (hb : b.ReadsFile) :
    Lands env (readSource b location partitions) r
      (fun rows r' => r'.metrics = r.metrics ∧
        ∃ items, b.records? env.files location = some items ∧ rows.count = items.length)
      fun r' => r'.metrics = r.metrics ∧ b.records? env.files location = none := by
  rcases hb with rfl | rfl | rfl
  · exact lands_jsonLines.mono (fun rows r' ⟨hr, hrows⟩ => ⟨hr, _, hrows, rows.count_eq⟩) fun _ h => h
  · refine .bind (lands_textLines.mono ?_ fun r' ⟨hr, htext⟩ => ⟨hr, by simp [Builtin.records?, htext]⟩)
    rintro lines r' ⟨hr, text, htext, hlines⟩
    refine .pure ⟨hr, (Text.lines text).map .string, ?_, ?_⟩
    · simp [Builtin.records?, htext, Except.toOption]
    · rw [Collection.count_eq, Collection.records_map, hlines]
  · refine .bind (lands_jsonFrame.mono ?_ fun _ h => h)
    rintro frame r' ⟨hr, items, hitems, hcount⟩
    exact .pure ⟨hr, items, hitems, by rw [Collection.count_eq, ← Frame.count_eq, hcount]⟩

/-- What is pulled to the host was ingested before. -/
theorem lands_materialize {c : Collection α} {position : SourcePosition} :
    Lands env (materialize c position) r
      (fun _ r' => r'.metrics.recordsIngested = r.metrics.recordsIngested)
      fun r' => r'.metrics.recordsIngested = r.metrics.recordsIngested := by
  refine .bind (.environment (.bind (.ofResult (fun records _ => ?_) fun _ _ => rfl)))
  exact .bind (.count (.bind (.log fun r' hr => .pure (by rw [hr]; rfl))))

end Engine

/-! ## Counting -/

namespace Engine

/-- The records that were ingested when a computation has ended, in a value or in a failure. -/
def ingestedAfter (x : Engine α) (env : Environment) (r : RunRecord) : Nat :=
  match x env r with
  | .ok _ r | .error _ r => r.metrics.recordsIngested

/-- The records that a source finds with the inputs that are computed for it. -/
def found? (b : Builtin) (inputs : Engine (String × Nat)) (env : Environment) (r : RunRecord) : Option (List Item) :=
  match inputs env r with
  | .ok (location, _) _ => b.records? env.files location
  | .error _ _ => none

/-- What the inputs ingest and, if the source can be read then, its records, each counted once. -/
def ingestedOnce (b : Builtin) (inputs : Engine (String × Nat)) (env : Environment) (r : RunRecord) : Nat :=
  match found? b inputs env r with
  | some items => Metrics.addAmount (inputs.ingestedAfter env r) items.length
  | none => inputs.ingestedAfter env r

/-- A source goes on from its inputs, with what it finds at their location and what was ingested for them; if they
fail, nothing is found. -/
theorem lands_inputs {b : Builtin} {inputs : Engine (String × Nat)} {next : String × Nat → Engine α}
    {Q : Option (List Item) → Nat → α → RunRecord → Prop} {E : Option (List Item) → Nat → RunRecord → Prop}
    {r : RunRecord}
    (hnext : ∀ location partitions r', Lands env (next (location, partitions)) r'
      (Q (b.records? env.files location) r'.metrics.recordsIngested)
      (E (b.records? env.files location) r'.metrics.recordsIngested))
    (hinputs : ∀ r', E none r'.metrics.recordsIngested r') :
    Lands env (inputs >>= next) r (Q (found? b inputs env r) (inputs.ingestedAfter env r))
      (E (found? b inputs env r) (inputs.ingestedAfter env r)) := by
  refine .bind (Lands.self.mono ?_ ?_)
  · rintro ⟨location, partitions⟩ r' h
    simp only [found?, ingestedAfter, h]
    exact hnext location partitions r'
  · rintro r' ⟨f, h⟩
    simp only [found?, ingestedAfter, h]
    exact hinputs r'

/-- However a request ends, the records of the source were counted once, or not at all if it cannot be read. -/
def Counts (x : Engine α) (b : Builtin) (inputs : Engine (String × Nat)) : Prop :=
  ∀ env r, x.ingestedAfter env r = ingestedOnce b inputs env r

/-- A request succeeds, with as many records as the source finds, if it can be read, and fails if it cannot. -/
def Delivers (x : Engine α) (b : Builtin) (inputs : Engine (String × Nat)) (size : α → Nat) : Prop :=
  ∀ env r, Lands env x r (fun a _ => ∃ items, found? b inputs env r = some items ∧ size a = items.length)
    fun _ => found? b inputs env r = none

end Engine

namespace PlanEvaluator

variable (ev : PlanEvaluator) {b : Builtin} {arguments : List Plan} {context : Context} {r : RunRecord}

/-- What a source reads with, from its arguments: the location and the number of partitions. -/
def sourceInputs (b : Builtin) (arguments : List Plan) (context : Context) : Engine (String × Nat) := do
  let location ← ev.sourceLocation b arguments context
  match b with
  | .structuredJsonFile => return (location, (← Run.environment).defaultPartitions)
  | _ => return (location, ← ev.sourcePartitions arguments context)

/-- The distributed form of a source: its arguments are evaluated, it is read, and its records are counted. -/
theorem sourceRows_eq (hb : b.ReadsFile) :
    ev.sourceRows b arguments context = (do
      let (location, partitions) ← ev.sourceInputs b arguments context
      countRecords (← Engine.readSource b location partitions)) := by
  rcases hb with rfl | rfl | rfl
  · simp only [sourceRows, sourceInputs, Engine.readSource, bind_assoc, pure_bind]
  · simp only [sourceRows, sourceInputs, Engine.readSource, bind_assoc, pure_bind]
  · simp only [sourceRows, sourceFrame, sourceInputs, Engine.readSource, bind_assoc, pure_bind, Run.environment_bind]

/-- The columnar form of a source: its arguments are evaluated, and it is read. -/
theorem sourceFrame_eq :
    ev.sourceFrame .structuredJsonFile arguments context = (do
      let (location, _) ← ev.sourceInputs .structuredJsonFile arguments context
      Engine.jsonFrame location) := by
  simp only [sourceFrame, sourceInputs, bind_assoc, pure_bind, Run.environment_bind]

theorem lands_sourceRows (hb : b.ReadsFile) :
    Lands env (ev.sourceRows b arguments context) r
      (fun rows r' => ∃ items, Engine.found? b (ev.sourceInputs b arguments context) env r = some items ∧
        rows.count = items.length ∧ r'.metrics.recordsIngested =
          Metrics.addAmount ((ev.sourceInputs b arguments context).ingestedAfter env r) items.length)
      fun r' => Engine.found? b (ev.sourceInputs b arguments context) env r = none ∧
        r'.metrics.recordsIngested = (ev.sourceInputs b arguments context).ingestedAfter env r := by
  rw [ev.sourceRows_eq hb]
  refine Engine.lands_inputs (Q := fun found n (rows : Collection Item) r' => ∃ items, found = some items ∧
      rows.count = items.length ∧ r'.metrics.recordsIngested = Metrics.addAmount n items.length)
    (E := fun found n r' => found = none ∧ r'.metrics.recordsIngested = n) (fun location partitions r₁ => ?_)
    fun _ => ⟨rfl, rfl⟩
  refine .bind ((Engine.lands_readSource hb).mono ?_ fun r₂ ⟨hr, hnone⟩ => ⟨hnone, by rw [hr]⟩)
  rintro rows r₂ ⟨hr, items, hitems, hcount⟩
  exact .bind (.count (.pure ⟨items, hitems, hcount, by rw [← hcount, ← hr]; rfl⟩))

/-- The columnar form of a source is read without counting its records. -/
theorem lands_sourceFrame :
    Lands env (ev.sourceFrame .structuredJsonFile arguments context) r
      (fun frame r' => (∃ items, Engine.found? .structuredJsonFile
          (ev.sourceInputs .structuredJsonFile arguments context) env r = some items ∧ frame.count = items.length) ∧
        r'.metrics.recordsIngested = (ev.sourceInputs .structuredJsonFile arguments context).ingestedAfter env r)
      fun r' => Engine.found? .structuredJsonFile
          (ev.sourceInputs .structuredJsonFile arguments context) env r = none ∧
        r'.metrics.recordsIngested =
          (ev.sourceInputs .structuredJsonFile arguments context).ingestedAfter env r := by
  rw [ev.sourceFrame_eq]
  refine Engine.lands_inputs (b := .structuredJsonFile)
    (Q := fun found n (frame : Frame Item) r' => (∃ items, found = some items ∧ frame.count = items.length) ∧
      r'.metrics.recordsIngested = n)
    (E := fun found n r' => found = none ∧ r'.metrics.recordsIngested = n) (fun location partitions r₁ => ?_)
    fun _ => ⟨rfl, rfl⟩
  exact Engine.lands_jsonFrame.mono (fun frame r₂ ⟨hr, h⟩ => ⟨h, by rw [hr]⟩) fun r₂ ⟨hr, h⟩ => ⟨h, by rw [hr]⟩

theorem ends_sourceRows (hb : b.ReadsFile) {n : Nat}
    (hn : Engine.ingestedOnce b (ev.sourceInputs b arguments context) env r = n) :
    Lands env (ev.sourceRows b arguments context) r (fun _ r' => r'.metrics.recordsIngested = n)
      fun r' => r'.metrics.recordsIngested = n := by
  refine (ev.lands_sourceRows hb).mono ?_ ?_
  · rintro rows r' ⟨items, hitems, -, hr⟩
    rw [hr, ← hn, Engine.ingestedOnce, hitems]
  · rintro r' ⟨hnone, hr⟩
    rw [hr, ← hn, Engine.ingestedOnce, hnone]

end PlanEvaluator

/-! ## Cursors over a call -/

/-- A cursor that drives a computation. -/
def Computing (c : ItemCursor) : Prop := ∃ computation buffer, c.node = .computed computation buffer

/-- A cursor that drives a computation, beside a record of so many ingested records. -/
def Ingested (n : Nat) (s : ItemCursor × RunRecord) : Prop := Computing s.1 ∧ s.2.metrics.recordsIngested = n

namespace Ingested

variable {n : Nat} {s : ItemCursor × RunRecord}

theorem release (h : Ingested n s) : Lands env Cursor.release s (fun _ => Ingested n) (Ingested n) := by
  obtain ⟨c, r⟩ := s
  obtain ⟨⟨computation, buffer, hnode⟩, hr⟩ := h
  dsimp only at hnode hr
  refine .bind (.read (.bind (.write (.lift (.count ⟨⟨computation, [], ?_⟩, hr⟩)))))
  rw [Cursor.closed, hnode]
  rfl

/-- What is left of the items of a computation is handed out without counting anything. -/
theorem drive_pull {ev : Evaluator} (h : Ingested n s) :
    Lands env (Cursor.drive ev.pullNode) s (fun _ => Ingested n) (Ingested n) := by
  obtain ⟨c, r⟩ := s
  obtain ⟨⟨computation, buffer, hnode⟩, hr⟩ := h
  dsimp only at hnode hr
  refine .bind (.read (.bind (.part (.bind (.read ?_)))))
  rw [hnode]
  cases buffer with
  | nil => exact .pure (.pure ⟨⟨computation, [], rfl⟩, hr⟩)
  | cons i rest => exact .bind (.write (.pure (.pure ⟨⟨computation, rest, rfl⟩, hr⟩)))

variable {rules : Rules Node Item} (ev : Evaluator) (hpull : rules.pull = ev.pullNode)
include hpull

theorem advance (h : Ingested n s) : Lands env rules.advance s (fun _ => Ingested n) (Ingested n) := by
  obtain ⟨c, r⟩ := s
  refine .bind (.read ?_)
  split
  · exact .pure h
  · exact .bind (.write (.pure h))
  · rw [hpull]
    exact .locate h.drive_pull

theorem next (h : Ingested n s) : Lands env rules.next s (fun _ => Ingested n) (Ingested n) := by
  obtain ⟨c, r⟩ := s
  refine .bind (.read ?_)
  split
  case h_1 => exact h
  case h_2 i lookahead _ =>
    have htaken : Ingested n ({ c with lookahead := lookahead }, r) := h
    refine .bind (.write (.bind ((advance ev hpull htaken).mono ?_ fun _ => id)))
    rintro following ⟨c', r'⟩ h'
    exact .bind (.read (.bind (.write (.pure h'))))

theorem next? (h : Ingested n s) : Lands env rules.next? s (fun _ => Ingested n) (Ingested n) := by
  obtain ⟨c, r⟩ := s
  refine .bind (.read ?_)
  split
  · exact .bind ((next ev hpull h).mono (fun _ s h => .pure h) fun _ => id)
  · exact .pure h

/-- Handing out what is left counts nothing, however many rounds it may take. -/
theorem drainOnto (h : Ingested n s) {rounds : Nat} {taken : List Item} :
    Lands env (rules.drainOnto rounds taken) s (fun _ => Ingested n) (Ingested n) := by
  induction rounds generalizing s taken with
  | zero => exact h
  | succ rounds ih =>
    obtain ⟨c, r⟩ := s
    refine .bind (.read ?_)
    split
    · exact .bind ((Lands.onFailure ((next ev hpull h).mono (fun _ _ h => h) fun _ => release)).mono
        (fun i s h => ih h) fun _ => id)
    · exact .bind ((release h).mono (fun _ s h => .pure h) fun _ => id)

end Ingested

namespace PlanEvaluator

variable (ev : PlanEvaluator) {b : Builtin} {arguments : List Plan} {context : Context} {r : RunRecord}

theorem ends_builtinArgument {index : Nat} {P : RunRecord → Prop} (h : P r) :
    Lands env (builtinArgument b arguments index) r (fun _ => P) P := by
  rw [builtinArgument]
  split
  · exact .pure h
  · exact .fail h

/-- The items of a source are pulled to the host after its records were counted. -/
theorem ends_compute (hb : b.ReadsFile) {n : Nat}
    (hn : Engine.ingestedOnce b (ev.sourceInputs b arguments context) env r = n) :
    Lands env (ev.compute context (.builtin b arguments)) r (fun _ r' => r'.metrics.recordsIngested = n)
      fun r' => r'.metrics.recordsIngested = n := by
  have hitems : ev.compute context (.builtin b arguments) = ev.sourceItems b arguments context := by
    rcases hb with rfl | rfl | rfl <;> rfl
  rw [hitems]
  refine .bind ((ev.ends_sourceRows hb hn).mono (fun rows r' hr => ?_) fun _ => id)
  refine .bind ((ends_builtinArgument hr).mono (fun p r'' hr' => ?_) fun _ => id)
  exact Engine.lands_materialize.mono (fun _ _ h => h.trans hr') fun _ h => h.trans hr'

end PlanEvaluator

namespace Evaluator

variable {below : Evaluator} {limit n : Nat} {mode : Mode} {position : SourcePosition} {b : Builtin}
  {arguments : List Plan} {context : Context} {r : RunRecord}

/-- The distributed form of a call is that of its source, however the cursor was opened. -/
theorem lands_collection (hmode : mode.isParallel = true) {Q : Collection Item → RunRecord → Prop}
    {E : RunRecord → Prop} (h : Lands env (below.plans.sourceRows b arguments context) r Q E) :
    Lands env ((above (fun _ => below) limit).items.collection context)
      (.idle mode position (.computed (.builtin b arguments) []), r)
      (fun rows s => Computing s.1 ∧ Q rows s.2) fun s => Computing s.1 ∧ E s.2 := by
  refine .bind (.read ?_)
  -- A cursor that is idle has kept no distributed form, in whatever context it is asked.
  rw [Cursor.idle, hmode]
  refine .bind (.locate (.bind (.read (.bind (.part (.bind (.read (.lift ?_))))))))
  refine h.mono (fun rows r' hr => ?_) fun r' hr => ⟨⟨_, _, rfl⟩, hr⟩
  exact .pure (.bind (.read (.bind (.write (.pure ⟨⟨_, _, rfl⟩, hr⟩)))))

/-- A cursor over a call is prepared by reading the source, in every mode. -/
theorem ends_prepare (hb : b.ReadsFile) (hmode : mode ≠ .unset)
    (hn : Engine.ingestedOnce b (below.plans.sourceInputs b arguments context) env r = n) :
    Lands env ((above (fun _ => below) limit).items.prepare context)
      (.idle mode position (.computed (.builtin b arguments) []), r) (fun _ => Ingested n) (Ingested n) := by
  have hpulled (hparallel : mode.isParallel = true) : Lands env (do
        let rows ← (above (fun _ => below) limit).items.collection context
        let records ← Step.lift (Engine.materialize rows position)
        let c ← Step.read
        Step.write { c with materialized := some records })
      (.idle mode position (.computed (.builtin b arguments) []), r) (fun _ => Ingested n) (Ingested n) := by
    refine .bind ((lands_collection hparallel (below.plans.ends_sourceRows hb hn)).mono (fun rows s h => ?_)
      fun _ => id)
    refine .bind (.lift (Engine.lands_materialize.mono (fun records r' hr => ?_) fun r' hr => ⟨h.1, hr.trans h.2⟩))
    exact .bind (.read (.write ⟨h.1, hr.trans h.2⟩))
  refine .bind (.read ?_)
  cases mode with
  | unset => exact absurd rfl hmode
  | host =>
    refine .locate (.bind (.read (.bind (.part (.bind (.read (.bind (.lift ?_))))))))
    refine (below.plans.ends_compute hb hn).mono (fun items r' hr => ?_) fun r' hr => ⟨⟨_, _, rfl⟩, hr⟩
    exact .write (.pure ⟨⟨_, _, rfl⟩, hr⟩)
  | rows => exact hpulled rfl
  | columns => exact hpulled rfl

/-- To open a cursor over a call reads the source, and counts what it finds. -/
theorem ends_openIn (hb : b.ReadsFile) (hmode : mode ≠ .unset)
    (hn : Engine.ingestedOnce b (do
      Engine.count Metrics.iteratorOpened
      below.plans.sourceInputs b arguments context) env r = n) :
    Lands env ((above (fun _ => below) limit).items.openIn context)
      (.idle mode position (.computed (.builtin b arguments) []), r) (fun _ => Ingested n) (Ingested n) := by
  -- The iterator is counted before the inputs are computed; a failure then closes it, which ingests nothing.
  refine .bind (.read (.bind (.lift (.count (.onFailure (.bind ?_))))))
  refine (ends_prepare hb hmode hn).mono (fun _ s h => ?_) fun s h => h.release
  refine .bind ((Ingested.advance below rfl h).mono (fun first s h => ?_) fun s h => h.release)
  exact .bind (.read (.write h))

/-! ## All forms of a call -/

theorem counts_of_ends {x : Engine α} {inputs : Engine (String × Nat)}
    (h : ∀ env r, Lands env x r (fun _ r' => r'.metrics.recordsIngested = Engine.ingestedOnce b inputs env r)
      fun r' => r'.metrics.recordsIngested = Engine.ingestedOnce b inputs env r) : x.Counts b inputs := by
  intro env r
  have := h env r
  rw [Engine.ingestedAfter]
  unfold Lands at this
  cases hx : x env r with
  | ok a r' => rwa [hx] at this
  | error f r' => rwa [hx] at this

/-- Whatever is done with a cursor once it was opened, if it counts nothing itself. -/
theorem pull_counts (hb : b.ReadsFile) (hmode : mode ≠ .unset) {x : Step ItemCursor α}
    (hx : ∀ env n s, Ingested n s → Lands env x s (fun _ => Ingested n) (Ingested n)) :
    Engine.Counts (Step.eval (.idle mode position (.computed (.builtin b arguments) [])) do
      (above (fun _ => below) limit).items.openIn context
      x) b (do
        Engine.count Metrics.iteratorOpened
        below.plans.sourceInputs b arguments context) := by
  refine counts_of_ends fun env r => .eval (.bind ?_)
  refine (ends_openIn hb hmode rfl).mono (fun _ s h => ?_) fun s h => h.2
  exact (hx env _ s h).mono (fun _ s h => h.2) fun s h => h.2

theorem rows_counts (hb : b.ReadsFile) (hmode : mode.isParallel = true) :
    ((above (fun _ => below) limit).plans.rows (.mk mode position (.compute (.builtin b arguments)))
      context).Counts b (below.plans.sourceInputs b arguments context) := by
  refine counts_of_ends fun env r => .eval ?_
  exact (lands_collection hmode (below.plans.ends_sourceRows hb rfl)).mono (fun rows s h => h.2) fun s h => h.2

theorem rows_delivers (hb : b.ReadsFile) (hmode : mode.isParallel = true) :
    ((above (fun _ => below) limit).plans.rows (.mk mode position (.compute (.builtin b arguments)))
      context).Delivers b (below.plans.sourceInputs b arguments context) Collection.count := by
  refine fun env r => .eval ?_
  refine (lands_collection hmode (below.plans.lands_sourceRows hb)).mono ?_ fun s h => h.2.1
  rintro rows s ⟨-, items, hitems, hcount, -⟩
  exact ⟨items, hitems, hcount⟩

/-- The columnar form of a call is delivered, and none of its records is counted. -/
theorem lands_planFrame (hmode : mode.isColumnar = true) :
    Lands env ((above (fun _ => below) limit).plans.planFrame
        (.mk mode position (.compute (.builtin .structuredJsonFile arguments))) context) r
      (fun frame r' => (∃ items, Engine.found? .structuredJsonFile
          (below.plans.sourceInputs .structuredJsonFile arguments context) env r = some items ∧
          frame.count = items.length) ∧ r'.metrics.recordsIngested =
        (below.plans.sourceInputs .structuredJsonFile arguments context).ingestedAfter env r)
      fun r' => Engine.found? .structuredJsonFile
          (below.plans.sourceInputs .structuredJsonFile arguments context) env r = none ∧
        r'.metrics.recordsIngested =
          (below.plans.sourceInputs .structuredJsonFile arguments context).ingestedAfter env r := by
  change Lands env (Evaluator.frameOf _ (.idle mode position _) context) r _ _
  rw [frameOf, Cursor.idle, hmode]
  exact .locate below.plans.lands_sourceFrame

/-- Every source, called with any arguments in any mode, counts its records once when it is pulled, wholly or in
part, and once when its distributed form is asked for: exactly those that it finds if it can be read, and none if
it cannot. -/
theorem sources_counted (hb : b.ReadsFile) (depth : Nat) (mode : Mode) (position : SourcePosition)
    (arguments : List Plan) (context : Context) :
    let ev := (ofDepth (depth + 1)).plans
    let call : Plan := .mk mode position (.compute (.builtin b arguments))
    let inputs := (ofDepth depth).plans.sourceInputs b arguments context
    let opened := do
      Engine.count Metrics.iteratorOpened
      inputs
    (mode ≠ .unset → (ev.evaluate call context).Counts b opened ∧ (ev.firstOnHost call context).Counts b opened ∧
      (ev.emptyOnHost call context).Counts b opened) ∧
    (mode.isParallel = true → (ev.rows call context).Counts b inputs ∧
      (ev.rows call context).Delivers b inputs Collection.count) ∧
    (b = .structuredJsonFile → mode.isColumnar = true →
      (ev.planFrame call context).Delivers b inputs Frame.count) := by
  intro ev call inputs opened
  refine ⟨fun hmode => ⟨?_, ?_, ?_⟩, fun hmode => ⟨rows_counts hb hmode, rows_delivers hb hmode⟩, ?_⟩
  · exact pull_counts hb hmode fun env n s h => Ingested.drainOnto (ofDepth depth) rfl h
  · refine pull_counts hb hmode fun env n s h => .bind ?_
    refine (Ingested.next? (ofDepth depth) rfl h).mono (fun first s h => ?_) fun _ => id
    exact .bind (h.release.mono (fun _ s h => .pure h) fun _ => id)
  · refine pull_counts hb hmode fun env n s h => .bind (.read ?_)
    exact .bind (h.release.mono (fun _ s h => .pure h) fun _ => id)
  · rintro rfl hmode env r
    exact (lands_planFrame hmode).mono (fun _ _ h => h.1) fun _ h => h.1

/-- Two objects with a blank line between them: more than may be pulled to the host, but all of them are counted. -/
theorem sources_counted_two_objects :
    let text := "\x7b\"k\":1\x7d\n\n\x7b\"k\":2\x7d\n"
    let env : Environment :=
      ⟨2, some 1, .empty, fun path => if path = "d.json" then .file text.toUTF8 else .missing, .info, []⟩
    let location : Plan := .mk .host .unknown (.compute (.literal (.string "d.json")))
    let call : Plan := .mk .columns .unknown (.compute (.builtin .structuredJsonFile [location]))
    let ev := (ofDepth 4).plans
    (ev.evaluate call .root).ingestedAfter env .empty = 2 ∧ (ev.rows call .root).ingestedAfter env .empty = 2 ∧
      Lands env (ev.planFrame call .root) .empty (fun frame _ => frame.count = 2) fun _ => False := by
  intro text env location call ev
  obtain ⟨hpull, hrows, hframe⟩ := sources_counted (b := .structuredJsonFile) (.inr (.inr rfl)) 3 .columns .unknown
    [location] .root
  have hfound : (Engine.found? .structuredJsonFile
      ((ofDepth 3).plans.sourceInputs .structuredJsonFile [location] .root) env .empty).map List.length = some 2 := by
    decide +kernel
  refine ⟨((hpull (by decide)).1 env .empty).trans (by decide +kernel),
    ((hrows rfl).1 env .empty).trans (by decide +kernel), (hframe rfl rfl env .empty).mono ?_ ?_⟩
  · rintro frame r ⟨items, hitems, hcount⟩
    rw [hitems, Option.map_some, Option.some.injEq] at hfound
    exact hcount.trans hfound
  · intro r hnone
    rw [hnone] at hfound
    cases hfound

/-- The number of objects of a file is found through the columnar form of its source, and they are not counted,
although its distributed form counts them. -/
theorem frame_uncounted :
    let text := "\x7b\"k\": 1\x7d\n"
    let env : Environment :=
      ⟨2, none, .empty, fun path => if path = "d.json" then .file text.toUTF8 else .missing, .info, []⟩
    let location : Plan := .mk .host .unknown (.compute (.literal (.string "d.json")))
    let call : Plan := .mk .columns .unknown (.compute (.builtin .structuredJsonFile [location]))
    let ev := (ofDepth 4).plans
    let inputs := (ofDepth 3).plans.sourceInputs .structuredJsonFile [location] .root
    ¬(ev.planFrame call .root).Counts .structuredJsonFile inputs ∧
      Lands env (ev.inputCount .count [call] .root) .empty (fun n r => n = 1 ∧ r.metrics.recordsIngested = 0)
        (fun _ => False) ∧
      (ev.rows call .root).ingestedAfter env .empty = 1 := by
  intro text env location call ev inputs
  have hnone : (ev.planFrame call .root).ingestedAfter env .empty = 0 := by decide +kernel
  have hone : Engine.ingestedOnce .structuredJsonFile inputs env .empty = 1 := by decide +kernel
  refine ⟨fun hcounts => ?_, by decide +kernel, by decide +kernel⟩
  rw [hcounts env .empty, hone] at hnone
  cases hnone

end Evaluator
end HybridQuery
