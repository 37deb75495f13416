import HybridQuery.Proofs.Blame.Values

/-!
# Frames, bindings and calls that stand in a set of positions

* `Frame.StandsIn.toRows`, `Frame.StandsIn.select`, `Frame.ofObjects_endsIn`: frames, from the objects they
  are made of to the rows that they read back as.
* `Context.StandsIn.lookup`, `Context.StandsIn.snapshot`: what a context shows.
* `Catalogue.promoteValue_endsIn`, `Invocation.of_endsIn`: promotion and calls.
-/

namespace HybridQuery

variable {S : Set SourcePosition}

/-! ## Collections -/

section
variable {ε α β : Type} {Q : β → Prop} {E : ε → Prop}

theorem EndsIn.collectionMapM {f : α → Except ε β} {c : Collection α}
    (hf : ∀ a ∈ c.records, EndsIn Q E (f a)) : EndsIn (fun d => ∀ b ∈ d.records, Q b) E (c.mapM f) := by
  have hpartitions : EndsIn (fun ps : List (List β) => ∀ p ∈ ps, ∀ b ∈ p, Q b) E
      (c.partitions.mapM fun partition => partition.mapM f) :=
    .listMapM fun p hp => .listMapM fun a ha => hf a (List.mem_flatten.mpr ⟨p, hp, ha⟩)
  exact hpartitions.bind fun ps h => .ok (List.forall_mem_flatten.mpr h)

theorem EndsIn.collectionFlatMapM {f : α → Except ε (List β)} {c : Collection α}
    (hf : ∀ a ∈ c.records, EndsIn (fun bs => ∀ b ∈ bs, Q b) E (f a)) :
    EndsIn (fun d => ∀ b ∈ d.records, Q b) E (c.flatMapM f) := by
  have hpartitions : EndsIn (fun ps : List (List β) => ∀ p ∈ ps, ∀ b ∈ p, Q b) E
      (c.partitions.mapM fun partition => do return (← partition.mapM f).flatten) :=
    .listMapM fun p hp =>
      (EndsIn.listMapM fun a ha => hf a (List.mem_flatten.mpr ⟨p, hp, ha⟩)).bind
        fun bss h => .ok (List.forall_mem_flatten.mpr h)
  exact hpartitions.bind fun ps h => .ok (List.forall_mem_flatten.mpr h)

end

theorem Collection.standsIn_parallelize {items : Sequence} (h : ItemsStandIn S items) (count : Nat) :
    (Collection.parallelize items count).StandsIn S := by rwa [StandsIn, records_parallelize]

/-! ## Frames -/

namespace Frame

variable {f : Frame Item}

theorem mem_cells {i : Item} :
    i ∈ f.cells ↔ ∃ chunk ∈ f.chunks, ∃ column ∈ chunk.columns, some i ∈ column := by
  simp [cells]

/-- The first column of a chunk is one of its columns, if it has any. -/
theorem mem_cells_of_firstColumn {chunk : Chunk Item} (hchunk : chunk ∈ f.chunks) {i : Item}
    (hi : some i ∈ chunk.firstColumn) : i ∈ f.cells := by
  unfold Chunk.firstColumn at hi
  cases hcolumns : chunk.columns with
  | nil => simp [hcolumns] at hi
  | cons column rest =>
    rw [hcolumns] at hi
    exact mem_cells.mpr ⟨chunk, hchunk, column, by simp [hcolumns], hi⟩

variable (h : f.StandsIn S)
include h

/-- The rows of a frame are made of its cells. -/
theorem StandsIn.toRows : f.toRows.StandsIn S := by
  intro i hi
  obtain ⟨row, hrow, hi⟩ := List.mem_flatten.mp hi
  obtain ⟨chunk, hchunk, rfl⟩ := List.mem_map.mp hrow
  unfold chunkRows at hi
  split at hi
  · obtain ⟨index, -, rfl⟩ := List.mem_map.mp hi
    refine .object fun p hp => ?_
    obtain ⟨⟨name, column⟩, hcolumn, hcell⟩ := List.mem_filterMap.mp hp
    obtain ⟨value, hvalue, rfl⟩ := Option.map_eq_some_iff.mp hcell
    refine h value (mem_cells.mpr ⟨chunk, hchunk, column, (List.of_mem_zip hcolumn).2, ?_⟩)
    exact List.mem_of_getElem? (Option.join_eq_some_iff.mp hvalue)
  · obtain ⟨cell, hcell, hid⟩ := List.mem_filterMap.mp hi
    cases hid
    exact h i (mem_cells_of_firstColumn hchunk hcell)

theorem StandsIn.select (key : String) : (f.select key).StandsIn S := by
  intro i hi
  obtain ⟨chunk', hchunk', column, hcolumn, hi⟩ := mem_cells.mp hi
  obtain ⟨chunk, hchunk, rfl⟩ := List.mem_map.mp hchunk'
  obtain rfl := List.mem_singleton.mp hcolumn
  split at hi
  · split at hi
    · next index _ =>
      cases hcells : chunk.columns[index]? with
      | none => simp [hcells] at hi
      | some column =>
        rw [hcells] at hi
        exact h i (mem_cells.mpr ⟨chunk, hchunk, column, List.mem_of_getElem? hcells, hi⟩)
    · cases List.eq_of_mem_replicate hi
  · obtain ⟨cell, hcell, hmember⟩ := List.mem_map.mp hi
    obtain ⟨value, rfl, hvalue⟩ := Option.bind_eq_some_iff.mp hmember
    exact (h value (mem_cells_of_firstColumn hchunk hcell)).member? key i hvalue

omit h in
theorem keysOf_endsIn (items : Sequence) :
    EndsIn (fun _ => True) (EngineError.BlamesOnly S) (keysOf items) := by
  unfold keysOf
  split
  · exact .fail _
  · exact .ok trivial

omit h in
/-- The cells of a frame of objects are members of the objects. -/
theorem ofObjects_endsIn {rows : Collection Item} (h : rows.StandsIn S) :
    EndsIn (StandsIn S) (EngineError.BlamesOnly S) (ofObjects rows) := by
  have hkeys : EndsIn (fun _ => True) (EngineError.BlamesOnly S) (rows.partitions.mapM keysOf) :=
    (EndsIn.listMapM fun partition _ => keysOf_endsIn partition).mono (fun _ _ => trivial) fun _ h => h
  refine hkeys.bind fun keys _ => .ok fun i hi => ?_
  obtain ⟨chunk, hchunk, column, hcolumn, hi⟩ := mem_cells.mp hi
  obtain ⟨partition, hpartition, rfl⟩ := List.mem_map.mp hchunk
  obtain ⟨name, -, rfl⟩ := List.mem_map.mp hcolumn
  obtain ⟨object, hobject, hmember⟩ := List.mem_map.mp hi
  exact (h object (List.mem_flatten.mpr ⟨partition, hpartition, hobject⟩)).member? name i hmember

end Frame

/-! ## Scopes and tuples -/

theorem BindingsOf.StandsIn.empty : BindingsOf.StandsIn S .empty := List.forall_mem_nil _

theorem BindingsOf.StandsIn.bind {b : Bindings} (h : b.StandsIn S) (name : String) {v : Value Item}
    (hv : v.StandsIn S) : (b.bind name v).StandsIn S :=
  List.forall_mem_cons.mpr ⟨hv, fun p hp => h p (List.mem_of_mem_filter hp)⟩

theorem BindingsOf.StandsIn.foldl {b : Bindings} (h : b.StandsIn S) {pairs : List (String × Value Item)}
    (hp : PairsStandIn S pairs) : (pairs.foldl (fun b p => b.bind p.1 p.2) b).StandsIn S := by
  induction pairs generalizing b with
  | nil => exact h
  | cons p pairs ih =>
    obtain ⟨hv, hp⟩ := List.forall_mem_cons.mp hp
    exact ih (h.bind p.1 hv) hp

theorem mem_of_lookup {α : Type} {pairs : List (String × α)} {name : String} {a : α}
    (h : pairs.lookup name = some a) : ∃ p ∈ pairs, p.2 = a := by
  obtain ⟨before, after, rfl, -⟩ := List.lookup_eq_some_iff.mp h
  exact ⟨(name, a), by simp, rfl⟩

/-- What is looked up among pairs is one of their values. -/
theorem PairsStandIn.lookup {pairs : List (String × Value Item)} (h : PairsStandIn S pairs) (name : String) :
    ∀ v ∈ pairs.lookup name, v.StandsIn S := by
  intro v hv
  obtain ⟨p, hp, rfl⟩ := mem_of_lookup hv
  exact h p hp

namespace Tuple

variable {t : Tuple}

theorem StandsIn.empty : Tuple.StandsIn S .empty := List.forall_mem_nil _

theorem StandsIn.bind (h : t.StandsIn S) (name : String) {v : Value Item} (hv : v.StandsIn S) :
    (t.bind name v).StandsIn S := by
  obtain ⟨pairs⟩ := t
  change PairsStandIn S pairs at h
  change PairsStandIn S (setPair name v pairs)
  induction pairs with
  | nil => exact List.forall_mem_singleton.mpr hv
  | cons p pairs ih =>
    obtain ⟨hp, hr⟩ := List.forall_mem_cons.mp h
    rw [setPair]
    split
    · exact List.forall_mem_cons.mpr ⟨hv, hr⟩
    · exact List.forall_mem_cons.mpr ⟨hp, ih hr⟩

theorem StandsIn.get? (h : t.StandsIn S) (name : String) : ∀ v ∈ t.get? name, v.StandsIn S :=
  PairsStandIn.lookup h name

theorem StandsIn.bindings (h : t.StandsIn S) : t.bindings.StandsIn S := BindingsOf.StandsIn.empty.foldl h

end Tuple

/-! ## Values -/

theorem Value.StandsIn.single {i : Item} (h : i.StandsIn S) : (Value.single i).StandsIn S :=
  List.forall_mem_singleton.mpr h

theorem Value.StandsIn.empty : Value.empty.StandsIn S := List.forall_mem_nil _

theorem Value.StandsIn.integer (n : Int64) : (Value.single (.integer n)).StandsIn S :=
  .single (.atomic rfl)

/-! ## Contexts -/

namespace Context

variable {c : Context}

theorem StandsIn.child (h : c.StandsIn S) {b : Bindings} (hb : b.StandsIn S) : (c.child b).StandsIn S :=
  List.forall_mem_cons.mpr ⟨hb, h⟩

theorem StandsIn.scope (h : c.StandsIn S) {t : Tuple} (ht : t.StandsIn S) : (t.scope c).StandsIn S :=
  h.child ht.bindings

theorem StandsIn.withBinding (h : c.StandsIn S) (name : String) {v : Value Item} (hv : v.StandsIn S) :
    (c.withBinding name v).StandsIn S := h.child (BindingsOf.StandsIn.empty.bind name hv)

theorem StandsIn.detached {b : Bindings} (h : b.StandsIn S) : (Context.detached b).StandsIn S :=
  List.forall_mem_singleton.mpr h

theorem StandsIn.root : Context.root.StandsIn S := .detached .empty

theorem StandsIn.lookup (h : c.StandsIn S) (name : String) : ∀ v ∈ c.lookup name, v.StandsIn S := by
  intro v hv
  obtain ⟨b, hb, hget⟩ := List.exists_of_findSome?_eq_some hv
  exact PairsStandIn.lookup (h b hb) name v hget

theorem StandsIn.binding (h : c.StandsIn S) (name : String) :
    EndsIn (Value.StandsIn S) (EngineError.BlamesOnly S) (c.binding name) := by
  unfold Context.binding
  cases hv : c.lookup name with
  | none => exact .fail _
  | some v => exact .ok (h.lookup name v hv)

theorem StandsIn.snapshot (h : c.StandsIn S) : c.snapshot.StandsIn S := by
  rw [Context.StandsIn] at h
  rw [Context.snapshot]
  generalize c.scopes = scopes at h
  induction scopes with
  | nil => exact .empty
  | cons b scopes ih =>
    obtain ⟨hb, hscopes⟩ := List.forall_mem_cons.mp h
    exact (ih hscopes).foldl hb

end Context

/-! ## Promotion -/

/-- Arguments that are given stand in the set. -/
abbrev ArgumentsStandIn (S : Set SourcePosition) (vs : List (Option (Value Item))) : Prop :=
  ∀ o ∈ vs, ∀ v ∈ o, v.StandsIn S

namespace Catalogue

variable (c : Catalogue)

theorem promote_endsIn {i : Item} (h : i.StandsIn S) (type : ItemType) :
    EndsIn (Item.StandsIn S) (fun _ => True) (c.promote i type) := by
  have hpromote := c.promote_lift h.lift type
  generalize c.promote i type = d at hpromote
  cases hpromote with
  | ok h => exact .ok (Item.standsIn_of_lift h)
  | error e => exact .error trivial

theorem promoteSequence_endsIn {s : Sequence} (h : ItemsStandIn S s) (type : SequenceType) :
    EndsIn (ItemsStandIn S) (fun _ => True) (c.promoteSequence s type) := by
  have hpromote := c.promoteSequence_lift (Sequence.lift_of_standIn h) type
  generalize c.promoteSequence s type = d at hpromote
  cases hpromote with
  | ok h => exact .ok (Item.members_standIn_of_lift h)
  | error e => exact .error trivial

theorem checkCount_endsIn (type : SequenceType) (n : Nat) :
    EndsIn (fun _ => True) (fun _ => True) (type.checkCount n) := .of_forall_ok fun _ _ => trivial

theorem promoteRows_endsIn {rows : Collection Item} (h : rows.StandsIn S) (type : SequenceType) :
    EndsIn (Collection.StandsIn S) (fun _ => True) (do
      type.checkCount rows.count
      rows.mapM fun i => c.promote i type.itemType) :=
  (checkCount_endsIn type _).bind fun _ _ => .collectionMapM fun i hi => c.promote_endsIn (h i hi) _

theorem promoteValue_endsIn {v : Value Item} (h : v.StandsIn S) (type : SequenceType) :
    EndsIn (Value.StandsIn S) (fun _ => True) (c.promoteValue v type) := by
  cases v with
  | items items => exact (c.promoteSequence_endsIn h type).bind fun _ h => .ok h
  | rows rows =>
    exact (checkCount_endsIn type _).bind fun _ _ =>
      (EndsIn.collectionMapM fun i hi => c.promote_endsIn (h i hi) _).bind fun _ h => .ok h
  | columns frame =>
    have hrows : EndsIn (fun _ => True) (fun _ => True)
        (frame.toRows.mapM fun i => c.promote i type.itemType) := .of_forall_ok fun _ _ => trivial
    exact (checkCount_endsIn type _).bind fun _ _ => hrows.bind fun _ _ => .ok h

theorem promoteArguments_endsIn {vs : List (Option (Value Item))} (h : ArgumentsStandIn S vs)
    (types : List SequenceType) :
    EndsIn (ArgumentsStandIn S) (fun _ => True) (c.promoteArguments vs types) := by
  induction vs generalizing types with
  | nil => cases types <;> exact .ok (List.forall_mem_nil _)
  | cons o vs ih =>
    obtain ⟨ho, hvs⟩ := List.forall_mem_cons.mp h
    cases types with
    | nil => exact .ok (List.forall_mem_nil _)
    | cons type types =>
      cases o with
      | none => exact (ih hvs types).bind fun vs hvs => .ok (List.forall_mem_cons.mpr ⟨nofun, hvs⟩)
      | some v =>
        have hsome {w : Value Item} (hw : w.StandsIn S) : ∀ u ∈ some w, u.StandsIn S := by
          rintro _ ⟨⟩
          exact hw
        simp only [promoteArguments]
        split
        · exact (ih hvs types).bind fun vs hvs => .ok (List.forall_mem_cons.mpr ⟨ho, hvs⟩)
        · exact ((c.promoteValue_endsIn (ho v rfl) type).map fun w hw => hsome hw).bind fun o ho =>
            (ih hvs types).bind fun vs hvs => .ok (List.forall_mem_cons.mpr ⟨ho, hvs⟩)

end Catalogue

/-! ## Functions -/

namespace FunctionOf

variable {f : FunctionItem} (h : f.StandsIn S)
include h

omit h in
theorem prepareArguments_endsIn (c : Catalogue) {vs : List (Option (Value Item))}
    (ha : ArgumentsStandIn S vs) :
    EndsIn (ArgumentsStandIn S) (EngineError.BlamesOnly S) (f.prepareArguments c vs) := by
  unfold prepareArguments
  split
  · exact .fail _
  · exact (c.promoteArguments_endsIn ha _).toEngine

/-- The arguments that are given join the closure. -/
theorem StandsIn.partiallyApply {vs : List (Option (Value Item))} (ha : ArgumentsStandIn S vs) :
    (f.partiallyApply vs).StandsIn S := by
  refine ⟨h.body, ?_⟩
  have hslots : ∀ slot ∈ f.slots vs, ∀ v ∈ slot.2, v.StandsIn S :=
    fun slot hslot => ha slot.2 (List.of_mem_zip hslot).2
  have hclosure := h.closure
  simp only [FunctionOf.partiallyApply]
  generalize f.slots vs = slots, f.closure = b at hslots hclosure
  induction slots generalizing b with
  | nil => exact hclosure
  | cons slot slots ih =>
    rcases slot with ⟨place, _ | v⟩
    · exact ih b (List.forall_mem_cons.mp hslots).2 hclosure
    · obtain ⟨hv, hslots⟩ := List.forall_mem_cons.mp hslots
      exact ih _ hslots (hclosure.bind _ (hv v rfl))

theorem StandsIn.invocationContext {vs : List (Value Item)} (ha : ∀ v ∈ vs, v.StandsIn S) :
    (f.invocationContext vs).StandsIn S :=
  Context.StandsIn.detached (h.closure.foldl fun p hp => ha p.2 (List.of_mem_zip hp).2)

end FunctionOf

theorem Invocation.of_endsIn {f : FunctionItem} (h : f.StandsIn S) (c : Catalogue)
    {vs : List (Option (Value Item))} (ha : ArgumentsStandIn S vs) :
    EndsIn (Invocation.StandsIn S) (EngineError.BlamesOnly S) (Invocation.of f c vs) := by
  refine (FunctionOf.prepareArguments_endsIn c ha).bind fun vs ha => ?_
  split
  · exact .ok (.partially (h.partiallyApply ha))
  · refine .ok (.fully (h.invocationContext fun v hv => ?_))
    obtain ⟨o, ho, hid⟩ := List.mem_filterMap.mp hv
    exact ha o ho v hid

theorem Builtin.toFunction_standsIn (hunknown : .unknown ∈ S) (b : Builtin) (arity : Nat) :
    (b.toFunction arity).StandsIn S := by
  refine ⟨.mk hunknown (List.forall_mem_nil _) fun p hp => ?_, .empty⟩
  obtain ⟨name, -, rfl⟩ := List.mem_map.mp hp
  exact .mk hunknown (List.forall_mem_nil _) (List.forall_mem_nil _)

theorem Registry.get_endsIn {r : Registry} (h : ∀ f ∈ r, f.StandsIn S) (key : FunctionKey) :
    EndsIn (FunctionOf.StandsIn S) (EngineError.BlamesOnly S) (r.get key) := by
  unfold get
  cases hf : r.find? key with
  | none => exact .fail _
  | some f => exact .ok (h f (List.mem_of_find?_eq_some hf))

end HybridQuery
