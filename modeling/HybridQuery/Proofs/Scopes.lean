import Mathlib.Data.Set.Card
import HybridQuery.Proofs.PartialApplication

/-!
# Scopes

The bindings of a scope are kept in three maps, one for each representation: of names to items, to distributed
collections and to frames. Binding a name drops it from all three first, so that it is never in two of them.
Looking a name up prefers the first map, while merging walks through all three, in an order that a hash table
chooses; without that invariant a binding that was replaced could win in a snapshot and lose in a look-up.

* `BindingMaps`: bindings in three maps. `BindingsOf.HeldBy`: the maps that the same operations lead to.
* `BindingsOf.HeldBy.pairs_perm`: they hold the same pairs, and no name twice.
* `BindingsOf.get?_merge`: the later binding of a name wins.
* `Context.get?_snapshot`: a snapshot binds a name as the context does.
* `Context.snapshot_sees_scopes`: what is held in three maps, of every scope and of a snapshot.
-/

namespace HybridQuery

variable {α : Type}

/-! ## Three maps -/

/-- Bindings in a map for each representation. -/
structure BindingMaps (α : Type) where
  items : List (String × List α)
  rows : List (String × Collection α)
  columns : List (String × Frame α)

namespace BindingMaps

/-- No bindings. -/
def empty : BindingMaps α := ⟨[], [], []⟩

/-- Drops a name from every map. -/
def erase (m : BindingMaps α) (name : String) : BindingMaps α :=
  ⟨m.items.filter (·.1 != name), m.rows.filter (·.1 != name), m.columns.filter (·.1 != name)⟩

/-- Puts a name into the map of its representation. -/
def insert (m : BindingMaps α) (name : String) : Value α → BindingMaps α
  | .items items => { m with items := (name, items) :: m.items }
  | .rows rows => { m with rows := (name, rows) :: m.rows }
  | .columns frame => { m with columns := (name, frame) :: m.columns }

/-- Binds a name. -/
def bind (m : BindingMaps α) (name : String) (value : Value α) : BindingMaps α :=
  (m.erase name).insert name value

/-- Everything that is bound, map by map. -/
def pairs (m : BindingMaps α) : List (String × Value α) :=
  m.items.map (fun p => (p.1, .items p.2)) ++
    (m.rows.map (fun p => (p.1, .rows p.2)) ++ m.columns.map (fun p => (p.1, .columns p.2)))

/-- Binds pairs one after the other. -/
def bindAll (m : BindingMaps α) (pairs : List (String × Value α)) : BindingMaps α :=
  pairs.foldl (fun m p => m.bind p.1 p.2) m

/-- What a name is bound to in the first map that has it. -/
def get? (m : BindingMaps α) (name : String) : Option (Value α) :=
  ((m.items.lookup name).map .items).or
    (((m.rows.lookup name).map .rows).or ((m.columns.lookup name).map .columns))

/-- How often a name stands in the maps. -/
def count (m : BindingMaps α) (name : String) : Nat :=
  (m.items.map (·.1)).count name + ((m.rows.map (·.1)).count name + (m.columns.map (·.1)).count name)

/-- Number of entries of the maps. -/
def size (m : BindingMaps α) : Nat := m.items.length + (m.rows.length + m.columns.length)

/-- The bound names in order. -/
def names (m : BindingMaps α) : List String :=
  (m.items.map (·.1) ++ (m.rows.map (·.1) ++ m.columns.map (·.1))).mergeSort fun x y => x ≤ y

theorem get?_eq_lookup (m : BindingMaps α) (name : String) : m.get? name = m.pairs.lookup name := by
  have hmap {β : Type} (f : β → Value α) (l : List (String × β)) :
      (l.map fun p => (p.1, f p.2)).lookup name = (l.lookup name).map f := by
    induction l with
    | nil => rfl
    | cons p l ih =>
      rw [List.map_cons, List.lookup_cons, List.lookup_cons, ih]
      cases name == p.1 <;> rfl
  rw [get?, pairs, List.lookup_append, List.lookup_append, hmap, hmap, hmap]

theorem map_fst_pairs (m : BindingMaps α) :
    m.pairs.map (·.1) = m.items.map (·.1) ++ (m.rows.map (·.1) ++ m.columns.map (·.1)) := by
  simp [pairs, Function.comp_def]

theorem count_eq (m : BindingMaps α) (name : String) : m.count name = (m.pairs.map (·.1)).count name := by
  rw [map_fst_pairs, List.count_append, List.count_append, count]

theorem size_eq (m : BindingMaps α) : m.size = m.pairs.length := by simp [size, pairs]

theorem pairs_erase (m : BindingMaps α) (name : String) :
    (m.erase name).pairs = m.pairs.filter (·.1 != name) := by
  simp [erase, pairs, List.filter_map, Function.comp_def]

theorem pairs_insert (m : BindingMaps α) (name : String) (value : Value α) :
    (m.insert name value).pairs.Perm ((name, value) :: m.pairs) := by
  cases value with
  | items items => exact .refl _
  | rows rows => exact List.perm_middle
  | columns frame =>
    simp only [insert, pairs, List.map_cons]
    rw [← List.append_assoc, ← List.append_assoc]
    exact List.perm_middle

theorem pairs_bind (m : BindingMaps α) (name : String) (value : Value α) :
    (m.bind name value).pairs.Perm ((name, value) :: m.pairs.filter (·.1 != name)) := by
  rw [← pairs_erase]
  exact pairs_insert _ _ _

theorem pairs_bindAll {m : BindingMaps α} {b : BindingsOf α} (h : m.pairs.Perm b.pairs)
    (pairs : List (String × Value α)) : (m.bindAll pairs).pairs.Perm (b.bindAll pairs).pairs := by
  induction pairs generalizing m b with
  | nil => exact h
  | cons p pairs ih => exact ih ((m.pairs_bind p.1 p.2).trans ((h.filter _).cons _))

end BindingMaps

/-! ## Names that are bound once -/

/-- With every name bound once, a name is bound to what it stands beside. -/
theorem lookup_eq_some_iff_mem {β : Type} {l : List (String × β)} (h : (l.map (·.1)).Nodup) {name : String}
    {b : β} : l.lookup name = some b ↔ (name, b) ∈ l := by
  induction l with
  | nil => simp
  | cons p l ih =>
    obtain ⟨key, value⟩ := p
    obtain ⟨hkey, hl⟩ := List.nodup_cons.mp h
    rw [List.lookup_cons, List.mem_cons, Prod.mk.injEq]
    by_cases hname : name = key
    · subst hname
      have hnot : (name, b) ∉ l := fun hm => hkey (List.mem_map_of_mem (f := (·.1)) hm)
      simp [hnot, eq_comm]
    · simp [beq_eq_false_iff_ne.mpr hname, hname, ih hl]

theorem lookup_perm {β : Type} {l k : List (String × β)} (hp : l.Perm k) (h : (k.map (·.1)).Nodup)
    (name : String) : l.lookup name = k.lookup name := by
  refine Option.ext fun b => ?_
  rw [lookup_eq_some_iff_mem ((hp.map _).nodup_iff.mpr h), lookup_eq_some_iff_mem h, hp.mem_iff]

namespace BindingsOf

variable {b other : BindingsOf α}

theorem contains_iff {name : String} : b.contains name = true ↔ name ∈ b.pairs.map (·.1) := by
  rw [contains, get?, List.lookup_isSome_iff, List.mem_map]
  simp only [beq_iff_eq, eq_comm (a := name)]

/-- Pairs with different names come to stand beside what is left of the others. -/
theorem pairs_bindAll {pairs : List (String × Value α)} (h : (pairs.map (·.1)).Nodup) (b : BindingsOf α) :
    (b.bindAll pairs).pairs.Perm (pairs ++ b.pairs.filter (·.1 ∉ pairs.map (·.1))) := by
  induction pairs generalizing b with
  | nil => simp [bindAll]
  | cons p pairs ih =>
    obtain ⟨hp, hpairs⟩ := List.nodup_cons.mp h
    refine (ih hpairs (b.bind p.1 p.2)).trans ?_
    rw [bind, List.filter_cons_of_pos (by simpa using hp), List.filter_filter]
    refine List.perm_middle.trans (.of_eq ?_)
    rw [List.cons_append]
    congr 2
    refine List.filter_congr fun q _ => ?_
    rw [Bool.eq_iff_iff]
    simp [and_comm]

theorem pairs_bindAll_perm {l k : List (String × Value α)} (hp : l.Perm k) (h : (l.map (·.1)).Nodup)
    (b : BindingsOf α) : (b.bindAll l).pairs.Perm (b.bindAll k).pairs := by
  refine (pairs_bindAll h b).trans (.trans ?_ (pairs_bindAll ((hp.map _).nodup_iff.mp h) b).symm)
  have hmem (name : String) : name ∈ l.map (·.1) ↔ name ∈ k.map (·.1) := (hp.map _).mem_iff
  simp only [hmem]
  exact hp.append_right _

theorem nodup_bind (h : (b.pairs.map (·.1)).Nodup) (name : String) (value : Value α) :
    ((b.bind name value).pairs.map (·.1)).Nodup := by
  rw [bind, List.map_cons, List.nodup_cons]
  exact ⟨by simp, h.sublist (List.filter_sublist.map _)⟩

theorem nodup_bindAll (h : (b.pairs.map (·.1)).Nodup) (pairs : List (String × Value α)) :
    ((b.bindAll pairs).pairs.map (·.1)).Nodup := by
  induction pairs generalizing b with
  | nil => exact h
  | cons p pairs ih => exact ih (nodup_bind h p.1 p.2)

/-- The later binding of a name wins. -/
theorem get?_merge (h : (other.pairs.map (·.1)).Nodup) (b : BindingsOf α) (name : String) :
    (b.merge other).get? name = (other.get? name).or (b.get? name) := by
  change (b.bindAll other.pairs).get? name = _
  cases hget : other.get? name with
  | some value => exact get?_bindAll_of_mem h ((lookup_eq_some_iff_mem h).mp hget) b
  | none =>
    refine get?_bindAll_of_not_mem (fun hmem => ?_) b
    rw [← contains_iff, contains, hget] at hmem
    cases hmem

/-! ## What maps hold -/

/-- The maps that the operations lead to which lead to some bindings. Merging walks through the maps of the
other bindings in any order. -/
inductive HeldBy : BindingsOf α → BindingMaps α → Prop
  | empty : HeldBy .empty .empty
  | bind {b m} (h : HeldBy b m) (name : String) (value : Value α) : HeldBy (b.bind name value) (m.bind name value)
  | merge {b m other m' order} (h : HeldBy b m) (h' : HeldBy other m') (horder : order.Perm m'.pairs) :
    HeldBy (b.merge other) (m.bindAll order)

/-- **Maps hold the pairs of the bindings, and no name twice.** -/
theorem HeldBy.pairs_perm {m : BindingMaps α} (h : b.HeldBy m) :
    m.pairs.Perm b.pairs ∧ (b.pairs.map (·.1)).Nodup := by
  induction h with
  | empty => exact ⟨.refl _, .nil⟩
  | @bind b m _ name value ih =>
    exact ⟨(m.pairs_bind name value).trans ((ih.1.filter _).cons _), nodup_bind ih.2 name value⟩
  | @merge b m other m' order _ _ horder ih ih' =>
    have hperm := horder.trans ih'.1
    exact ⟨(BindingMaps.pairs_bindAll ih.1 order).trans
      (pairs_bindAll_perm hperm ((hperm.map _).nodup_iff.mpr ih'.2) b), nodup_bindAll ih.2 _⟩

namespace HeldBy

variable {m : BindingMaps α}

theorem get?_eq (h : b.HeldBy m) (name : String) : m.get? name = b.get? name :=
  (m.get?_eq_lookup name).trans (lookup_perm h.pairs_perm.1 h.pairs_perm.2 name)

/-- A name that is bound stands in one map, once, and any other name in none. -/
theorem count_eq (h : b.HeldBy m) (name : String) :
    m.count name = if (b.get? name).isSome then 1 else 0 := by
  obtain ⟨hperm, hnodup⟩ := h.pairs_perm
  rw [m.count_eq, (hperm.map _).count_eq, hnodup.count]
  exact if_congr contains_iff.symm rfl rfl

theorem names_eq (h : b.HeldBy m) : m.names = b.names := by
  have hperm := h.pairs_perm.1.map (·.1)
  rw [m.map_fst_pairs] at hperm
  refine List.Perm.eq_of_pairwise (fun _ _ _ _ => String.le_antisymm) ?_ ?_
    ((List.mergeSort_perm _ _).trans (hperm.trans (List.mergeSort_perm _ _).symm))
  all_goals
    refine (List.pairwise_mergeSort (fun x y z => ?_) (fun x y => ?_) _).imp of_decide_eq_true
    · simpa using String.le_trans
    · simpa using String.le_total x y

theorem size_eq (h : b.HeldBy m) : m.size = b.size := m.size_eq.trans h.pairs_perm.1.length_eq

/-- There are as many entries as different names. -/
theorem size_eq_ncard (h : b.HeldBy m) : b.size = {name | (b.get? name).isSome = true}.ncard := by
  have hset : {name | (b.get? name).isSome = true} = ((b.pairs.map (·.1)).toFinset : Set String) := by
    ext name
    rw [Set.mem_ofPred_eq, List.coe_toFinset, Set.mem_ofPred_eq]
    exact contains_iff
  rw [hset, Set.ncard_coe_finset, List.toFinset_card_of_nodup h.pairs_perm.2, List.length_map, size]

end HeldBy
end BindingsOf

/-! ## Snapshots -/

/-- The maps of a snapshot: those of the scopes, of which the first one is the innermost, are merged from the
outermost on, each in any order. -/
inductive BindingMaps.Merged : List (BindingMaps α) → BindingMaps α → Prop
  | nil : Merged [] .empty
  | cons {inner rest outer order} (h : Merged rest outer) (horder : order.Perm inner.pairs) :
    Merged (inner :: rest) (outer.bindAll order)

namespace Context

/-- A snapshot binds a name to the nearest binding of it. -/
theorem get?_snapshot {c : Context} (h : ∀ scope ∈ c.scopes, (scope.pairs.map (·.1)).Nodup) (name : String) :
    c.snapshot.get? name = c.lookup name := by
  obtain ⟨handle, scopes⟩ := c
  induction scopes with
  | nil => rfl
  | cons inner rest ih =>
    obtain ⟨hinner, hrest⟩ := List.forall_mem_cons.mp h
    have ih := ih hrest
    rw [snapshot, lookup] at ih ⊢
    rw [List.foldr_cons, BindingsOf.get?_merge hinner, ih, List.findSome?_cons]
    cases inner.get? name <;> rfl

theorem snapshot_heldBy {handle : Option Nat} {scopes : List Bindings} {frames : List (BindingMaps Item)}
    (h : List.Forall₂ BindingsOf.HeldBy scopes frames) {m : BindingMaps Item} (hm : BindingMaps.Merged frames m) :
    (snapshot ⟨handle, scopes⟩).HeldBy m := by
  induction h generalizing m with
  | nil =>
    cases hm
    exact .empty
  | cons hinner _ ih =>
    cases hm with
    | cons hm horder => exact .merge (ih hm) hinner horder

theorem lookup_frames {scopes : List Bindings} {frames : List (BindingMaps Item)}
    (h : List.Forall₂ BindingsOf.HeldBy scopes frames) (name : String) :
    frames.findSome? (·.get? name) = scopes.findSome? (·.get? name) := by
  induction h with
  | nil => rfl
  | cons hinner _ ih => rw [List.findSome?_cons, List.findSome?_cons, hinner.get?_eq, ih]

/-- **A snapshot sees what its scopes saw.** The scopes of a context are held in three maps each, which bindings
of any representations led to, and are merged into three maps of a snapshot. A name is bound there to what the
nearest scope binds it to, and stands in the maps once if it is visible and never otherwise. Any bindings are
held so that no name stands twice in the three maps, and there are as many entries as different names. -/
theorem snapshot_sees_scopes {c : Context} {frames : List (BindingMaps Item)}
    (h : List.Forall₂ BindingsOf.HeldBy c.scopes frames) {m : BindingMaps Item}
    (hm : BindingMaps.Merged frames m) :
    (∀ name, c.snapshot.get? name = c.lookup name ∧
      m.get? name = c.lookup name ∧ frames.findSome? (·.get? name) = c.lookup name ∧
      m.count name = if (c.lookup name).isSome then 1 else 0) ∧
    ∀ (b : Bindings) (maps : BindingMaps Item), b.HeldBy maps →
      (∀ name, maps.get? name = b.get? name ∧ maps.count name ≤ 1) ∧
      maps.names = b.names ∧ maps.size = b.size ∧
      b.size = {name | (b.get? name).isSome = true}.ncard := by
  have hsnapshot : c.snapshot.HeldBy m := snapshot_heldBy h hm
  have hnodup : ∀ scope ∈ c.scopes, (scope.pairs.map (·.1)).Nodup :=
    ((List.forall₂_and_left _ _).mp (h.imp fun _ _ hscope => ⟨hscope.pairs_perm.2, hscope⟩)).1
  refine ⟨fun name => ?_, fun b maps hb => ⟨fun name => ⟨hb.get?_eq name, ?_⟩, hb.names_eq, hb.size_eq,
    hb.size_eq_ncard⟩⟩
  · have hget := get?_snapshot hnodup name
    refine ⟨hget, (hsnapshot.get?_eq name).trans hget, lookup_frames h name, ?_⟩
    rw [hsnapshot.count_eq, hget]
  · rw [hb.count_eq]
    split <;> omega

/-- A name that was rebound from items to a collection, and one whose items an inner scope hides behind a
frame. -/
theorem snapshot_sees_rebound :
    let rows : Value Item := .rows (.parallelize [.integer 2, .integer 3] 2)
    let frame : Value Item := .columns ⟨["k"], [], .objects⟩
    let outer : Bindings := ((BindingsOf.empty.bind "x" (.items [.integer 1])).bind "y" (.items [])).bind "x" rows
    let c : Context := (detached outer).child (.single "y" frame)
    let outerMaps := ((BindingMaps.empty.bind "x" (.items [.integer 1])).bind "y" (.items [])).bind "x" rows
    let innerMaps := BindingMaps.empty.bind "y" frame
    List.Forall₂ BindingsOf.HeldBy c.scopes [innerMaps, outerMaps] ∧
      ∃ m, BindingMaps.Merged [innerMaps, outerMaps] m ∧ m.get? "x" = some rows ∧ m.get? "y" = some frame ∧
        m.count "y" = 1 ∧ m.size = c.snapshot.size := by
  intro rows frame outer c outerMaps innerMaps
  have hframes : List.Forall₂ BindingsOf.HeldBy c.scopes [innerMaps, outerMaps] :=
    .cons (.bind .empty "y" frame) (.cons (.bind (.bind (.bind .empty "x" _) "y" _) "x" rows) .nil)
  have hmerged : BindingMaps.Merged [innerMaps, outerMaps]
      ((BindingMaps.empty.bindAll outerMaps.pairs).bindAll innerMaps.pairs) :=
    .cons (.cons .nil (.refl _)) (.refl _)
  obtain ⟨hnames, hheld⟩ := snapshot_sees_scopes hframes hmerged
  exact ⟨hframes, _, hmerged, (hnames "x").2.1, (hnames "y").2.1, (hnames "y").2.2.2,
    (hheld _ _ (snapshot_heldBy hframes hmerged)).2.2.1⟩

end Context
end HybridQuery
