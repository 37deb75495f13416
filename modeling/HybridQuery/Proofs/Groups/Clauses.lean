import HybridQuery.Proofs.Equality
import HybridQuery.Proofs.Groups.Shuffles
import HybridQuery.Proofs.Groups.Tuples

/-!
# `group by` on the host

The tuples before a `group by` clause are pulled and keyed one after the other, the groups are gathered in
one pass, and each becomes one tuple.

* `exists_settlesIf_linearized`: the tuples of the groups of tuples that have keys.
* `GroupsExactly`: what it is to group tuples; `groupsExactly_onHost` says that grouping them on the host
  does that.
* `groupBy_exact`: so does a clause over tuples that are pulled.
-/

namespace HybridQuery

variable {env : Environment} {context : Context} {position : SourcePosition}

/-! ## Members -/

/-- The tuples whose keys are equal to a key. -/
def membersOf (tuples : List Tuple) (ks : List GroupingKey) (k : GroupingKey) : List Tuple :=
  ((tuples.zip ks).filter fun p => GroupingKey.same k p.2).map (·.1)

theorem membersOf_ne_nil {tuples : List Tuple} {ks : List GroupingKey}
    (hlength : tuples.length = ks.length) {k : GroupingKey} (hk : k ∈ ks) :
    membersOf tuples ks k ≠ [] := by
  have hkey : k ∈ (tuples.zip ks).map (·.2) := by
    rwa [← List.unzip_snd, List.unzip_zip_right hlength.ge]
  obtain ⟨p, hp, rfl⟩ := List.mem_map.mp hkey
  have hmem : p.1 ∈ membersOf tuples ks p.2 :=
    List.mem_map_of_mem (List.mem_filter.mpr ⟨hp, GroupingKey.same_equivalence.refl p.2⟩)
  exact List.ne_nil_of_mem hmem

/-- The tuples whose keys are equal to a key, with the variables of their keys bound. -/
def boundMembers (keys : List (GroupKey Plan)) (tuples : List Tuple) (ks : List GroupingKey)
    (k : GroupingKey) : List Tuple :=
  ((tuples.zip ks).filter fun p => GroupingKey.same k p.2).map fun p => p.1.bindKeys keys p.2

variable {keys : List (GroupKey Plan)} {tuples : List Tuple} {ks : List GroupingKey}

theorem boundMembers_ne_nil (hlength : tuples.length = ks.length) {k : GroupingKey} (hk : k ∈ ks) :
    boundMembers keys tuples ks k ≠ [] := fun h =>
  membersOf_ne_nil hlength hk (List.map_eq_nil_iff.mpr (List.map_eq_nil_iff.mp h))

theorem readAt_bindKeys (t : Tuple) (k : GroupingKey) {name : String} (h : IsOther keys name) :
    (t.bindKeys keys k).readAt name = t.readAt name := by
  rw [Tuple.readAt, t.get?_bindKeys_of_isOther h, Tuple.readAt]

/-- To bind keys in the members of a group does not change what its tuple binds. -/
theorem GroupTuple.of_bound {k : GroupingKey} {t : Tuple}
    (h : GroupTuple keys k (boundMembers keys tuples ks k) t) :
    GroupTuple keys k (membersOf tuples ks k) t := by
  refine ⟨h.grouping, fun name hname => ?_⟩
  rw [h.others name hname, boundMembers, membersOf, List.head?_map, List.head?_map,
    List.flatMap_map, List.flatMap_map]
  simp only [readAt_bindKeys _ _ hname]
  cases ((tuples.zip ks).filter fun p => GroupingKey.same k p.2).head? with
  | none => rfl
  | some p => simp only [Option.map_some, Option.bind_some, p.1.get?_bindKeys_of_isOther hname]

theorem groupFits_bound_iff {cap : Option Nat} {k : GroupingKey} :
    GroupFits cap keys (boundMembers keys tuples ks k) ↔ GroupFits cap keys (membersOf tuples ks k) := by
  rw [boundMembers, membersOf]
  cases (tuples.zip ks).filter fun p => GroupingKey.same k p.2 with
  | nil => exact ⟨fun _ _ h => (nomatch h), fun _ _ h => (nomatch h)⟩
  | cons p rest =>
    simp only [GroupFits, ValuesFit, List.map_cons, List.head?_cons, Option.some.injEq, forall_eq']
    refine forall_congr' fun name => imp_congr_right fun hname => ?_
    simp only [List.forall_mem_cons, List.forall_mem_map, Tuple.get?_bindKeys_of_isOther _ hname]

/-! ## The tuples of all groups -/

/-- Tuples with their keys, and the variables of the keys bound. -/
def keyedPairs (keys : List (GroupKey Plan)) (tuples : List Tuple) (ks : List GroupingKey) :
    List (GroupingKey × Tuple) :=
  (tuples.zip ks).map fun p => (p.2, p.1.bindKeys keys p.2)

theorem groupPairs_keyedPairs (hlength : tuples.length = ks.length) :
    Collection.groupPairs GroupingKey.same (keyedPairs keys tuples ks) =
      (firstSeen GroupingKey.same ks).map fun k => (k, boundMembers keys tuples ks k) := by
  have hkeys : (keyedPairs keys tuples ks).map (·.1) = ks := by
    rw [keyedPairs, List.map_map]
    exact (List.unzip_snd (l := tuples.zip ks)).symm.trans (List.unzip_zip_right hlength.ge)
  rw [Collection.groupPairs_eq GroupingKey.same_equivalence, hkeys]
  refine List.map_congr_left fun k _ => ?_
  rw [keyedPairs, List.filter_map, List.map_map]
  rfl

/-- Grouping tuples that have keys gives a tuple for each key that is first seen, if all values that these
tuples bind may be pulled to the host. -/
theorem exists_settlesIf_linearized
    (hcap : ∀ c, env.materializationCap = some c → c + 1 < wordBound)
    (hlength : tuples.length = ks.length) (hkeys : ∀ k ∈ ks, k.length = keys.length) :
    ∃ out, SettlesIf env
        (fun _ => PlanEvaluator.linearized keys position (keyedPairs keys tuples ks))
        (∀ k ∈ firstSeen GroupingKey.same ks,
          GroupFits env.materializationCap keys (membersOf tuples ks k)) out ∧
      List.Forall₂ (fun k t => GroupTuple keys k (membersOf tuples ks k) t)
        (firstSeen GroupingKey.same ks) out := by
  refine ⟨(firstSeen GroupingKey.same ks).map fun k =>
    .ofMembers keys k (boundMembers keys tuples ks k), ?_, ?_⟩
  · rw [PlanEvaluator.linearized, groupPairs_keyedPairs hlength, List.mapM_map]
    refine (SettlesIf.listMapM fun k _ => PlanEvaluator.settlesIf_linearize hcap keys k
      (boundMembers keys tuples ks k)).congr ?_ rfl
    exact forall₂_congr fun k _ => groupFits_bound_iff
  · rw [List.forall₂_map_right_iff, List.forall₂_same]
    intro k hk
    have hmem : k ∈ ks := (firstSeen_sublist ks).subset hk
    exact (Tuple.groupTuple_ofMembers (hkeys k hmem) (boundMembers_ne_nil hlength hmem)).of_bound

/-- Tuples are keyed if all of them have keys. -/
theorem settles_keyed_iff {pairs : List (GroupingKey × Tuple)} :
    Settles env (fun depth =>
        tuples.mapM ((Evaluator.ofDepth depth).plans.groupedTuple keys position context)) (.ok pairs) ↔
      ∃ ks, List.Forall₂ (HasKey env context position keys) tuples ks ∧
        keyedPairs keys tuples ks = pairs := by
  rw [Meant.settles_listMapM_iff (meant_groupedTuple keys)]
  simp only [settles_groupedTuple_iff]
  induction tuples generalizing pairs with
  | nil =>
    rw [List.forall₂_nil_left_iff]
    exact ⟨fun h => ⟨[], .nil, h.symm⟩, fun ⟨_, _, h⟩ => h.symm⟩
  | cons tuple tuples ih =>
    rw [List.forall₂_cons_left_iff]
    constructor
    · rintro ⟨_, rest, ⟨k, hk, rfl⟩, hrest, rfl⟩
      obtain ⟨ks, hks, rfl⟩ := ih.mp hrest
      exact ⟨k :: ks, .cons hk hks, rfl⟩
    · rintro ⟨_, hkeys, rfl⟩
      cases hkeys with
      | cons hk hks => exact ⟨_, _, ⟨_, hk, rfl⟩, ih.mpr ⟨_, hks, rfl⟩, rfl⟩

/-! ## Exact groups -/

section
variable (env : Environment) (context : Context) (position : SourcePosition)
  (keys : List (GroupKey Plan)) (tuples : List Tuple)

/-- Some tuple has a component that fails to evaluate or is neither empty nor a single atomic, after
tuples that all have keys. -/
def SomeLacksKey : Prop :=
  ∃ before tuple after, tuples = before ++ tuple :: after ∧
    (∀ t ∈ before, ∃ k, HasKey env context position keys t k) ∧
      LacksKey env context position keys tuple

/-- Grouping a list of tuples on the host. -/
abbrev groupsOnHost (depth : ℕ) : Engine (List Tuple) := do
  let pairs ← tuples.mapM ((Evaluator.ofDepth depth).plans.groupedTuple keys position context)
  PlanEvaluator.linearized keys position pairs

/-- A computation gives the groups of tuples: one tuple for each key as it is first seen, made of the
tuples whose keys are equal to it. It fails if a tuple lacks a key, or if a value to be gathered holds
more items than may be pulled to the host. -/
structure GroupsExactly (grouped : ℕ → Engine (List Tuple)) : Prop where
  /-- Every tuple belongs to the group of exactly one key that is first seen. -/
  exact : ∀ out, Settles env grouped (.ok out) →
    ∃ ks, List.Forall₂ (HasKey env context position keys) tuples ks ∧
      (∀ k ∈ ks, (firstSeen GroupingKey.same ks).countP (GroupingKey.same · k) = 1) ∧
      List.Forall₂ (fun k t => GroupTuple keys k (membersOf tuples ks k) t)
        (firstSeen GroupingKey.same ks) out
  succeeds_iff : (∃ out, Settles env grouped (.ok out)) ↔
    ∃ ks, List.Forall₂ (HasKey env context position keys) tuples ks ∧
      ∀ k ∈ firstSeen GroupingKey.same ks,
        GroupFits env.materializationCap keys (membersOf tuples ks k)
  fails_iff : Raises env grouped ↔ SomeLacksKey env context position keys tuples ∨
    ∃ ks, List.Forall₂ (HasKey env context position keys) tuples ks ∧
      ¬ ∀ k ∈ firstSeen GroupingKey.same ks,
        GroupFits env.materializationCap keys (membersOf tuples ks k)

end

theorem GroupsExactly.congr {x y : ℕ → Engine (List Tuple)}
    (h : GroupsExactly env context position keys tuples x)
    (hsettles : ∀ out, Settles env y (.ok out) ↔ Settles env x (.ok out))
    (hraises : Raises env y ↔ Raises env x) : GroupsExactly env context position keys tuples y where
  exact out hout := h.exact out ((hsettles out).mp hout)
  succeeds_iff := (exists_congr hsettles).trans h.succeeds_iff
  fails_iff := hraises.trans h.fails_iff

/-- Without a cap nothing but a key is ever lacking. -/
theorem GroupsExactly.fails_iff_of_uncapped {x : ℕ → Engine (List Tuple)}
    (h : GroupsExactly env context position keys tuples x) (hcap : env.materializationCap = none) :
    Raises env x ↔ SomeLacksKey env context position keys tuples := by
  refine h.fails_iff.trans (or_iff_left ?_)
  rintro ⟨ks, -, hlong⟩
  rw [hcap] at hlong
  exact hlong fun _ _ _ _ _ _ _ _ _ value _ => value.fits_none

theorem meant_linearized (keys : List (GroupKey Plan)) (position : SourcePosition)
    (pairs : List (GroupingKey × Tuple)) :
    Meant env (fun _ => PlanEvaluator.linearized keys position pairs)
      fun _ => PlanEvaluator.linearized keys position pairs :=
  .of_steady (PlanEvaluator.linearized_steady keys position pairs)

theorem settles_groupsOnHost_iff {out : List Tuple} :
    Settles env (groupsOnHost context position keys tuples) (.ok out) ↔
      ∃ ks, List.Forall₂ (HasKey env context position keys) tuples ks ∧
        Settles env (fun _ => PlanEvaluator.linearized keys position (keyedPairs keys tuples ks))
          (.ok out) := by
  rw [(Meant.listMapM (meant_groupedTuple keys) tuples).settles_bind_iff
    (meant_linearized keys position)]
  simp only [settles_keyed_iff]
  exact ⟨fun ⟨_, ⟨ks, hks, h⟩, hout⟩ => ⟨ks, hks, h ▸ hout⟩,
    fun ⟨ks, hks, hout⟩ => ⟨_, ⟨ks, hks, rfl⟩, hout⟩⟩

theorem raises_groupsOnHost_iff :
    Raises env (groupsOnHost context position keys tuples) ↔
      SomeLacksKey env context position keys tuples ∨
        ∃ ks, List.Forall₂ (HasKey env context position keys) tuples ks ∧
          Raises env fun _ => PlanEvaluator.linearized keys position (keyedPairs keys tuples ks) := by
  have hkeyed (t : Tuple) : (∃ q, Settles env (fun depth =>
      (Evaluator.ofDepth depth).plans.groupedTuple keys position context t) (.ok q)) ↔
      ∃ k, HasKey env context position keys t k := by
    simp only [settles_groupedTuple_iff]
    exact ⟨fun ⟨_, k, hk, _⟩ => ⟨k, hk⟩, fun ⟨k, hk⟩ => ⟨_, k, hk, rfl⟩⟩
  rw [(Meant.listMapM (meant_groupedTuple keys) tuples).raises_bind_iff
    (meant_linearized keys position), Meant.raises_listMapM_iff (meant_groupedTuple keys)]
  simp only [hkeyed, raises_groupedTuple_iff, settles_keyed_iff, SomeLacksKey]
  exact or_congr_right ⟨fun ⟨_, ⟨ks, hks, h⟩, hout⟩ => ⟨ks, hks, h ▸ hout⟩,
    fun ⟨ks, hks, hout⟩ => ⟨_, ⟨ks, hks, rfl⟩, hout⟩⟩

theorem length_eq_of_hasKeys (h : List.Forall₂ (HasKey env context position keys) tuples ks) :
    ∀ k ∈ ks, k.length = keys.length := by
  induction h with
  | nil => exact List.forall_mem_nil _
  | cons hk _ ih => exact List.forall_mem_cons.mpr ⟨hk.length_eq, ih⟩

/-- Grouping tuples on the host gives their groups. -/
theorem groupsExactly_onHost (hcap : ∀ c, env.materializationCap = some c → c + 1 < wordBound)
    (keys : List (GroupKey Plan)) (position : SourcePosition) (tuples : List Tuple) :
    GroupsExactly env context position keys tuples (groupsOnHost context position keys tuples) := by
  have hlinearized {ks : List GroupingKey}
      (hks : List.Forall₂ (HasKey env context position keys) tuples ks) :=
    @exists_settlesIf_linearized env position keys tuples ks hcap hks.length_eq
      (length_eq_of_hasKeys hks)
  constructor
  · intro out hout
    obtain ⟨ks, hks, hout⟩ := settles_groupsOnHost_iff.mp hout
    obtain ⟨out', hsettles, hgroups⟩ := hlinearized hks
    obtain ⟨-, rfl⟩ := hsettles.settles_iff.mp hout
    exact ⟨ks, hks, countP_firstSeen GroupingKey.same_equivalence ks, hgroups⟩
  · simp only [settles_groupsOnHost_iff]
    constructor
    · rintro ⟨out, ks, hks, hout⟩
      obtain ⟨out', hsettles, -⟩ := hlinearized hks
      exact ⟨ks, hks, (hsettles.settles_iff.mp hout).1⟩
    · rintro ⟨ks, hks, hfits⟩
      obtain ⟨out, hsettles, -⟩ := hlinearized hks
      exact ⟨out, ks, hks, hsettles.settles hfits⟩
  · rw [raises_groupsOnHost_iff]
    refine or_congr_right (exists_congr fun ks => and_congr_right fun hks => ?_)
    obtain ⟨out, hsettles, -⟩ := hlinearized hks
    exact hsettles.raises_iff

/-! ## Clauses -/

/-- A `group by` clause over tuples that are pulled settles as grouping them does; it is blamed for what
fails. -/
theorem settles_groupBy_iff {pulled : Pipeline}
    (hpulled : Settles env (fun depth => Step.eval pulled.feed
      ((Evaluator.ofDepth depth).gatherAll (fun tuple => pure tuple) context)) (.ok tuples))
    {d : EngineResult (List Tuple)} :
    Settles env (fun depth => Step.eval (Pipeline.clause .host position (.groupBy keys) pulled).feed
        ((Evaluator.ofDepth depth).gatherAll (fun tuple => pure tuple) context)) d ↔
      Settles env
        (fun depth => Run.locate (groupsOnHost context position keys tuples depth) position) d := by
  have hknown : context.Known fun _ => context.scopes := fun _ _ => rfl
  rw [(hknown.meant_gatherAll _).settles_iff_eventually,
    ((meant_grouped keys position tuples).locate position).settles_iff_eventually,
    ← eventually_add_iff 1]
  refine Filter.eventually_congr ?_
  filter_upwards [(hknown.meant_gatherAll pulled).settles_iff_eventually.mp hpulled] with depth hd
  rw [Engine.result_given] at hd ⊢
  rw [result_groupBy_host hd, Engine.result_locate]

section
variable {pulled : Pipeline}
  (hpulled : Settles env (fun depth => Step.eval pulled.feed
    ((Evaluator.ofDepth depth).gatherAll (fun tuple => pure tuple) context)) (.ok tuples))
include hpulled

theorem settles_groupBy_ok_iff {out : List Tuple} :
    Settles env (fun depth => Step.eval (Pipeline.clause .host position (.groupBy keys) pulled).feed
        ((Evaluator.ofDepth depth).gatherAll (fun tuple => pure tuple) context)) (.ok out) ↔
      Settles env (groupsOnHost context position keys tuples) (.ok out) :=
  (settles_groupBy_iff hpulled).trans (meant_grouped keys position tuples).settles_locate_iff

theorem raises_groupBy_iff :
    Raises env (fun depth => Step.eval (Pipeline.clause .host position (.groupBy keys) pulled).feed
        ((Evaluator.ofDepth depth).gatherAll (fun tuple => pure tuple) context)) ↔
      Raises env (groupsOnHost context position keys tuples) :=
  (exists_congr fun _ => settles_groupBy_iff hpulled).trans
    (meant_grouped keys position tuples).raises_locate_iff

/-- **Local `group by` is exact.** Over tuples that are pulled, a clause on the host gives one tuple for
each key as it is first seen. It fails if and only if some tuple lacks a key, or all have keys and some
variable to be gathered holds a distributed value of more items than may be pulled to the host. -/
theorem groupBy_exact (hcap : ∀ c, env.materializationCap = some c → c + 1 < wordBound)
    (keys : List (GroupKey Plan)) (position : SourcePosition) :
    GroupsExactly env context position keys tuples fun depth =>
      Step.eval (Pipeline.clause .host position (.groupBy keys) pulled).feed
        ((Evaluator.ofDepth depth).gatherAll (fun tuple => pure tuple) context) :=
  (groupsExactly_onHost hcap keys position tuples).congr
    (fun _ => settles_groupBy_ok_iff hpulled) (raises_groupBy_iff hpulled)

end

/-- Two of three tuples share a key. -/
theorem groups_of_three :
    let literal (value : Json) : Plan := .mk .host .unknown (.compute (.literal value))
    let env : Environment := ⟨1, some 2, .empty, .empty, .info, []⟩
    let pulled : Pipeline := .clause .host .unknown (.forEach "x" none false (.mk .host .unknown
      (.sequence [literal (.string "a"), literal (.string "b"), literal (.string "a")]))) .start
    let tuple (name : String) : Tuple := ⟨[("x", .items [.string name])]⟩
    let clause (depth : ℕ) : Engine (List Tuple) :=
      Step.eval (Pipeline.clause .host .unknown (.groupBy [⟨"x", none⟩]) pulled).feed
        ((Evaluator.ofDepth depth).gatherAll (fun tuple => pure tuple) .root)
    (∀ c, env.materializationCap = some c → c + 1 < wordBound) ∧
      Settles env (fun depth => Step.eval pulled.feed
        ((Evaluator.ofDepth depth).gatherAll (fun tuple => pure tuple) .root))
        (.ok [tuple "a", tuple "b", tuple "a"]) ∧
      GroupsExactly env .root .unknown [⟨"x", none⟩] [tuple "a", tuple "b", tuple "a"] clause ∧
      Settles env clause (.ok [tuple "a", tuple "b"]) := by
  intro literal env pulled tuple clause
  have hcap : ∀ c, env.materializationCap = some c → c + 1 < wordBound := by
    rintro c ⟨⟩
    decide +kernel
  have hpulled : Settles env (fun depth => Step.eval pulled.feed
      ((Evaluator.ofDepth depth).gatherAll (fun tuple => pure tuple) .root))
      (.ok [tuple "a", tuple "b", tuple "a"]) := (meant_gatherAll _ rfl).settles_of_value? 4 rfl
  refine ⟨hcap, hpulled, groupBy_exact hpulled hcap [⟨"x", none⟩] .unknown, ?_⟩
  exact (settles_groupBy_ok_iff hpulled).mpr ((meant_grouped _ _ _).settles_of_value? 1 rfl)

/-- Three items in a variable that is gathered, where two may be pulled to the host: the clause fails,
although every tuple has a key. -/
theorem groupBy_stopped_at_cap :
    let integer (n : Int) : Plan := .mk .host .unknown (.compute (.literal (.integer n)))
    let rows : Plan := .mk .rows .unknown (.compute (.builtin .parallelize
      [.mk .host .unknown (.sequence [integer 1, integer 2, integer 3]), integer 2]))
    let env : Environment := ⟨1, some 2, .empty, .empty, .info, []⟩
    let pulled : Pipeline := .clause .host .unknown (.letBe "r" rows) .start
    let tuple : Tuple := ⟨[("r", .rows ⟨[[.integer 1, .integer 2], [.integer 3]]⟩)]⟩
    let keys : List (GroupKey Plan) := [⟨"k", some (integer 1)⟩]
    Settles env (fun depth => Step.eval pulled.feed
        ((Evaluator.ofDepth depth).gatherAll (fun tuple => pure tuple) .root)) (.ok [tuple]) ∧
      ¬ (Raises env (fun depth =>
          Step.eval (Pipeline.clause .host .unknown (.groupBy keys) pulled).feed
            ((Evaluator.ofDepth depth).gatherAll (fun tuple => pure tuple) .root)) ↔
        ∃ t ∈ [tuple], LacksKey env .root .unknown keys t) := by
  intro integer rows env pulled tuple keys
  have hpulled : Settles env (fun depth => Step.eval pulled.feed
      ((Evaluator.ofDepth depth).gatherAll (fun tuple => pure tuple) .root)) (.ok [tuple]) :=
    (meant_gatherAll _ rfl).settles_of_value? 4 rfl
  have hkey : HasKey env .root .unknown keys tuple [some (.integer 1)] :=
    .cons ((meant_groupingItems _ _ _).settles_of_value? 2 rfl) (.atomic rfl) .nil
  have hcap : ∀ c, env.materializationCap = some c → c + 1 < wordBound := by
    rintro c ⟨⟩
    decide +kernel
  have hother : IsOther keys "r" := by simp [IsOther, keys]
  have hfails := (@groupsExactly_onHost env .root hcap keys .unknown [tuple]).fails_iff.mpr <|
    .inr ⟨_, .cons hkey .nil, fun hfits => by
      have hlong := hfits [some (.integer 1)] (List.mem_singleton_self _) tuple rfl "r" hother rfl
        tuple (List.mem_singleton_self _) _ rfl 2 rfl
      exact absurd hlong (by decide)⟩
  refine ⟨hpulled, fun h => ?_⟩
  obtain ⟨t, ht, hlacks⟩ := h.mp ((raises_groupBy_iff hpulled).mpr hfails)
  obtain rfl := List.mem_singleton.mp ht
  exact hkey.not_lacksKey hlacks

end HybridQuery
