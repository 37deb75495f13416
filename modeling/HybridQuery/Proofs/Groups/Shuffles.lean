import HybridQuery.Proofs.Grouping

/-!
# Groups after a shuffle

Groups that are gathered in one pass are the keys as they are first seen, each with the values of the
keys that are equal to it, in their order. A shuffle scatters the pairs of every partition over buckets, and each
bucket groups what has reached it. Nothing of that is left in the groups but their order: they are those of the
pairs in partition order.

* `firstSeen`: the keys that no earlier key is equal to; `countP_firstSeen` says that every key is
  equal to one of them.
* `Collection.groupPairs_eq`: the groups of a list of pairs.
* `Gathers`: the specification of groups, which says nothing of their order. `Gathers.perm` says that it
  leaves nothing else open.
* `gathers_groupPairs`: one pass over a list of pairs meets it.
* `Collection.groupByKey_gathers`: so does a shuffle, whatever the partitions and the hash.
-/

namespace HybridQuery

/-! ## Keys as they are first seen -/

variable {κ β : Type} {same : κ → κ → Bool}

/-- The keys that no earlier key is equal to. -/
def firstSeen (same : κ → κ → Bool) : List κ → List κ
  | [] => []
  | k :: rest => k :: (firstSeen same rest).filter fun k' => !same k k'

theorem firstSeen_sublist (ks : List κ) : (firstSeen same ks).Sublist ks := by
  induction ks with
  | nil => exact .slnil
  | cons k ks ih => exact (List.filter_sublist.trans ih).cons_cons k

/-- Every key is equal to one of the keys that are seen first. -/
theorem countP_firstSeen (hsame : Equivalence fun a b => same a b = true) (ks : List κ) :
    ∀ k ∈ ks, (firstSeen same ks).countP (fun first => same first k) = 1 := by
  induction ks with
  | nil => exact fun _ h => (nomatch h)
  | cons first ks ih =>
    intro k hk
    rw [firstSeen, List.countP_cons, List.countP_filter]
    by_cases hfirst : same first k = true
    · have hnone : (firstSeen same ks).countP (fun other => same other k && !same first other) = 0 := by
        refine List.countP_eq_zero.mpr fun other _ h => ?_
        obtain ⟨hother, hne⟩ := Bool.and_eq_true_iff.mp h
        rw [hsame.trans hfirst (hsame.symm hother)] at hne
        cases hne
      rw [hnone, if_pos hfirst]
    · have hk : k ∈ ks := by
        refine (List.mem_cons.mp hk).resolve_left fun h => hfirst ?_
        rw [h]
        exact hsame.refl first
      rw [if_neg hfirst, Nat.add_zero, ← ih k hk]
      refine List.countP_congr fun other _ => ?_
      rw [Bool.and_eq_true, Bool.not_eq_true']
      refine ⟨And.left, fun hother => ⟨hother, ?_⟩⟩
      rw [Bool.eq_false_iff]
      exact fun h => hfirst (hsame.trans h hother)

namespace Collection

/-- One pass gives the first group all that belongs to it, and the others what it leaves. -/
theorem foldl_addToGroup (k : κ) (values : List β) (groups : List (κ × List β))
    (pairs : List (κ × β)) :
    pairs.foldl (fun groups p => addToGroup same p.1 p.2 groups) ((k, values) :: groups) =
      (k, values ++ (pairs.filter fun p => same k p.1).map (·.2)) ::
        (pairs.filter fun p => !same k p.1).foldl (fun groups p => addToGroup same p.1 p.2 groups)
          groups := by
  induction pairs generalizing values groups with
  | nil => simp
  | cons p pairs ih =>
    rw [List.foldl_cons, addToGroup, List.filter_cons, List.filter_cons]
    cases same k p.1 with
    | true =>
      simp only [↓reduceIte, Bool.not_true, Bool.false_eq_true, ih, List.map_cons, List.append_assoc,
        List.singleton_append]
    | false =>
      simp only [Bool.false_eq_true, ↓reduceIte, Bool.not_false, ih, List.foldl_cons]

theorem groupPairs_cons (hsame : Equivalence fun a b => same a b = true) (k : κ) (value : β)
    (pairs : List (κ × β)) :
    groupPairs same ((k, value) :: pairs) =
      (k, value :: (pairs.filter fun p => same k p.1).map (·.2)) ::
        (groupPairs same pairs).filter fun g => !same k g.1 := by
  have hrespects (a b : κ) (h : same a b = true) : (!same k a) = !same k b := by
    rw [Bool.not_inj_iff, Bool.eq_iff_iff]
    exact ⟨fun ha => hsame.trans ha h, fun hb => hsame.trans hb (hsame.symm h)⟩
  rw [filter_groupPairs (p := fun key => !same k key) hrespects]
  exact foldl_addToGroup k [value] [] pairs

/-- **The groups of pairs**: the keys as they are first seen, each with the values of the keys that are
equal to it. -/
theorem groupPairs_eq (hsame : Equivalence fun a b => same a b = true) (pairs : List (κ × β)) :
    groupPairs same pairs = (firstSeen same (pairs.map (·.1))).map fun k =>
      (k, (pairs.filter fun p => same k p.1).map (·.2)) := by
  induction pairs with
  | nil => rfl
  | cons p pairs ih =>
    obtain ⟨k, value⟩ := p
    rw [groupPairs_cons hsame, ih, List.map_cons, firstSeen, List.map_cons, List.filter_cons,
      if_pos (hsame.refl k), List.map_cons, List.filter_map]
    congr 1
    refine List.map_congr_left fun k' hk' => ?_
    have hne : same k k' = false := by simpa using (List.mem_filter.mp hk').2
    have hne' : same k' k = false := by
      rw [Bool.eq_false_iff] at hne ⊢
      exact fun h => hne (hsame.symm h)
    rw [List.filter_cons, if_neg (by simpa using hne')]

end Collection

/-! ## Specification of groups -/

/-- What is asked of the groups of pairs, in whatever order they stand. -/
structure Gathers (same : κ → κ → Bool) (pairs : List (κ × β)) (groups : List (κ × List β)) : Prop where
  /-- Every key is equal to that of one group. -/
  once : ∀ p ∈ pairs, groups.countP (fun g => same g.1 p.1) = 1
  /-- The key of a group is the first of the keys that are equal to it. -/
  key_first : ∀ g ∈ groups, (pairs.map (·.1)).find? (same g.1) = some g.1
  /-- The values of a group are those of the keys that are equal to its own, in their order. -/
  values_eq : ∀ g ∈ groups, g.2 = (pairs.filter fun p => same g.1 p.1).map (·.2)

/-! ## Groups without an order -/

namespace Gathers

variable {pairs : List (κ × β)} {groups groups' : List (κ × List β)}

theorem of_perm (h : Gathers same pairs groups) (hperm : groups.Perm groups') :
    Gathers same pairs groups' where
  once p hp := (hperm.countP_eq _).symm.trans (h.once p hp)
  key_first g hg := h.key_first g (hperm.mem_iff.mpr hg)
  values_eq g hg := h.values_eq g (hperm.mem_iff.mpr hg)

/-- The key of a group is that of a pair. -/
theorem exists_pair (h : Gathers same pairs groups) {g : κ × List β} (hg : g ∈ groups) :
    ∃ p ∈ pairs, p.1 = g.1 :=
  List.mem_map.mp (List.mem_of_find?_eq_some (h.key_first g hg))

variable (hsame : Equivalence fun a b => same a b = true)
include hsame

theorem nodup (h : Gathers same pairs groups) : groups.Nodup := by
  refine List.pairwise_iff_forall_sublist.mpr fun {g g'} hsub heq => ?_
  subst heq
  obtain ⟨p, hp, hkey⟩ := h.exists_pair (hsub.subset (List.mem_cons_self ..))
  have htwice := hsub.countP_le (p := fun g => same g.1 p.1)
  rw [h.once p hp] at htwice
  simp [hkey, hsame.refl g.1] at htwice

/-- Groups with equal keys are the same: both have the first of these keys, and its values. -/
theorem eq_of_same (h : Gathers same pairs groups) (h' : Gathers same pairs groups')
    {g g' : κ × List β} (hg : g ∈ groups) (hg' : g' ∈ groups') (hkeys : same g'.1 g.1 = true) :
    g' = g := by
  have halike : same g'.1 = same g.1 := by
    funext k
    rw [Bool.eq_iff_iff]
    exact ⟨hsame.trans (hsame.symm hkeys), hsame.trans hkeys⟩
  have hfirst := h'.key_first g' hg'
  rw [halike, h.key_first g hg] at hfirst
  refine Prod.ext (Option.some.inj hfirst).symm ?_
  rw [h.values_eq g hg, h'.values_eq g' hg', halike]

theorem subset (h : Gathers same pairs groups) (h' : Gathers same pairs groups') :
    groups ⊆ groups' := by
  intro g hg
  obtain ⟨p, hp, hkey⟩ := h.exists_pair hg
  have hone : 0 < groups'.countP fun g => same g.1 p.1 := by
    rw [h'.once p hp]
    exact Nat.one_pos
  obtain ⟨g', hg', hkeys⟩ := List.countP_pos_iff.mp hone
  rw [hkey] at hkeys
  exact eq_of_same hsame h h' hg hg' hkeys ▸ hg'

/-- **Pairs have one list of groups**, up to order. -/
theorem perm (h : Gathers same pairs groups) (h' : Gathers same pairs groups') :
    groups.Perm groups' :=
  (List.perm_ext_iff_of_nodup (nodup hsame h) (nodup hsame h')).mpr fun _ =>
    ⟨fun hg => subset hsame h h' hg, fun hg => subset hsame h' h hg⟩

end Gathers

/-! ## Groups of one pass -/

theorem find?_of_mem_firstSeen (hsame : Equivalence fun a b => same a b = true) {ks : List κ} {k : κ}
    (hk : k ∈ firstSeen same ks) : ks.find? (same k) = some k := by
  induction ks with
  | nil => cases hk
  | cons first ks ih =>
    obtain rfl | hk := List.mem_cons.mp hk
    · exact List.find?_cons_of_pos (hsame.refl k)
    · obtain ⟨hk, hne⟩ := List.mem_filter.mp hk
      rw [List.find?_cons_of_neg, ih hk]
      intro heq
      rw [hsame.symm heq] at hne
      cases hne

theorem gathers_groupPairs (hsame : Equivalence fun a b => same a b = true) (pairs : List (κ × β)) :
    Gathers same pairs (Collection.groupPairs same pairs) := by
  rw [Collection.groupPairs_eq hsame]
  refine ⟨fun p hp => ?_, ?_, ?_⟩
  · rw [List.countP_map]
    exact countP_firstSeen hsame _ _ (List.mem_map_of_mem hp)
  · refine List.forall_mem_map.mpr fun k hk => ?_
    exact find?_of_mem_firstSeen hsame hk
  · exact List.forall_mem_map.mpr fun k _ => rfl

/-! ## Groups of a collection -/

namespace Collection

/-- **Gathering by key loses nothing and doubles nothing.** Where equal keys have the same hash, each
key is that of one group in one of the partitions; this is the key that is seen first, and with it stand
the values of all keys that are equal to it, in the order of the records. So neither the partitions nor
the hash are seen in the groups, but for their order. -/
theorem groupByKey_gathers (hsame : Equivalence fun a b => same a b = true) {bucket : κ → Nat}
    (hbucket : ∀ a b, same a b = true → bucket a = bucket b) (c : Collection (κ × β)) :
    Gathers same c.records (c.groupByKey same bucket).records ∧
    ∀ (recut : Collection (κ × β)) (bucket' : κ → Nat), recut.records = c.records →
      (∀ a b, same a b = true → bucket' a = bucket' b) →
      (recut.groupByKey same bucket').records.Perm (c.groupByKey same bucket).records := by
  have hgathers {bucket : κ → Nat} (hbucket : ∀ a b, same a b = true → bucket a = bucket b)
      (c : Collection (κ × β)) : Gathers same c.records (c.groupByKey same bucket).records :=
    (gathers_groupPairs hsame c.records).of_perm (records_groupByKey_perm hbucket c).symm
  refine ⟨hgathers hbucket c, fun recut bucket' hrecords hbucket' => ?_⟩
  exact Gathers.perm hsame (hrecords ▸ hgathers hbucket' recut) (hgathers hbucket c)

/-- Numbers that are equal up to multiples of three, in three partitions and in one, under two hashes. -/
theorem groupByKey_gathers_residues :
    let same (a b : Nat) : Bool := a % 3 == b % 3
    let c : Collection (Nat × String) := ⟨[[(4, "a"), (3, "b")], [], [(1, "c"), (7, "d"), (0, "e")]]⟩
    let recut : Collection (Nat × String) := ⟨[c.records]⟩
    Equivalence (fun a b => same a b = true) ∧
      (∀ a b, same a b = true → a % 3 = b % 3) ∧ (∀ a b, same a b = true → 5 - a % 3 = 5 - b % 3) ∧
      recut.records = c.records ∧
      (c.groupByKey same (· % 3)).partitions = [[(3, ["b", "e"])], [(4, ["a", "c", "d"])], []] ∧
      Gathers same c.records (c.groupByKey same (· % 3)).records ∧
      (recut.groupByKey same fun a => 5 - a % 3).partitions = [[(4, ["a", "c", "d"]), (3, ["b", "e"])]] ∧
      (recut.groupByKey same fun a => 5 - a % 3).records.Perm (c.groupByKey same (· % 3)).records := by
  intro same c recut
  have hsame : Equivalence fun a b => same a b = true := by
    refine ⟨fun _ => beq_self_eq_true _, fun h => ?_, fun h h' => ?_⟩
    · exact beq_iff_eq.mpr (beq_iff_eq.mp h).symm
    · exact beq_iff_eq.mpr ((beq_iff_eq.mp h).trans (beq_iff_eq.mp h'))
  have hresidue (a b : Nat) (h : same a b = true) : a % 3 = b % 3 := beq_iff_eq.mp h
  have hcomplement (a b : Nat) (h : same a b = true) : 5 - a % 3 = 5 - b % 3 := by
    rw [hresidue a b h]
  obtain ⟨hgathers, hrecut⟩ := groupByKey_gathers hsame hresidue c
  exact ⟨hsame, hresidue, hcomplement, rfl, rfl, hgathers, by decide,
    hrecut recut (fun a => 5 - a % 3) rfl hcomplement⟩

end Collection
end HybridQuery
