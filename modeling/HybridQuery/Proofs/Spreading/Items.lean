import HybridQuery.Proofs.Lifting.Items
import HybridQuery.Proofs.Spreading.Draws
import HybridQuery.Proofs.Spreading.Relation

/-!
# Like items

Like items are the same except that functions among them are alike, so what is computed from items is
computed alike from like ones.

* `Item.like_eq_lift`: like items are items with like functions.
* `Item.Like.isAtomic_eq` and its like; `Item.Like.member?`, `Item.Like.members`.
* `Catalogue.promote_like`, `Catalogue.promoteValue_like`: promotion.
-/

namespace HybridQuery

variable {S : Plan → Plan → Prop}

theorem Agree.carries {ε α : Type} {R : α → α → Prop} {d e : Except ε α} (h : Agree R d e) :
    Carries R d e := by
  cases h with
  | ok h => exact .ok h
  | error e => exact .error e

/-! ## Single items -/

namespace Item

mutual
theorem Like.lift {i' i : Item} (h : Like S i' i) : Lift (FunctionOf.Like S) i' i := by
  cases h with
  | atomic h => exact .atomic h
  | object h => exact .object (like_pairs_lift h)
  | array h => exact .array (like_members_lift h)
  | function handle name parameters signature hbody hclosure =>
    exact .function (Like.function handle name parameters signature hbody hclosure)
termination_by sizeOf i'

theorem like_members_lift {ms' ms : List Item} (h : List.Forall₂ (Like S) ms' ms) :
    List.Forall₂ (Lift (FunctionOf.Like S)) ms' ms := by
  cases h with
  | nil => exact .nil
  | cons h hr => exact .cons h.lift (like_members_lift hr)
termination_by sizeOf ms'

theorem like_pairs_lift {ps' ps : List (String × Item)} (h : List.Forall₂ (Keyed (Like S)) ps' ps) :
    List.Forall₂ (Keyed (Lift (FunctionOf.Like S))) ps' ps := by
  cases h with
  | nil => exact .nil
  | cons h hr =>
    cases h with
    | mk key h => exact .cons (.mk key h.lift) (like_pairs_lift hr)
termination_by sizeOf ps'
end

mutual
theorem Lift.like {i' i : Item} (h : Lift (FunctionOf.Like S) i' i) : Like S i' i := by
  cases h with
  | atomic h => exact .atomic h
  | object h => exact .object (lift_pairs_like h)
  | array h => exact .array (lift_members_like h)
  | function h => exact h
termination_by sizeOf i'

theorem lift_members_like {ms' ms : List Item} (h : List.Forall₂ (Lift (FunctionOf.Like S)) ms' ms) :
    List.Forall₂ (Like S) ms' ms := by
  cases h with
  | nil => exact .nil
  | cons h hr => exact .cons h.like (lift_members_like hr)
termination_by sizeOf ms'

theorem lift_pairs_like {ps' ps : List (String × Item)}
    (h : List.Forall₂ (Keyed (Lift (FunctionOf.Like S))) ps' ps) :
    List.Forall₂ (Keyed (Like S)) ps' ps := by
  cases h with
  | nil => exact .nil
  | cons h hr =>
    cases h with
    | mk key h => exact .cons (.mk key h.like) (lift_pairs_like hr)
termination_by sizeOf ps'
end

/-- Like items are those with like functions. -/
theorem like_eq_lift : Like S = Lift (FunctionOf.Like S) :=
  funext fun _ => funext fun _ => propext ⟨Like.lift, Lift.like⟩

variable {i' i : Item}

theorem Like.eq_of_isAtomic (h : Like S i' i) (ha : i'.isAtomic = true) : i' = i := h.lift.eq_of_isAtomic ha

theorem Like.isAtomic_eq (h : Like S i' i) : i'.isAtomic = i.isAtomic := h.lift.isAtomic_eq

theorem Like.isNumeric_eq (h : Like S i' i) : i'.isNumeric = i.isNumeric := h.lift.isNumeric_eq

theorem Like.keyText?_eq (h : Like S i' i) : i'.keyText? = i.keyText? := h.lift.keyText?_eq

theorem Like.member? (h : Like S i' i) (key : String) :
    Option.Rel (Like S) (i'.member? key) (i.member? key) := by
  rw [like_eq_lift] at h ⊢
  exact Lift.member? h key

theorem Like.members (h : Like S i' i) : Sequence.Like S i'.members i.members :=
  lift_members_like h.lift.members

end Item

theorem PlanEvaluator.memberAt_like {i' i : Item} (h : Item.Like S i' i) (index : Int64) :
    Option.Rel (Item.Like S) (memberAt i' index) (memberAt i index) := by
  rw [Item.like_eq_lift] at h ⊢
  exact memberAt_lift h index

/-! ## Sequences -/

namespace Sequence

variable {s' s : Sequence}

theorem Like.lift (h : Sequence.Like S s' s) : Sequence.Lift (FunctionOf.Like S) s' s :=
  Item.like_members_lift h

theorem Like.truth_eq (h : Sequence.Like S s' s) : s'.truth = s.truth := truth_lift h.lift

theorem Like.optional (h : Sequence.Like S s' s) (what : String) (position' position : SourcePosition) :
    Carries (Option.Rel (Item.Like S)) (s'.optional what position') (s.optional what position) := by
  cases h with
  | nil => exact .ok .none
  | cons ha hr =>
    cases hr with
    | nil => exact .ok (.some ha)
    | cons => exact .error _

theorem Like.asItem (h : Sequence.Like S s' s) : Item.Like S s'.asItem s.asItem :=
  (asItem_lift h.lift).like

theorem Like.allKeys_eq (h : Sequence.Like S s' s) : s'.allKeys = s.allKeys := allKeys_lift h.lift

theorem Like.sum (h : Sequence.Like S s' s) : Carries (Item.Like S) s'.sum s.sum := by
  rw [Item.like_eq_lift]
  exact (sum_lift h.lift).carries

theorem Like.intersection (h : Sequence.Like S s' s) :
    Item.Like S s'.intersection s.intersection := (intersection_lift h.lift).like

end Sequence

/-! ## Promotion -/

namespace Catalogue

variable (c : Catalogue)

theorem promote_like {i' i : Item} (h : Item.Like S i' i) (type : ItemType) :
    Carries (Item.Like S) (c.promote i' type) (c.promote i type) :=
  (promote_lift c h.lift type).carries.mono fun _ _ => Item.Lift.like

theorem promoteSequence_like {s' s : Sequence} (h : Sequence.Like S s' s) (type : SequenceType) :
    Carries (Sequence.Like S) (c.promoteSequence s' type) (c.promoteSequence s type) :=
  (promoteSequence_lift c h.lift type).carries.mono fun _ _ => Item.lift_members_like

theorem promoteValue_like {v' v : Value Item} (h : ValueLike S v' v) {type : SequenceType}
    (hu : type.isUnconstrained = false) :
    Carries (ValueLike S) (c.promoteValue v' type) (c.promoteValue v type) := by
  cases h with
  | items h => exact (promoteSequence_like c h type).bind fun _ _ h => .ok (.items h)
  | @lowered c' xs h =>
    simp only [promoteValue, promoteSequence, hu, Bool.false_eq_true, ↓reduceIte, c'.count_eq,
      h.length_eq, promoteEach_eq_mapM, bind_assoc]
    refine (Carries.of_eq (d := type.checkCount xs.length)).bind fun _ _ _ => ?_
    exact (Carries.mapM_records h fun _ _ ha => promote_like c ha _).bind fun _ _ h => .ok (.lowered h)
  | @rows c' d h =>
    simp only [promoteValue, c'.count_eq, d.count_eq, h.length_eq]
    refine (Carries.of_eq (d := type.checkCount d.records.length)).bind fun _ _ _ => ?_
    exact (Carries.mapM_collection h fun _ _ ha => promote_like c ha _).bind fun _ _ h => .ok (.rows h)

theorem promoteArguments_like {as' as : List (Option (Value Item))}
    (h : List.Forall₂ (Option.Rel (ValueLike S)) as' as) (types : List SequenceType) :
    Carries (List.Forall₂ (Option.Rel (ValueLike S))) (c.promoteArguments as' types)
      (c.promoteArguments as types) := by
  induction h generalizing types with
  | nil => cases types <;> exact .ok .nil
  | cons ha _ ih =>
    cases types with
    | nil => exact .ok .nil
    | cons type types =>
      cases ha with
      | none => exact (ih types).bind fun _ _ h => .ok (.cons .none h)
      | some hv =>
        simp only [promoteArguments]
        split
        · exact (ih types).bind fun _ _ h => .ok (.cons (.some hv) h)
        · next hu =>
          refine Carries.bind (R := Option.Rel (ValueLike S)) ?_ fun _ _ hv =>
            (ih types).bind fun _ _ h => .ok (List.Forall₂.cons hv h)
          exact (promoteValue_like c hv (by simpa using hu)).map fun _ _ => .some

end Catalogue
end HybridQuery
