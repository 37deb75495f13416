import HybridQuery.Proofs.Spreading.Computations

/-!
# Navigation, checks and clauses of spread plans

* `PlanEvaluator.Carries.applyStep`, `PlanEvaluator.Carries.stepRows`: what a navigation step gives.
* `Meaning.checked_carries`, `Meaning.checked_draws`: results that are taken to the type of a call.
* `Meaning.bound_carries`, `ForVariables.expand_like`: tuples for the items of a source.
-/

namespace HybridQuery

variable {S : Plan → Plan → Prop} {calls : FunctionKey → Prop} {env' env : Environment}

/-! ## Navigation -/

/-- A step looks at the place only if it says so. -/
theorem PlanEvaluator.applyStep_place {ev : PlanEvaluator} {s : NavigationStep}
    (hs : readsPlace s = false) (operand : StepOperand) (place place' : Nat) (i : Item)
    (c : Context) : ev.applyStep s operand place i c = ev.applyStep s operand place' i c := by
  cases s with
  | objectLookup =>
    cases operand with
    | key key => cases key <;> rfl
    | _ => rfl
  | arrayLookup =>
    cases operand with
    | index index => cases index <;> rfl
    | _ => rfl
  | arrayUnbox => rfl
  | filter => cases hs

/-- Related records have related numberings. -/
theorem forall₂_zipIdx {α' α : Type} {R : α' → α → Prop} {l' : List α'} {l : List α}
    (h : List.Forall₂ R l' l) (start : Nat) :
    List.Forall₂ (fun x' x => R x'.1 x.1 ∧ x'.2 = x.2) (l'.zipIdx start) (l.zipIdx start) := by
  induction h generalizing start with
  | nil => exact .nil
  | cons ha _ ih => exact .cons ⟨ha, rfl⟩ (ih (start + 1))

theorem Collection.Like.zipWithIndex {α' α : Type} {R : α' → α → Prop} {c' : Collection α'}
    {c : Collection α} (h : c'.Like R c) :
    c'.zipWithIndex.Like (fun x' x => R x'.1 x.1 ∧ x'.2 = x.2) c.zipWithIndex := by
  rw [Collection.Like, Collection.records_zipWithIndex, Collection.records_zipWithIndex]
  exact forall₂_zipIdx h 0

namespace PlanEvaluator.Carries

section
variable {ev' ev : PlanEvaluator} (h : PlanEvaluator.Carries S env' env ev' ev) {c' c : Context}
  (hc : Context.Like S c' c)
include h hc

theorem lookupKey {p' p : Plan} (hp : S p' p) :
    Engine.Carries env' env (· = ·) (ev'.lookupKey p' c') (ev.lookupKey p c) := by
  refine (h.optionalItem hc hp _).bind fun o' o ho => ?_
  cases ho with
  | none => exact .pure rfl
  | @some i' i hi =>
    dsimp only
    rw [hi.keyText?_eq]
    cases i.keyText? with
    | none => exact .of_never .fail
    | some key => exact .pure rfl

theorem lookupIndex {p' p : Plan} (hp : S p' p) :
    Engine.Carries env' env (· = ·) (ev'.lookupIndex p' c') (ev.lookupIndex p c) := by
  refine (h.optionalItem hc hp _).bind fun o' o ho => ?_
  cases ho with
  | none => exact .pure rfl
  | some hi =>
    cases hi with
    | atomic =>
      split
      · next heq => cases heq
      · next heq => cases heq; exact .pure rfl
      · exact .of_never .fail
    | object | array | function => exact .of_never .fail

/-- Whether a predicate keeps an item. -/
theorem keeps {p' p : Plan} (hp : S p' p) (place : Nat) {i' i : Item} (hi : Item.Like S i' i) :
    Engine.Carries env' env (· = ·) (ev'.keeps p' place i' c') (ev.keeps p place i c) := by
  refine (h.evaluate hp (hc.withBinding _ (.items (.cons hi .nil)))).bind fun s' s hs => ?_
  have htruth : Engine.Carries env' env (· = ·) (Run.ofResult (s'.truth.locate p'.position))
      (Run.ofResult (s.truth.locate p.position)) := by
    rw [Sequence.Like.truth_eq hs]
    exact .ofResult (HybridQuery.Carries.of_eq.mapError _ _)
  cases hs with
  | nil => exact htruth
  | cons hr hrest =>
    cases hrest with
    | cons => exact htruth
    | nil =>
      dsimp only
      split
      · next hn =>
        rw [hr.eq_of_isAtomic (Item.isAtomic_of_isNumeric hn)]
        rw [hr.isNumeric_eq] at hn
        rw [if_pos hn]
        exact .pure rfl
      · next hn =>
        rw [hr.isNumeric_eq] at hn
        rw [if_neg hn]
        exact htruth

end

section
variable {ev' ev : PlanEvaluator} (h : PlanEvaluator.Carries (Plan.Spread calls) env' env ev' ev)
  {c' c : Context} (hc : Context.Like (Plan.Spread calls) c' c) {s' s : NavigationStep}
  (hs : s'.Spread calls s)
include h hc hs

theorem stepOperand :
    Engine.Carries env' env (· = ·) (ev'.stepOperand s' c') (ev.stepOperand s c) := by
  cases hs with
  | objectLookup hp => exact (h.lookupKey hc hp).map fun _ _ hk => congrArg StepOperand.key hk
  | arrayLookup hp => exact (h.lookupIndex hc hp).map fun _ _ hi => congrArg StepOperand.index hi
  | arrayUnbox | filter => exact .pure rfl

/-- What a step gives for like items. -/
theorem applyStep (operand : StepOperand) (place : Nat) {i' i : Item}
    (hi : Item.Like (Plan.Spread calls) i' i) :
    Engine.Carries env' env (Sequence.Like (Plan.Spread calls))
      (ev'.applyStep s' operand place i' c') (ev.applyStep s operand place i c) := by
  cases hs with
  | objectLookup hp =>
    cases operand with
    | key key =>
      cases key with
      | some key => exact .pure (Option.Rel.toList (hi.member? key))
      | none => exact .pure .nil
    | _ => exact .pure .nil
  | arrayLookup hp =>
    cases operand with
    | index index =>
      cases index with
      | some index => exact .pure (Option.Rel.toList (memberAt_like hi index))
      | none => exact .pure .nil
    | _ => exact .pure .nil
  | arrayUnbox => exact .pure hi.members
  | filter hp =>
    refine (h.keeps hc hp place hi).bind ?_
    rintro kept _ rfl
    cases kept
    · exact .pure .nil
    · exact .pure (.cons hi .nil)

omit h hc in
theorem readsPlace_eq : readsPlace s' = readsPlace s := by cases hs <;> rfl

theorem stepRows (operand : StepOperand) {d' d : Collection Item}
    (hd : d'.Like (Item.Like (Plan.Spread calls)) d) :
    Engine.Carries env' env (Collection.Like (Item.Like (Plan.Spread calls)))
      (ev'.stepRows s' operand d' c') (ev.stepRows s operand d c) := by
  unfold PlanEvaluator.stepRows
  rw [readsPlace_eq hs]
  split
  · refine .flatMapM hd.zipWithIndex ?_
    rintro ⟨i', _⟩ ⟨i, index⟩ ⟨hi, rfl⟩
    exact h.applyStep hc hs operand _ hi
  · exact .flatMapM hd fun _ _ hi => h.applyStep hc hs operand 0 hi

/-- A step over records, beside one that is pulled. -/
theorem stepDrawn (operand : StepOperand) {d' : Collection Item} {t : Trace Item}
    (hd : t.Gives (Item.Like (Plan.Spread calls)) d'.records) :
    Engine.Draws env' (Item.Like (Plan.Spread calls)) (ev'.stepRows s' operand d' c')
      (t.bindFrom (fun place i => (ev.applyStep s operand place i c).trace env) 1) := by
  unfold PlanEvaluator.stepRows
  split
  · exact .flatMapM_zipWithIndex hd fun index _ _ hi =>
      (h.applyStep hc hs operand (index + 1) hi).gives
  · next hplace =>
    rw [readsPlace_eq hs, Bool.not_eq_true] at hplace
    have hconst : (fun place i => (ev.applyStep s operand place i c).trace env) =
        fun _ i => (ev.applyStep s operand 0 i c).trace env := by
      funext place i
      rw [applyStep_place hplace]
    rw [hconst, Trace.bindFrom_const]
    exact .flatMapM hd fun _ _ hi => (h.applyStep hc hs operand 0 hi).gives

omit h hc hs in
theorem never_stepFrame {input : Engine (Frame Item)} (hinput : Engine.Never env' input) :
    Engine.Never env' (ev'.stepFrame s' input c') := by
  refine Engine.Meets.bind_of .trivial fun operand _ => ?_
  cases s' with
  | objectLookup =>
    cases operand with
    | key key =>
      cases key with
      | some key => exact hinput.bind _
      | none => exact Engine.Never.fail
    | _ => exact Engine.Never.fail
  | _ => exact Engine.Never.fail

end
end PlanEvaluator.Carries

/-! ## Checks of results -/

theorem SequenceType.checkProduced_of_checkCount {type : SequenceType} {produced total : Nat}
    (hp : 0 < produced) (hle : produced ≤ total) (h : type.checkCount total = .ok ()) :
    type.checkProduced produced = .ok () := by
  have hadmits : type.admitsCount total = true := by
    unfold checkCount at h
    split at h
    · assumption
    · cases h
  cases type with
  | empty =>
    have : total = 0 := by simpa [admitsCount] using hadmits
    omega
  | of itemType occurrence =>
    cases occurrence with
    | one =>
      have : total = 1 := by simpa [admitsCount, Occurrence.admits] using hadmits
      have : produced = 1 := by omega
      subst this
      rfl
    | zeroOrOne =>
      have : total ≤ 1 := by simpa [admitsCount, Occurrence.admits] using hadmits
      have : produced = 1 := by omega
      subst this
      rfl
    | zeroOrMore | oneOrMore => rfl

namespace Meaning

/-- Results that are taken to the type of a call as they are pulled. -/
theorem checked_carries (type : SequenceType) (c : Catalogue) {t' t : Trace Item}
    (h : Trace.Carries (Item.Like S) t' t) (produced : Nat) :
    Trace.Carries (Item.Like S) (checked type c produced t') (checked type c produced t) := by
  induction h generalizing produced with
  | done =>
    rw [checked]
    exact .attempt (Q := (· = ·)) .of_eq fun _ _ _ => .done
  | failed f t => exact .failed f _
  | item head _ ih =>
    rw [checked, checked]
    refine .attempt (Q := Item.Like S) ((HybridQuery.Carries.mapError ?_ _ _).mapError _ _)
      fun _ _ hi => .item hi (ih _)
    unfold SequenceType.promoteProduced
    split
    · exact .ok head
    · exact (HybridQuery.Carries.of_eq).bind fun _ _ _ => Catalogue.promote_like c head _

/-- What passes the checks all at once passes them as it is pulled. -/
theorem checked_ofList {type : SequenceType} {c : Catalogue} {l k : List Item}
    (hcount : type.checkCount l.length = .ok ())
    (hl : l.mapM (fun i => c.promote i type.itemType) = .ok k) (hu : type.isUnconstrained = false) :
    checked type c 0 (.ofList l) = .ofList k := by
  have hfrom (produced : Nat) (hcount : type.checkCount (produced + l.length) = .ok ()) :
      checked type c produced (.ofList l) = .ofList k := by
    clear * - hcount hl hu
    induction l generalizing produced k with
    | nil =>
      cases hl
      rw [Trace.ofList, checked, show produced = produced + [].length from rfl, hcount]
      rfl
    | cons i l ih =>
      rw [List.mapM_cons] at hl
      cases hi : c.promote i type.itemType with
      | error e => rw [hi] at hl; cases hl
      | ok j =>
        cases hk : l.mapM fun i => c.promote i type.itemType with
        | error e => rw [hi, hk] at hl; cases hl
        | ok ks =>
          rw [hi, hk] at hl
          cases hl
          have hproduced : type.promoteProduced c (produced + 1) i = .ok j := by
            have hp : type.checkProduced (produced + 1) = .ok () :=
              SequenceType.checkProduced_of_checkCount (Nat.succ_pos produced)
                (by simp only [List.length_cons]; omega) hcount
            simp only [SequenceType.promoteProduced, hu, Bool.false_eq_true, ↓reduceIte, hp, hi]
            rfl
          rw [Trace.ofList, checked, hproduced]
          refine congrArg (Trace.item j) (ih hk (produced + 1) ?_)
          rw [← hcount, List.length_cons, Nat.add_assoc, Nat.add_comm 1]
  exact hfrom 0 (by rwa [Nat.zero_add])

theorem checked_unconstrained {type : SequenceType} (hu : type.isUnconstrained = true)
    (c : Catalogue) (produced : Nat) (t : Trace Item) : checked type c produced t = t := by
  obtain rfl : type = .unconstrained := by simpa [SequenceType.isUnconstrained] using hu
  induction t generalizing produced with
  | done => rfl
  | failed => rfl
  | item i t ih =>
    rw [checked]
    exact congrArg (Trace.item i) (ih _)

end Meaning

/-- A distributed result that passes the checks, beside one that is pulled. -/
theorem PlanEvaluator.Carries.promoteDrawn (he : Environment.Spread S calls env' env)
    (type : SequenceType) {d' : Collection Item} {t : Trace Item}
    (hd : t.Gives (Item.Like S) d'.records) :
    Engine.Draws env' (Item.Like S) (PlanEvaluator.promoteRows type d')
      (Meaning.checked type env.catalogue 0 t) := by
  unfold PlanEvaluator.promoteRows
  split
  · next hu =>
    rw [Meaning.checked_unconstrained hu]
    exact .pure hd
  · next hu =>
    refine Engine.Meets.bind_of (.environment (P := (· = env')) rfl) ?_
    rintro _ rfl
    obtain ⟨l, rfl, hl⟩ := hd
    refine .ofResult (fun e' he' => ?_) fun _ _ => True.intro
    rw [he.catalogue, d'.count_eq, hl.length_eq] at he'
    cases hcount : type.checkCount l.length with
    | error f => rw [hcount] at he'; cases he'
    | ok =>
      have hmap : d'.mapM (fun i => env.catalogue.promote i type.itemType) = .ok e' := by
        rw [hcount] at he'
        revert he'
        cases d'.mapM fun i => env.catalogue.promote i type.itemType with
        | error f => exact nofun
        | ok e => rintro ⟨⟩; rfl
      obtain ⟨k, hk, hr⟩ := Carries.mapM_records (Q := Item.Like S) hl
        (fun _ _ hi => Catalogue.promote_like env.catalogue hi type.itemType) e' hmap
      rw [Meaning.checked_ofList hcount hk (by simpa using hu)]
      exact .ofList hr

/-! ## Clauses -/

theorem countTuple_like (name : String) {t' t : Tuple} (ht : t'.Like S t) (place : Nat) :
    (countTuple name t' place).Like S (countTuple name t place) :=
  ht.bind name (.items (.cons (.atomic rfl) .nil))

theorem countedRows_like (name : String) {d' d : Collection Tuple} (hd : d'.Like (Tuple.Like S) d) :
    (countedRows name d').Like (Tuple.Like S) (countedRows name d) := by
  rw [Collection.Like, countedRows, countedRows, Collection.records_map, Collection.records_map,
    List.forall₂_map_left_iff, List.forall₂_map_right_iff]
  refine List.Forall₂.imp ?_ hd.zipWithIndex
  rintro ⟨t', _⟩ ⟨t, index⟩ ⟨ht, rfl⟩
  exact countTuple_like name ht _

namespace ForVariables

variable (v : ForVariables)

theorem bind_like {t' t : Tuple} (ht : t'.Like S t) {w' w : Value Item} (hw : ValueLike S w' w)
    (index : Nat) : (v.bind t' w' index).Like S (v.bind t w index) := by
  unfold ForVariables.bind
  cases v.place with
  | none => exact ht.bind _ hw
  | some place => exact (ht.bind _ hw).bind _ (.items (.cons (.atomic rfl) .nil))

theorem expand_like (allowingEmpty : Bool) {t' t : Tuple} (ht : t'.Like S t) {s' s : Sequence}
    (hs : Sequence.Like S s' s) :
    List.Forall₂ (Tuple.Like S) (v.expand allowingEmpty t' s') (v.expand allowingEmpty t s) := by
  unfold ForVariables.expand
  have hempty : s'.isEmpty = s.isEmpty := by cases hs <;> rfl
  rw [hempty]
  split
  · exact .cons (v.bind_like ht (.items .nil) 0) .nil
  · rw [List.forall₂_map_left_iff, List.forall₂_map_right_iff]
    refine (forall₂_zipIdx hs 1).imp ?_
    rintro ⟨i', _⟩ ⟨i, index⟩ ⟨hi, rfl⟩
    exact v.bind_like ht (.items (.cons hi .nil)) _

end ForVariables

namespace Meaning

/-- Tuples for the items of a source that is pulled. -/
theorem bound_carries (v : ForVariables) (allowingEmpty : Bool) {u' u : Tuple} (hu : u'.Like S u)
    {t' t : Trace Item} (h : Trace.Carries (Item.Like S) t' t) (index : Nat) :
    Trace.Carries (Tuple.Like S) (bound v allowingEmpty u' index t')
      (bound v allowingEmpty u index t) := by
  induction h generalizing index with
  | done =>
    simp only [bound]
    split
    · exact .one (v.bind_like hu (.items .nil) 0)
    · exact .done
  | failed f t => exact .failed f _
  | item head _ ih => exact .item (v.bind_like hu (.items (.cons head .nil)) _) (ih _)

/-- Pulling a list gives the tuples for it. -/
theorem bound_ofList (v : ForVariables) (allowingEmpty : Bool) (tuple : Tuple) (l : List Item) :
    bound v allowingEmpty tuple 0 (.ofList l) = .ofList (v.expand allowingEmpty tuple l) := by
  have hrest (index : Nat) (l : List Item) :
      bound v allowingEmpty tuple (index + 1) (.ofList l) =
        .ofList ((l.zipIdx (index + 2)).map fun p => v.bind tuple (.single p.1) p.2) := by
    induction l generalizing index with
    | nil => rfl
    | cons i l ih => exact congrArg (Trace.item _) (ih (index + 1))
  cases l with
  | nil =>
    cases allowingEmpty <;> rfl
  | cons i l => exact congrArg (Trace.item _) (hrest 0 l)

end Meaning
end HybridQuery
