import HybridQuery.Proofs.Spreading.Plans

/-!
# Built-in functions of spread plans

* `Engine.Carries.jsonLines`, `Engine.Carries.textLines`: sources give the same records, whatever the
  number of partitions.
* `PlanEvaluator.Carries.sourceRows`, `PlanEvaluator.Carries.sourceDrawn`: the distributed form of a
  call, beside the distributed form and beside the items on the host.
* `PlanEvaluator.Carries.builtinItems`: a call on the host.
-/

namespace HybridQuery

variable {S : Plan → Plan → Prop} {calls : FunctionKey → Prop} {env' env : Environment}

/-! ## Sources -/

mutual
/-- The item of a JSON value has no functions in it. -/
theorem Item.like_ofJson : ∀ j : Json, Item.Like S (Item.ofJson j) (Item.ofJson j)
  | .null | .bool _ | .string _ => .atomic rfl
  | .integer n => by
    rw [Item.ofJson]
    unfold Item.ofInteger
    split <;> exact .atomic rfl
  | .double d => by
    rw [Item.ofJson]
    unfold Item.ofDouble
    split
    · split
      · exact .atomic rfl
      · split <;> exact .atomic rfl
    · exact .atomic rfl
  | .array members => by
    rw [Item.ofJson]
    exact .array (like_membersOfJson members)
  | .object pairs => by
    rw [Item.ofJson]
    exact .object (like_pairsOfJson pairs)

theorem Item.like_membersOfJson : ∀ js : List Json,
    List.Forall₂ (Item.Like S) (Item.membersOfJson js) (Item.membersOfJson js)
  | [] => by
    rw [Item.membersOfJson]
    exact .nil
  | j :: js => by
    rw [Item.membersOfJson]
    exact .cons (like_ofJson j) (like_membersOfJson js)

theorem Item.like_pairsOfJson : ∀ js : List (String × Json),
    List.Forall₂ (Keyed (Item.Like S)) (Item.pairsOfJson js) (Item.pairsOfJson js)
  | [] => by
    rw [Item.pairsOfJson]
    exact .nil
  | (key, j) :: js => by
    rw [Item.pairsOfJson]
    exact .cons (.mk key (like_ofJson j)) (like_pairsOfJson js)
end

theorem Carries.lineItems (line : String) :
    HybridQuery.Carries (Sequence.Like S) (Engine.lineItems line) (Engine.lineItems line) := by
  unfold Engine.lineItems
  split
  · exact .ok .nil
  · unfold Item.ofLine
    split
    · exact .ok (.cons (Item.like_ofJson _) .nil)
    · exact .error _

namespace Engine.Carries

variable (he : Environment.Spread S calls env' env)
include he

theorem sourceText (location : String) :
    Engine.Carries env' env (· = ·) (Engine.sourceText location) (Engine.sourceText location) := by
  refine (Carries.environment (R := fun e' e => e'.files = e.files) he.files).bind fun e' e hf => ?_
  dsimp only
  rw [hf]
  split
  · exact (Carries.consult _).bind fun _ _ _ => .pure rfl
  · exact .pure rfl

theorem textLines (location : String) (n' n : Nat) :
    Engine.Carries env' env (Collection.Like (· = ·)) (Engine.textLines location n')
      (Engine.textLines location n) := by
  have hlines : Engine.Carries env' env
      (fun d' d => ∀ c', d' = .ok c' → ∃ c, d = .ok c ∧ c'.records = c.records)
      (Engine.textLines? location n') (Engine.textLines? location n) := by
    refine (sourceText he location).bind ?_
    rintro d _ rfl
    cases d with
    | error fault => exact .pure nofun
    | ok text =>
      refine (Carries.log _ _ _).bind fun _ _ _ => .pure ?_
      rintro _ ⟨⟩
      exact ⟨_, rfl, by simp only [Collection.records_parallelize]⟩
  refine hlines.bind fun d' d hd => ?_
  cases d' with
  | error fault => exact .of_never .fail
  | ok c' =>
    obtain ⟨c, rfl, hc⟩ := hd c' rfl
    exact .pure (by rw [Collection.Like, hc, List.forall₂_eq_eq_eq])

theorem jsonLines (location : String) (n' n : Nat) :
    Engine.Carries env' env (Collection.Like (Item.Like S)) (Engine.jsonLines location n')
      (Engine.jsonLines location n) := by
  refine (textLines he location n' n).bind fun c' c hc => .ofResult ?_
  refine Carries.flatMapM_collection hc ?_
  rintro line _ rfl
  exact Carries.lineItems line

end Engine.Carries

/-! ## Arguments -/

namespace PlanEvaluator.Carries

variable {ev' ev : PlanEvaluator} (h : PlanEvaluator.Carries S env' env ev' ev) (b : Builtin)
  {as' as : List Plan} (ha : List.Forall₂ S as' as) {c' c : Context} (hc : Context.Like S c' c)

/-- Arguments at the same place. -/
theorem getElem?_like (ha : List.Forall₂ S as' as) (index : Nat) :
    Option.Rel S as'[index]? as[index]? := by
  induction ha generalizing index with
  | nil => exact .none
  | cons hp _ ih =>
    cases index with
    | zero => exact .some hp
    | succ index => exact ih index

include ha in
theorem builtinArgument (index : Nat) :
    Engine.Carries env' env S (builtinArgument b as' index) (builtinArgument b as index) := by
  unfold PlanEvaluator.builtinArgument
  have hi := getElem?_like ha index
  generalize as'[index]? = o', as[index]? = o at hi
  cases hi with
  | none => exact .of_never .fail
  | some hp => exact .pure hp

include h ha hc

theorem sourceLocation :
    Engine.Carries env' env (· = ·) (ev'.sourceLocation b as' c') (ev.sourceLocation b as c) := by
  refine (builtinArgument b ha 0).bind fun p' p hp => (h.optionalItem hc hp _).bind fun o' o ho => ?_
  cases ho with
  | none => exact .of_never .fail
  | some hi =>
    cases hi with
    | atomic =>
      split
      · next heq => cases heq; exact .pure rfl
      · exact .of_never .fail
      · next heq => cases heq
    | object | array | function => exact .of_never .fail

/-- The number of partitions is computed; nothing depends on it. -/
theorem sourcePartitions :
    Engine.Carries env' env (fun _ _ => True) (ev'.sourcePartitions as' c')
      (ev.sourcePartitions as c) := by
  refine (Engine.Carries.environment (R := fun _ _ => True) trivial).bind fun e' e _ => ?_
  have hi := getElem?_like ha 1
  generalize as'[1]? = o', as[1]? = o at hi
  cases hi with
  | none => exact .pure trivial
  | some hp =>
    refine (h.optionalItem hc hp _).bind fun o' o ho => ?_
    cases ho with
    | none => exact .pure trivial
    | some hi =>
      cases hi with
      | atomic =>
        split
        · next heq => cases heq
        · next n heq =>
          cases heq
          split
          · exact .pure trivial
          · exact .of_never .fail
        · exact .of_never .fail
      | object | array | function => exact .of_never .fail

theorem wholeInput :
    Engine.Carries env' env (Sequence.Like S) (ev'.wholeInput b as' c') (ev.wholeInput b as c) :=
  (builtinArgument b ha 0).bind fun _ _ hp => h.evaluate hp hc

theorem atomicInput :
    Engine.Carries env' env (Option.Rel (Item.Like S)) (ev'.atomicInput b as' c')
      (ev.atomicInput b as c) :=
  (builtinArgument b ha 0).bind fun _ _ hp => h.optionalItem hc hp _

/-! ## Sources -/

omit h ha hc in
theorem countRecords {d' d : Collection Item} (hd : d'.Like (Item.Like S) d) :
    Engine.Carries env' env (Collection.Like (Item.Like S)) (countRecords d') (countRecords d) :=
  (Engine.Carries.count _ _).bind fun _ _ _ => .pure hd

theorem sourceRows (he : Environment.Spread S calls env' env) (hb : b ≠ .structuredJsonFile) :
    Engine.Carries env' env (Collection.Like (Item.Like S)) (ev'.sourceRows b as' c')
      (ev.sourceRows b as c) := by
  have hlocation := h.sourceLocation b ha hc
  have hpartitions := h.sourcePartitions ha hc
  cases b
  case structuredJsonFile => exact absurd rfl hb
  case jsonFile =>
    refine hlocation.bind ?_
    rintro location _ rfl
    refine hpartitions.bind fun n' n _ => ?_
    exact (Engine.Carries.jsonLines he location n' n).bind fun _ _ => countRecords
  case textFile =>
    refine hlocation.bind ?_
    rintro location _ rfl
    refine hpartitions.bind fun n' n _ => ?_
    refine (Engine.Carries.textLines he location n' n).bind fun d' d hd => countRecords ?_
    rw [Collection.Like, List.forall₂_eq_eq_eq] at hd
    rw [Collection.Like, Collection.records_map, Collection.records_map, hd]
    exact List.forall₂_same.mpr fun i hi => by
      obtain ⟨line, -, rfl⟩ := List.mem_map.mp hi
      exact .atomic rfl
  case parallelize =>
    refine (h.wholeInput _ ha hc).bind fun s' s hs => hpartitions.bind fun n' n _ => .pure ?_
    rwa [Collection.Like, Collection.records_parallelize, Collection.records_parallelize]
  all_goals exact .of_never .fail

/-- The distributed form of a call, beside its items on the host. -/
theorem sourceDrawn (he : Environment.Spread S calls env' env) (hb : b ≠ .structuredJsonFile) :
    Engine.Carries env' env (fun c' l => Sequence.Like S c'.records l) (ev'.sourceRows b as' c')
      (ev.builtinItems b as c) := by
  have hrows := h.sourceRows b ha hc he hb
  have hitems : Engine.Carries env' env (fun c' l => Sequence.Like S c'.records l)
      (ev'.sourceRows b as' c') (ev.sourceItems b as c) := by
    cases ha with
    | nil =>
      cases b
      case structuredJsonFile => exact absurd rfl hb
      case jsonFile | textFile => exact .of_never (.bind (.bind .fail _) _)
      case parallelize => exact .of_never (.bind (.bind .fail _) _)
      all_goals exact .of_never .fail
    | @cons p' p as' as hp ha =>
      refine hrows.bind_right fun d' d hd r => ?_
      obtain ⟨s, hs⟩ := Engine.materialize_ok he.cap d p.position r
      exact ⟨_, s, hs, hd⟩
  cases b
  case jsonFile | textFile | structuredJsonFile | parallelize => exact hitems
  all_goals exact .of_never .fail

/-! ## Peeks and aggregates -/

theorem firstItem (he : Environment.Spread S calls env' env) :
    Engine.Carries env' env (Sequence.Like S) (ev'.firstItem b as' c') (ev.firstItem b as c) := by
  refine (builtinArgument b ha 0).bind fun p' p hp => ?_
  have hfirst := h.first hp hc
  have hdrawn := (h.drawnFirst hp hc).then_left (Q := Sequence.Like S)
    (g := fun d' => pure (d'.take 1)) fun _ _ hs => .pure hs
  rcases he.modes hp with hm | ⟨hm', hm⟩
  · simp only [hm, Mode.isParallel_host, Bool.false_eq_true, ↓reduceIte]
    split
    · exact hdrawn
    · exact hfirst
  · simp only [hm', hm, Mode.isParallel_rows, ↓reduceIte]
    exact (h.rows hp hm hc).bind fun d' d hd => .pure (List.forall₂_take 1 hd)

theorem isEmptyInput (he : Environment.Spread S calls env' env) :
    Engine.Carries env' env (· = ·) (ev'.isEmptyInput b as' c') (ev.isEmptyInput b as c) := by
  refine (builtinArgument b ha 0).bind fun p' p hp => ?_
  have hempty := h.isEmpty hp hc
  have hdrawn := (h.drawnEmpty hp hc).then_left (Q := (· = ·))
    (g := fun d' => pure (d'.take 1).isEmpty) fun _ _ hs => .pure hs
  rcases he.modes hp with hm | ⟨hm', hm⟩
  · simp only [hm, Mode.isParallel_host, Bool.false_eq_true, ↓reduceIte]
    split
    · exact hdrawn
    · exact hempty
  · simp only [hm', hm, Mode.isParallel_rows, ↓reduceIte]
    refine (h.rows hp hm hc).bind fun d' d hd => .pure ?_
    have := List.forall₂_take 1 hd
    simp only [Collection.take]
    generalize d'.records.take 1 = l', d.records.take 1 = l at this
    cases this <;> rfl

theorem inputCount (he : Environment.Spread S calls env' env) :
    Engine.Carries env' env (· = ·) (ev'.inputCount b as' c') (ev.inputCount b as c) := by
  refine (builtinArgument b ha 0).bind fun p' p hp => ?_
  rcases he.modes hp with hm | ⟨hm', hm⟩
  · rw [hm]
    dsimp only
    split
    · exact .of_never ((h.frame hp hc).bind _)
    · exact (h.drawn hp hc).bind fun d' s hd => .pure (by rw [d'.count_eq, hd.length_eq])
    · exact (h.evaluate hp hc).bind fun s' s hs => .pure hs.length_eq
  · rw [hm', hm]
    exact (h.rows hp hm hc).bind fun d' d hd =>
      .pure (by rw [d'.count_eq, d.count_eq, hd.length_eq])

/-! ## Constructors and components -/

theorem construct (type : ItemType) :
    Engine.Carries env' env (Sequence.Like S) (ev'.construct b as' c' type)
      (ev.construct b as c type) := by
  refine (h.atomicInput b ha hc).bind fun o' o ho => ?_
  cases ho with
  | none => exact .pure .nil
  | some hi =>
    cases hi with
    | atomic hatomic =>
      split
      · next heq => cases heq
      · next text heq =>
        cases heq
        refine (Engine.Carries.ofResult (R := Item.Like S) ?_).bind fun _ _ hi => .pure (.cons hi .nil)
        refine HybridQuery.Carries.mapError (R := Item.Like S) ?_ _ _
        exact fun j hj => ⟨j, hj, .atomic (Catalogue.isAtomic_of_cast hj)⟩
      · next heq =>
        cases heq
        split
        · exact .pure (.cons (.atomic hatomic) .nil)
        · exact .of_never .fail
    | object hp =>
      change Engine.Carries _ _ _ (if "object" = type.name then _ else _)
        (if "object" = type.name then _ else _)
      split
      · exact .pure (.cons (.object hp) .nil)
      · exact .of_never .fail
    | array hm =>
      change Engine.Carries _ _ _ (if "array" = type.name then _ else _)
        (if "array" = type.name then _ else _)
      split
      · exact .pure (.cons (.array hm) .nil)
      · exact .of_never .fail
    | function handle name parameters signature hbody hclosure =>
      change Engine.Carries _ _ _ (if "function" = type.name then _ else _)
        (if "function" = type.name then _ else _)
      split
      · exact .pure (.cons (.function handle name parameters signature hbody hclosure) .nil)
      · exact .of_never .fail

/-- A component of a point in time, if it is read alike and is made of atomics. -/
theorem component {read : Item → EngineResult Sequence}
    (hread : ∀ i' i, Item.Like S i' i → HybridQuery.Carries (Sequence.Like S) (read i') (read i)) :
    Engine.Carries env' env (Sequence.Like S) (ev'.component b as' c' read)
      (ev.component b as c read) := by
  refine (h.atomicInput b ha hc).bind fun o' o ho => ?_
  cases ho with
  | none => exact .pure .nil
  | some hi => exact .ofResult (hread _ _ hi)

omit h ha hc in
theorem yearOf (i' i : Item) (hi : Item.Like S i' i) :
    HybridQuery.Carries (Sequence.Like S) (PlanEvaluator.yearOf b i') (PlanEvaluator.yearOf b i) := by
  cases hi with
  | atomic =>
    unfold PlanEvaluator.yearOf
    split
    · exact .ok (.cons (.atomic rfl) .nil)
    · exact .error _
  | object | array | function => exact .error _

omit h ha hc in
theorem timezoneOf (i' i : Item) (hi : Item.Like S i' i) :
    HybridQuery.Carries (Sequence.Like S) (PlanEvaluator.timezoneOf b i')
      (PlanEvaluator.timezoneOf b i) := by
  cases hi with
  | atomic =>
    unfold PlanEvaluator.timezoneOf
    split
    · next t _ =>
      cases t.offset with
      | none => exact .ok .nil
      | some offset => exact .ok (.cons (.atomic rfl) .nil)
    · exact .error _
  | object | array | function => exact .error _

theorem arraySize :
    Engine.Carries env' env (Sequence.Like S) (ev'.arraySize b as' c') (ev.arraySize b as c) := by
  refine (builtinArgument b ha 0).bind fun p' p hp => (h.optionalItem hc hp _).bind fun o' o ho => ?_
  cases ho with
  | none => exact .pure .nil
  | some hi =>
    cases hi with
    | atomic =>
      split
      · next heq => cases heq
      · next heq => cases heq; exact .pure (.cons (.atomic rfl) .nil)
      · exact .of_never .fail
    | array hm =>
      dsimp only
      rw [hm.length_eq]
      exact .pure (.cons (.atomic rfl) .nil)
    | object | function => exact .of_never .fail

/-! ## Calls -/

theorem builtinItems (he : Environment.Spread S calls env' env) (hb : b ≠ .structuredJsonFile) :
    Engine.Carries env' env (Sequence.Like S) (ev'.builtinItems b as' c')
      (ev.builtinItems b as c) := by
  have hsource : Engine.Carries env' env (Sequence.Like S) (ev'.sourceItems b as' c')
      (ev.sourceItems b as c) :=
    (h.sourceRows b ha hc he hb).bind fun d' d hd =>
      (builtinArgument b ha 0).bind fun _ _ _ => .materialize he hd _ _
  have hone {i' i : Item} (hi : Item.Like S i' i) :
      Engine.Carries env' env (Sequence.Like S) (pure [i']) (pure [i]) := .pure (.cons hi .nil)
  cases b
  case structuredJsonFile => exact absurd rfl hb
  case jsonFile | textFile | parallelize => exact hsource
  case count =>
    exact (h.inputCount _ ha hc he).bind fun n' n hn => hn ▸ hone (.atomic rfl)
  case empty =>
    exact (h.isEmptyInput _ ha hc he).bind fun n' n hn => hn ▸ hone (.atomic rfl)
  case nonEmpty =>
    exact (h.isEmptyInput _ ha hc he).bind fun n' n hn => hn ▸ hone (.atomic rfl)
  case sum =>
    refine (h.wholeInput _ ha hc).bind fun s' s hs => ?_
    refine (Engine.Carries.ofResult (R := Item.Like S) ?_).bind fun _ _ hi => hone hi
    exact Sequence.Like.sum hs
  case keys =>
    refine (h.wholeInput _ ha hc).bind fun s' s hs => .pure ?_
    rw [Sequence.Like.allKeys_eq hs]
    exact List.forall₂_same.mpr fun i hi => by
      obtain ⟨line, -, rfl⟩ := List.mem_map.mp hi
      exact .atomic rfl
  case size => exact h.arraySize _ ha hc
  case head => exact h.firstItem _ ha hc he
  case intersect =>
    exact (h.wholeInput _ ha hc).bind fun s' s hs => hone (Sequence.Like.intersection hs)
  case yearFromDateTime => exact h.component _ ha hc (yearOf _)
  case timezoneFromTime => exact h.component _ ha hc (timezoneOf _)
  all_goals exact h.construct _ ha hc _

end PlanEvaluator.Carries
end HybridQuery
