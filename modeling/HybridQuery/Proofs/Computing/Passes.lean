import HybridQuery.Proofs.Computing.Places
import HybridQuery.Proofs.Repeating.Modules

/-!
# What a pass computes

A pass that comes to an end has computed places that are all different. Those of its own part are told apart
by where they are. Those in bodies of declared functions belong to functions that had not been analysed before
and are not being analysed, and that have been analysed when the pass goes on, so that no later part computes
them again.

* `Computes`: what is known of a pass that came to an end; `Computes.seq`, `Computes.node`: two parts one
  after the other, and a node above its parts.
* `Pass.Computes`: the judgement on passes, which also holds them against passes that find the modes of calls
  otherwise.
* `Expression.computes` and its like: one lemma for every pass over a part.
-/

namespace HybridQuery

/-! ## Places -/

theorem nodeBelow?_append_left {l k : List NodeRef} {index : Nat} (h : index < l.length) (below : List Nat) :
    nodeBelow? (l ++ k) index below = nodeBelow? l index below := by
  cases below <;> simp only [nodeBelow?, List.getElem?_append_left h]

theorem nodeBelow?_append_right (l k : List NodeRef) (index : Nat) (below : List Nat) :
    nodeBelow? (l ++ k) (index + l.length) below = nodeBelow? k index below := by
  cases below <;> simp [nodeBelow?, List.getElem?_append_right]

theorem lt_of_nodeBelow? {l : List NodeRef} {index : Nat} {below : List Nat} {n : NodeRef}
    (h : nodeBelow? l index below = some n) : index < l.length := by
  by_contra hle
  have : l[index]? = none := List.getElem?_eq_none_iff.mpr (Nat.le_of_not_lt hle)
  cases below <;> simp [nodeBelow?, this] at h

namespace Place

theorem shift_zero : shift 0 = id := by
  funext p
  cases p <;> rfl

theorem shift_injective (n : Nat) : Function.Injective (shift n) := by
  rintro (_ | _) (_ | _) h <;> simp_all [shift]

/-- A place is one of the first `n`, or stands after them. -/
theorem lt_or_shift (n : Nat) (p : Place) :
    (∃ index below, p = own index below ∧ index < n) ∨ ∃ q : Place, p = q.shift n := by
  cases p with
  | own index below =>
    by_cases h : index < n
    · exact .inl ⟨index, below, rfl, h⟩
    · exact .inr ⟨own (index - n) below, by rw [shift, Nat.sub_add_cancel (Nat.le_of_not_lt h)]⟩
  | called key index below => exact .inr ⟨called key index below, rfl⟩

theorem shift_eq_called {n : Nat} {p : Place} {key : FunctionKey} {index : Nat} {below : List Nat} :
    p.shift n = called key index below ↔ p = called key index below := by
  cases p <;> simp [shift]

theorem lower_injective : Function.Injective lower := by
  rintro (_ | _) (_ | _) h <;> simp_all [lower]

theorem lower_eq_called {p : Place} {key : FunctionKey} {index : Nat} {below : List Nat} :
    p.lower = called key index below ↔ p = called key index below := by
  cases p <;> simp [lower]

end Place

/-- A node whose mode is yet to be computed. A clause is computed with the pipeline it belongs to. -/
def NodeRef.Pending : NodeRef → Prop
  | expression e => e.slot.isComputed = false
  | clause _ => True

namespace Declarations

/-- The function has been analysed. -/
def IsAnalysed (D : Declarations) (key : FunctionKey) : Prop :=
  ∃ d, D.find? (·.key == key) = some d ∧ d.body.slot.isComputed = true

/-- The function is declared and has not been analysed. -/
def IsPending (D : Declarations) (key : FunctionKey) : Prop :=
  ∃ d, D.find? (·.key == key) = some d ∧ d.body.slot.isComputed = false

theorem IsPending.not_isAnalysed {D : Declarations} {key : FunctionKey} (h : D.IsPending key) :
    ¬ D.IsAnalysed key := by
  obtain ⟨d, hd, hpending⟩ := h
  rintro ⟨d', hd', hcomputed⟩
  rw [hd] at hd'
  cases hd'
  rw [hpending] at hcomputed
  cases hcomputed

theorem Later.isAnalysed {D E : Declarations} (h : Later D E) {key : FunctionKey} (hkey : D.IsAnalysed key) :
    E.IsAnalysed key := by
  obtain ⟨d, hd, hcomputed⟩ := hkey
  exact ⟨d, h.computed key d hd hcomputed, hcomputed⟩

end Declarations

/-! ## Outcomes -/

section
variable {τ υ β γ : Type} [HasNodes τ] [HasNodes υ]

/-- A pass over `t₀` from `D`, while the functions `busy` are being analysed, came to `t` and `E`, with or
without success, and computed the places `log`. What is written is in the log; after a success, all of the log
is written, and the functions that have not been analysed are as they were. -/
structure Computes (busy : List FunctionKey) (t₀ : τ) (D : Declarations) (t : τ) (ok : Bool)
    (E : Declarations) (log : List Place) : Prop where
  later : D.Later E
  size : (nodes t).length = (nodes t₀).length
  nodup : log.Nodup
  pending : ∀ p ∈ log, ∃ n, nodeAt? t₀ D p = some n ∧ n.Pending
  called : ∀ key index below, Place.called key index below ∈ log → key ∉ busy ∧ D.IsPending key
  written : ∀ p n, nodeAt? t E p = some n → n.slot.isComputed = true →
    (∃ n₀, nodeAt? t₀ D p = some n₀ ∧ n₀.slot.isComputed = true) ∨ p ∈ log
  computed : ok = true → ∀ p ∈ log, ∃ n, nodeAt? t E p = some n ∧ n.slot.isComputed = true
  finished : ok = true → ∀ key index below, Place.called key index below ∈ log → E.IsAnalysed key
  kept : ok = true → ∀ key d, E.find? (·.key == key) = some d → d.body.slot.isComputed = false →
    D.find? (·.key == key) = some d

namespace Computes

variable {busy : List FunctionKey} {t₀ t : τ} {u₀ u : υ} {D E F : Declarations} {ok : Bool} {log : List Place}

/-- A pass that computes nothing. -/
theorem refl (busy : List FunctionKey) (t₀ : τ) (D : Declarations) (ok : Bool) :
    Computes busy t₀ D t₀ ok D [] where
  later := .refl D
  size := rfl
  nodup := .nil
  pending := nofun
  called := nofun
  written := fun _ n hn hc => .inl ⟨n, hn, hc⟩
  computed := nofun
  finished := nofun
  kept := fun _ _ _ hd _ => hd

theorem nodeAt?_congr {t : τ} {u : υ} (h : nodes u = nodes t) (D : Declarations) (p : Place) :
    nodeAt? u D p = nodeAt? t D p := by
  cases p with
  | own index below => rw [nodeAt?, nodeAt?, h]
  | called key index below => rfl

/-- Parts with the same nodes. -/
theorem congr (h : Computes busy t₀ D t ok E log) (h₀ : nodes u₀ = nodes t₀) (h₁ : nodes u = nodes t) :
    Computes busy u₀ D u ok E log where
  later := h.later
  size := by rw [h₀, h₁, h.size]
  nodup := h.nodup
  pending := fun p hp => by
    rw [nodeAt?_congr h₀]
    exact h.pending p hp
  called := h.called
  written := fun p n hn hc => by
    rw [nodeAt?_congr h₀]
    rw [nodeAt?_congr h₁] at hn
    exact h.written p n hn hc
  computed := fun hok p hp => by
    rw [nodeAt?_congr h₁]
    exact h.computed hok p hp
  finished := h.finished
  kept := h.kept

theorem nodeAt?_pair_left {index : Nat} {below : List Nat} (h : index < (nodes t).length) (u : υ)
    (D : Declarations) : nodeAt? (t, u) D (.own index below) = nodeAt? t D (.own index below) :=
  nodeBelow?_append_left h below

/-- A node of a first part of two. -/
theorem nodeAt?_pair {p : Place} {n : NodeRef} (h : nodeAt? t D p = some n) (u : υ) :
    nodeAt? (t, u) D p = some n := by
  cases p with
  | own index below => rwa [nodeAt?_pair_left (lt_of_nodeBelow? h)]
  | called key index below => exact h

theorem nodeAt?_shift {n : Nat} (h : (nodes t).length = n) (u : υ) (D : Declarations) (p : Place) :
    nodeAt? (t, u) D (p.shift n) = nodeAt? u D p := by
  subst h
  cases p with
  | own index below => exact nodeBelow?_append_right _ _ _ _
  | called key index below => rfl

/-- A first part of two, when the pass does not go on. -/
theorem first (h : Computes busy t₀ D t ok E log) (u₀ : υ) : Computes busy (t₀, u₀) D (t, u₀) ok E log where
  later := h.later
  size := by
    change (nodes t ++ nodes u₀).length = (nodes t₀ ++ nodes u₀).length
    rw [List.length_append, List.length_append, h.size]
  nodup := h.nodup
  pending := fun p hp => by
    obtain ⟨n, hn, hpending⟩ := h.pending p hp
    exact ⟨n, nodeAt?_pair hn u₀, hpending⟩
  called := h.called
  written := fun p n hn hc => by
    obtain ⟨index, below, rfl, hlt⟩ | ⟨q, rfl⟩ := p.lt_or_shift (nodes t₀).length
    · rw [nodeAt?_pair_left (h.size ▸ hlt)] at hn
      rw [nodeAt?_pair_left hlt]
      exact h.written _ n hn hc
    · rw [nodeAt?_shift h.size] at hn
      rw [nodeAt?_shift rfl]
      cases q with
      | own index below => exact .inl ⟨n, hn, hc⟩
      | called key index below => exact h.written (.called key index below) n hn hc
  computed := fun hok p hp => by
    obtain ⟨n, hn, hc⟩ := h.computed hok p hp
    exact ⟨n, nodeAt?_pair hn u₀, hc⟩
  finished := h.finished
  kept := h.kept

/-- Two parts, one after the other. -/
theorem seq (h : Computes busy t₀ D t true E log) {log' : List Place} (h' : Computes busy u₀ E u ok F log') :
    Computes busy (t₀, u₀) D (t, u) ok F (log ++ log'.map (Place.shift (nodes t₀).length)) where
  later := h.later.trans h'.later
  size := by
    change (nodes t ++ nodes u).length = (nodes t₀ ++ nodes u₀).length
    rw [List.length_append, List.length_append, h.size, h'.size]
  nodup := by
    refine List.nodup_append'.mpr ⟨h.nodup, h'.nodup.map (Place.shift_injective _), ?_⟩
    intro p hp hp'
    obtain ⟨q, hq, rfl⟩ := List.mem_map.mp hp'
    cases q with
    | own index below =>
      obtain ⟨n, hn, -⟩ := h.pending _ hp
      exact absurd (lt_of_nodeBelow? hn) (by simp)
    | called key index below =>
      exact (h'.called key index below hq).2.not_isAnalysed (h.finished rfl key index below hp)
  pending := fun p hp => by
    rcases List.mem_append.mp hp with hp | hp
    · exact (h.first u₀).pending p hp
    · obtain ⟨q, hq, rfl⟩ := List.mem_map.mp hp
      rw [nodeAt?_shift rfl]
      obtain ⟨n, hn, hpending⟩ := h'.pending q hq
      refine ⟨n, ?_, hpending⟩
      cases q with
      | own index below => exact hn
      | called key index below =>
        obtain ⟨d, hd, hd'⟩ := (h'.called key index below hq).2
        rw [nodeAt?, hd] at hn
        rw [nodeAt?, h.kept rfl key d hd hd']
        exact hn
  called := fun key index below hp => by
    rcases List.mem_append.mp hp with hp | hp
    · exact h.called key index below hp
    · obtain ⟨q, hq, hqp⟩ := List.mem_map.mp hp
      obtain ⟨hbusy, d, hd, hpending⟩ := h'.called key index below (Place.shift_eq_called.mp hqp ▸ hq)
      exact ⟨hbusy, d, h.kept rfl key d hd hpending, hpending⟩
  written := fun p n hn hc => by
    obtain ⟨index, below, rfl, hlt⟩ | ⟨q, rfl⟩ := p.lt_or_shift (nodes t₀).length
    · rw [nodeAt?_pair_left (h.size ▸ hlt)] at hn
      rw [nodeAt?_pair_left hlt]
      exact (h.written (.own index below) n hn hc).imp_right (List.mem_append_left _)
    · rw [nodeAt?_shift h.size] at hn
      rw [nodeAt?_shift rfl]
      rcases h'.written q n hn hc with ⟨n', hn', hc'⟩ | hq
      · cases q with
        | own index below => exact .inl ⟨n', hn', hc'⟩
        | called key index below =>
          exact (h.written (.called key index below) n' hn' hc').imp_right (List.mem_append_left _)
      · exact .inr (List.mem_append_right _ (List.mem_map_of_mem hq))
  computed := fun hok p hp => by
    rcases List.mem_append.mp hp with hp | hp
    · obtain ⟨n, hn, hc⟩ := h.computed rfl p hp
      refine ⟨n, nodeAt?_pair ?_ u, hc⟩
      cases p with
      | own index below => exact hn
      | called key index below =>
        obtain ⟨d, hd, hd'⟩ := h.finished rfl key index below hp
        rw [nodeAt?, hd] at hn
        rw [nodeAt?, h'.later.computed key d hd hd']
        exact hn
    · obtain ⟨q, hq, rfl⟩ := List.mem_map.mp hp
      rw [nodeAt?_shift h.size]
      exact h'.computed hok q hq
  finished := fun hok key index below hp => by
    rcases List.mem_append.mp hp with hp | hp
    · exact h'.later.isAnalysed (h.finished rfl key index below hp)
    · obtain ⟨q, hq, hqp⟩ := List.mem_map.mp hp
      exact h'.finished hok key index below (Place.shift_eq_called.mp hqp ▸ hq)
  kept := fun hok key d hd hpending => h.kept rfl key d (h'.kept hok key d hd hpending) hpending

theorem nodeAt?_lower {n : NodeRef} (h : nodes t = [n]) (hchildren : nodes u = n.children) (D : Declarations)
    (p : Place) : nodeAt? t D p.lower = nodeAt? u D p := by
  cases p with
  | own index below =>
    change nodeBelow? (nodes t) 0 (index :: below) = nodeBelow? (nodes u) index below
    rw [h, hchildren]
    rfl
  | called key index below => rfl

/-- A node whose mode was yet to be computed, once its parts are passed over. -/
theorem node (h : Computes busy u₀ D u ok E log) (n₀ n : NodeRef) (h₀ : nodes t₀ = [n₀])
    (h₁ : nodes t = [n]) (hchildren₀ : nodes u₀ = n₀.children) (hchildren : nodes u = n.children)
    (hpending : n₀.Pending) (hmode : ok = true → n.slot.isComputed = true) :
    Computes busy t₀ D t ok E (.own 0 [] :: log.map Place.lower) where
  later := h.later
  size := by
    rw [h₀, h₁]
    rfl
  nodup := by
    refine List.nodup_cons.mpr ⟨fun hmem => ?_, h.nodup.map Place.lower_injective⟩
    obtain ⟨p, -, hp⟩ := List.mem_map.mp hmem
    cases p <;> simp [Place.lower] at hp
  pending := List.forall_mem_cons.mpr ⟨⟨n₀, by simp [nodeAt?, nodeBelow?, h₀], hpending⟩,
    List.forall_mem_map.mpr fun p hp => by
      rw [nodeAt?_lower h₀ hchildren₀]
      exact h.pending p hp⟩
  called := fun key index below hp => by
    obtain ⟨p, hp, hcalled⟩ := List.mem_map.mp (List.mem_of_ne_of_mem (by simp) hp)
    exact h.called key index below (Place.lower_eq_called.mp hcalled ▸ hp)
  written := fun p m hm hc => by
    have hlower (p : Place) (hm : nodeAt? t E p.lower = some m) :
        (∃ m₀, nodeAt? t₀ D p.lower = some m₀ ∧ m₀.slot.isComputed = true) ∨
          p.lower ∈ Place.own 0 [] :: log.map Place.lower := by
      rw [nodeAt?_lower h₁ hchildren] at hm
      rw [nodeAt?_lower h₀ hchildren₀]
      exact (h.written p m hm hc).imp_right fun hp => List.mem_cons_of_mem _ (List.mem_map_of_mem hp)
    cases p with
    | own index below =>
      have hindex := lt_of_nodeBelow? hm
      rw [h₁, List.length_singleton, Nat.lt_one_iff] at hindex
      subst hindex
      cases below with
      | nil => exact .inr List.mem_cons_self
      | cons next below => exact hlower (.own next below) hm
    | called key index below => exact hlower (.called key index below) hm
  computed := fun hok => List.forall_mem_cons.mpr ⟨⟨n, by simp [nodeAt?, nodeBelow?, h₁], hmode hok⟩,
    List.forall_mem_map.mpr fun p hp => by
      rw [nodeAt?_lower h₁ hchildren]
      exact h.computed hok p hp⟩
  finished := fun hok key index below hp => by
    obtain ⟨p, hp, hcalled⟩ := List.mem_map.mp (List.mem_of_ne_of_mem (by simp) hp)
    exact h.finished hok key index below (Place.lower_eq_called.mp hcalled ▸ hp)
  kept := h.kept

end Computes
end

instance : HasNodes Unit := ⟨fun _ => []⟩

/-- A part without nodes computes only places in the bodies of functions. -/
theorem Computes.map_shift {busy : List FunctionKey} {D E : Declarations} {ok : Bool} {log : List Place}
    (h : Computes busy () D () ok E log) (n : Nat) : log.map (Place.shift n) = log := by
  refine (List.map_congr_left fun p hp => ?_).trans log.map_id
  cases p with
  | own index below =>
    obtain ⟨_, hn, -⟩ := h.pending _ hp
    exact absurd (lt_of_nodeBelow? hn) (Nat.not_lt_zero _)
  | called key index below => rfl

/-! ## The judgement -/

theorem EngineResult.isOk_map {β γ : Type} (r : EngineResult β) (f : β → γ) :
    Except.isOk (r.map f) = Except.isOk r := by
  cases r <;> rfl

section
variable {τ υ β γ : Type} [HasNodes τ] [HasNodes υ]

/-- From all declarations with the keys `K`, the pass `x` over `t₀` does as the pass `cut` does, and computes
the places that are recorded. -/
structure Pass.Computes (K busy : List FunctionKey) (t₀ : τ) (x cut : Pass (Analysed τ β))
    (c : Computations) : Prop where
  run : ∀ D : Declarations, D.map (·.key) = K → cut.run D = x.run D ∧
    HybridQuery.Computes busy t₀ D (x.run D).1.1 (x.run D).1.2.isOk (x.run D).2 (c D)

namespace Pass.Computes

variable {K busy : List FunctionKey} {t₀ : τ} {u₀ : υ} {x cut : Pass (Analysed τ β)} {c : Computations}

theorem done (t₀ : τ) (r : EngineResult β) :
    Pass.Computes K busy t₀ (Pass.done t₀ r) (Pass.done t₀ r) .none where
  run D _ := ⟨rfl, .refl busy t₀ D _⟩

/-- A tree that has the nodes of the part that is passed over. -/
theorem wrap (h : Pass.Computes K busy t₀ x cut c) (h₀ : nodes u₀ = nodes t₀) {tree : τ → υ}
    (htree : ∀ t, nodes (tree t) = nodes t) {value : β → γ} :
    Pass.Computes K busy u₀ (Pass.wrap x tree value) (Pass.wrap cut tree value) c where
  run D hD := by
    obtain ⟨hsame, hc⟩ := h.run D hD
    rw [run_wrap, run_wrap, hsame]
    refine ⟨rfl, ?_⟩
    dsimp only
    rw [EngineResult.isOk_map]
    exact hc.congr h₀ (htree _)

/-- Two parts, one after the other. -/
theorem andThen (h : Pass.Computes K busy t₀ x cut c) {y cutNext : β → Pass (Analysed υ γ)}
    {next : β → Computations} (hy : ∀ b, Pass.Computes K busy u₀ (y b) (cutNext b) (next b)) :
    Pass.Computes K busy (t₀, u₀) (Pass.andThen x u₀ y) (Pass.andThen cut u₀ cutNext)
      (.andThen t₀ x c next) where
  run D hD := by
    obtain ⟨hsame, hc⟩ := h.run D hD
    rw [run_andThen, run_andThen, hsame, Computations.andThen]
    rcases hx : x.run D with ⟨⟨t, e | b⟩, E⟩
    all_goals
      rw [hx] at hc
      dsimp only at hc ⊢
    · rw [List.append_nil]
      exact ⟨rfl, hc.first u₀⟩
    · obtain ⟨hsame', hc'⟩ := (hy b).run E (hc.later.keys.trans hD)
      rw [hsame']
      exact ⟨rfl, hc.seq hc'⟩

end Pass.Computes
end

/-- The same of a way of finding the modes of calls. -/
def CalleeMode.Computes (K busy : List FunctionKey) (callee cut : CalleeMode) (shown : CalleeComputations) :
    Prop :=
  ∀ (key : FunctionKey) (D : Declarations), D.map (·.key) = K → (cut key).run D = (callee key).run D ∧
    HybridQuery.Computes busy () D () ((callee key).run D).1.isOk ((callee key).run D).2 (shown key D)

/-! ## Nodes -/

section
variable {K busy : List FunctionKey} {callee cut : CalleeMode} {shown : CalleeComputations}
  {scopes : List Scope}

/-- An expression, once its parts are passed over. -/
theorem ExpressionKind.computes_expression {kind : ExpressionKind} (position : SourcePosition)
    (slot : ModeSlot)
    (h : Pass.Computes K busy kind (kind.analyse callee scopes) (kind.analyse cut scopes)
      (kind.computations callee shown scopes)) :
    Pass.Computes K busy (Expression.mk kind position slot)
      ((Expression.mk kind position slot).analyse callee scopes)
      ((Expression.mk kind position slot).analyse cut scopes)
      ((Expression.mk kind position slot).computations callee shown scopes) := by
  by_cases hslot : slot = .empty
  · subst hslot
    constructor
    intro D hD
    obtain ⟨hsame, hc⟩ := h.run D hD
    rw [Expression.analyse_run, Expression.analyse_run, hsame]
    refine ⟨rfl, ?_⟩
    rcases hx : (kind.analyse callee scopes).run D with ⟨⟨kind', e | mode⟩, E⟩
    · rw [hx] at hc
      have hnode :
          Computes busy (Expression.mk kind position .empty) D (.mk kind' position .empty) false E _ :=
        hc.node (.expression (.mk kind position .empty)) (.expression (.mk kind' position .empty))
          rfl rfl rfl rfl rfl nofun
      exact hnode
    · rw [hx] at hc
      exact hc.node (.expression (.mk kind position .empty)) (.expression (.mk kind' position _))
        rfl rfl rfl rfl rfl fun _ => rfl
  -- An expression that has a mode is not passed over again.
  · obtain ⟨_ | mode⟩ := slot
    · exact absurd rfl hslot
    · exact .done _ _

/-- A clause, once its parts are passed over. -/
theorem ClauseKind.computes_clause {kind : ClauseKind} (position : SourcePosition) (slot : ModeSlot)
    {isFirst : Bool} {scope : ClauseScope}
    (h : Pass.Computes K busy kind (kind.analyse callee isFirst scope position)
      (kind.analyse cut isFirst scope position) (kind.computations callee shown scope)) :
    Pass.Computes K busy (Clause.mk kind position slot)
      ((Clause.mk kind position slot).analyse callee isFirst scope)
      ((Clause.mk kind position slot).analyse cut isFirst scope)
      (.node (kind.computations callee shown scope)) where
  run D hD := by
    obtain ⟨hsame, hc⟩ := h.run D hD
    rw [Clause.analyse_run, Clause.analyse_run, hsame]
    refine ⟨rfl, ?_⟩
    rcases hx : (kind.analyse callee isFirst scope position).run D with ⟨⟨kind', e | after⟩, E⟩
    · rw [hx] at hc
      exact hc.node (.clause (.mk kind position slot)) (.clause (.mk kind' position _))
        rfl rfl rfl rfl trivial nofun
    · rw [hx] at hc
      exact hc.node (.clause (.mk kind position slot)) (.clause (.mk kind' position _))
        rfl rfl rfl rfl trivial fun _ => rfl

/-- A reference to a function computes nothing, and its function is not called yet. -/
theorem functionRef_computes (name : String) (arity : Nat) :
    Pass.Computes K busy (ExpressionKind.functionRef name arity)
      ((ExpressionKind.functionRef name arity).analyse callee scopes)
      ((ExpressionKind.functionRef name arity).analyse cut scopes) .none where
  run D _ := ⟨rfl, .refl busy _ D _⟩

theorem callMode_computes (h : callee.Computes K busy cut shown) (name : String)
    (given : List (Option Expression)) {D : Declarations} (hD : D.map (·.key) = K) :
    (callMode cut name given.length (given.any Option.isNone) (D.any (·.key == (name, given.length)))).run D =
      (callMode callee name given.length (given.any Option.isNone)
        (D.any (·.key == (name, given.length)))).run D ∧
    Computes busy () D ()
      ((callMode callee name given.length (given.any Option.isNone)
        (D.any (·.key == (name, given.length)))).run D).1.isOk
      ((callMode callee name given.length (given.any Option.isNone)
        (D.any (·.key == (name, given.length)))).run D).2
      (callComputations shown name given D) := by
  rw [callComputations]
  generalize D.any (·.key == (name, given.length)) = declared
  unfold callMode
  cases Builtin.find? name given.length with
  | some builtin => exact ⟨rfl, .refl busy () D _⟩
  | none =>
    cases declared with
    | false => exact ⟨rfl, .refl busy () D _⟩
    | true =>
      cases given.any Option.isNone with
      | true => exact ⟨rfl, .refl busy () D _⟩
      | false => exact h (name, given.length) D hD

theorem functionCall_computes (h : callee.Computes K busy cut shown) (name : String)
    {given : List (Option Expression)}
    (hgiven : Pass.Computes K busy given (analyseArguments callee scopes given)
      (analyseArguments cut scopes given) (argumentComputations callee shown scopes given)) :
    Pass.Computes K busy (ExpressionKind.functionCall name given)
      ((ExpressionKind.functionCall name given).analyse callee scopes)
      ((ExpressionKind.functionCall name given).analyse cut scopes)
      ((ExpressionKind.functionCall name given).computations callee shown scopes) where
  run D hD := by
    obtain ⟨hsame, hc⟩ := hgiven.run D hD
    rw [ExpressionKind.functionCall_run, ExpressionKind.functionCall_run, hsame, ExpressionKind.computations]
    rcases hx : (analyseArguments callee scopes given).run D with ⟨⟨given', e | _⟩, E⟩
    all_goals
      rw [hx] at hc
      simp only [hx]
    · rw [List.append_nil]
      exact ⟨trivial, hc.congr rfl rfl⟩
    · obtain ⟨hcall, hc'⟩ := callMode_computes h name given' (hc.later.keys.trans hD)
      rw [hcall]
      refine ⟨rfl, ?_⟩
      have hboth := hc.seq hc'
      rw [hc'.map_shift] at hboth
      exact hboth.congr (List.append_nil _).symm (List.append_nil _).symm

end

/-! ## Expressions and clauses -/

section
variable {K busy : List FunctionKey} {callee cut : CalleeMode} {shown : CalleeComputations}

mutual
/-- Every node that the pass over an expression reaches is computed once, if that is so of calls. -/
theorem Expression.computes (h : callee.Computes K busy cut shown) : ∀ (e : Expression) (scopes : List Scope),
    Pass.Computes K busy e (e.analyse callee scopes) (e.analyse cut scopes)
      (e.computations callee shown scopes)
  | .mk kind position slot, scopes => kind.computes_expression position slot (kind.computes h scopes)

theorem ExpressionKind.computes (h : callee.Computes K busy cut shown) :
    ∀ (kind : ExpressionKind) (scopes : List Scope),
    Pass.Computes K busy kind (kind.analyse callee scopes) (kind.analyse cut scopes)
      (kind.computations callee shown scopes)
  | .literal _, _ | .contextItem, _ | .varRef _, _ | .array none, _ => .done _ _
  | .functionRef name arity, _ => functionRef_computes name arity
  | .sequence members, scopes => by
    simp only [ExpressionKind.analyse, ExpressionKind.computations]
    exact .wrap (members_compute h members scopes) (by rfl) fun _ => by rfl
  | .arithmetic _ left right, scopes | .comparison _ left right, scopes | .logical _ left right, scopes
  | .range left right, scopes => by
    simp only [ExpressionKind.analyse, ExpressionKind.computations]
    exact .wrap (.andThen (left.computes h scopes) fun _ => right.computes h scopes) (by rfl) fun _ => by rfl
  | .not operand, scopes | .arrayUnbox operand, scopes | .array (some operand), scopes => by
    simp only [ExpressionKind.analyse, ExpressionKind.computations]
    exact .wrap (operand.computes h scopes) (by rfl) fun _ => by rfl
  | .conditional condition yes no, scopes => by
    simp only [ExpressionKind.analyse, ExpressionKind.computations]
    exact .wrap (.andThen (condition.computes h scopes) fun _ => .andThen (yes.computes h scopes)
      fun _ => no.computes h scopes) (by rfl) fun _ => by rfl
  | .object pairs, scopes => by
    simp only [ExpressionKind.analyse, ExpressionKind.computations]
    exact .wrap (pairs_compute h pairs scopes) (by rfl) fun _ => by rfl
  | .objectLookup input part, scopes | .arrayLookup input part, scopes => by
    simp only [ExpressionKind.analyse, ExpressionKind.computations]
    exact .wrap (.andThen (input.computes h scopes) fun _ =>
      .wrap (part.computes h scopes) (by rfl) fun _ => by rfl) (by rfl) fun _ => by rfl
  | .filter input predicate, scopes => by
    simp only [ExpressionKind.analyse, ExpressionKind.computations]
    exact .wrap (.andThen (input.computes h scopes) fun _ =>
      .wrap (predicate.computes h ([(contextItemName, .host)] :: scopes)) (by rfl) fun _ => by rfl) (by rfl)
      fun _ => by rfl
  | .functionCall name given, scopes => functionCall_computes h name (arguments_compute h given scopes)
  | .dynamicCall function given, scopes => by
    simp only [ExpressionKind.analyse, ExpressionKind.computations]
    exact .wrap (.andThen (function.computes h scopes) fun _ => arguments_compute h given scopes) (by rfl)
      fun _ => by rfl
  | .inlineFunction parameters _ body, scopes => by
    simp only [ExpressionKind.analyse, ExpressionKind.computations]
    exact .wrap (body.computes h (parameterScope parameters :: scopes)) (by rfl) fun _ => by rfl
  | .flwor clauses result, scopes => by
    simp only [ExpressionKind.analyse, ExpressionKind.computations]
    exact .wrap (.andThen (clauses_compute h clauses true _) fun scope =>
      .wrap (result.computes h scope.scopes) (by rfl) fun _ => by rfl) (by rfl) fun _ => by rfl

theorem members_compute (h : callee.Computes K busy cut shown) :
    ∀ (members : List Expression) (scopes : List Scope),
    Pass.Computes K busy members (analyseMembers callee scopes members) (analyseMembers cut scopes members)
      (memberComputations callee shown scopes members)
  | [], _ => .done _ _
  | e :: rest, scopes => by
    simp only [analyseMembers, memberComputations]
    exact .wrap (.andThen (e.computes h scopes) fun _ =>
      .wrap (members_compute h rest scopes) (by rfl) fun _ => by rfl) (nodes_cons e rest)
      fun t => nodes_cons t.1 t.2

theorem pairs_compute (h : callee.Computes K busy cut shown) :
    ∀ (pairs : List (Expression × Expression)) (scopes : List Scope),
    Pass.Computes K busy pairs (analysePairs callee scopes pairs) (analysePairs cut scopes pairs)
      (pairComputations callee shown scopes pairs)
  | [], _ => .done _ _
  | (key, value) :: rest, scopes => by
    simp only [analysePairs, pairComputations]
    exact .wrap (.andThen (key.computes h scopes) fun _ => .andThen (value.computes h scopes)
      fun _ => pairs_compute h rest scopes) (nodes_pair_cons key value rest)
      fun t => nodes_pair_cons t.1 t.2.1 t.2.2

theorem arguments_compute (h : callee.Computes K busy cut shown) :
    ∀ (given : List (Option Expression)) (scopes : List Scope),
    Pass.Computes K busy given (analyseArguments callee scopes given) (analyseArguments cut scopes given)
      (argumentComputations callee shown scopes given)
  | [], _ => .done _ _
  | none :: rest, scopes => by
    simp only [analyseArguments, argumentComputations]
    exact .wrap (arguments_compute h rest scopes) (by rfl) fun _ => by rfl
  | some e :: rest, scopes => by
    simp only [analyseArguments, argumentComputations]
    exact .wrap (.andThen (e.computes h scopes) fun _ => arguments_compute h rest scopes) (by rfl)
      fun _ => by rfl

theorem clauses_compute (h : callee.Computes K busy cut shown) :
    ∀ (clauses : List Clause) (isFirst : Bool) (scope : ClauseScope),
    Pass.Computes K busy clauses (analyseClauses callee isFirst scope clauses)
      (analyseClauses cut isFirst scope clauses) (clauseComputations callee shown isFirst scope clauses)
  | [], _, _ => .done _ _
  | .mk kind position slot :: rest, isFirst, scope => by
    simp only [analyseClauses_cons, clauseComputations]
    exact .wrap (.andThen (kind.computes_clause position slot (kind.computes h isFirst scope position))
      fun scope => clauses_compute h rest false scope) (nodes_cons _ rest) fun t => nodes_cons t.1 t.2

theorem ClauseKind.computes (h : callee.Computes K busy cut shown) :
    ∀ (kind : ClauseKind) (isFirst : Bool) (scope : ClauseScope) (position : SourcePosition),
    Pass.Computes K busy kind (kind.analyse callee isFirst scope position)
      (kind.analyse cut isFirst scope position) (kind.computations callee shown scope)
  | .forEach _ _ _ e, _, scope, _ | .letBe _ e, _, scope, _ | .keepWhere e, _, scope, _ => by
    simp only [ClauseKind.analyse, ClauseKind.computations]
    exact .wrap (e.computes h scope.scopes) (by rfl) fun _ => by rfl
  | .orderBy keys, _, scope, _ => by
    simp only [ClauseKind.analyse, ClauseKind.computations]
    exact .wrap (orderKeys_compute h keys scope.scopes) (by rfl) fun _ => by rfl
  | .groupBy keys, _, scope, position => by
    simp only [ClauseKind.analyse, ClauseKind.computations]
    exact .wrap (groupKeys_compute h keys scope.scopes position) (by rfl) fun _ => by rfl
  | .count _, _, _, _ => .done _ _

theorem orderKeys_compute (h : callee.Computes K busy cut shown) :
    ∀ (keys : List (OrderKey Expression)) (scopes : List Scope),
    Pass.Computes K busy keys (analyseOrderKeys callee scopes keys) (analyseOrderKeys cut scopes keys)
      (orderComputations callee shown scopes keys)
  | [], _ => .done _ _
  | ⟨e, _, _⟩ :: rest, scopes => by
    simp only [analyseOrderKeys, orderComputations]
    exact .wrap (.andThen (e.computes h scopes) fun _ => orderKeys_compute h rest scopes) (by rfl)
      fun _ => by rfl

theorem groupKeys_compute (h : callee.Computes K busy cut shown) :
    ∀ (keys : List (GroupKey Expression)) (scopes : List Scope) (position : SourcePosition),
    Pass.Computes K busy keys (analyseGroupKeys callee scopes position keys)
      (analyseGroupKeys cut scopes position keys) (groupComputations callee shown scopes keys)
  | [], _, _ => .done _ _
  | ⟨name, none⟩ :: rest, scopes, position => by
    rw [analyseGroupKeys, analyseGroupKeys, groupComputations]
    cases lookupMode scopes name with
    | none => exact .done _ _
    | some _ => exact .wrap (groupKeys_compute h rest scopes position) (by rfl) fun _ => by rfl
  | ⟨_, some e⟩ :: rest, scopes, position => by
    simp only [analyseGroupKeys, groupComputations]
    exact .wrap (.andThen (e.computes h scopes) fun _ => groupKeys_compute h rest scopes position) (by rfl)
      fun _ => by rfl
end
end
end HybridQuery
