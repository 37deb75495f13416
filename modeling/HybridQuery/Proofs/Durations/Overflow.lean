import HybridQuery.Proofs.Durations.Grammar

/-!
# Durations out of range

Only the seconds of a duration that are too many are refused. Seconds that are too few, and nanoseconds that
lead past a limit, are not looked at before they are put together. The sign before a duration is harmless, since
its range is symmetric.

* `DurationParts.bounds_of_ofText?`: what the parts of a text are within.
* `Item.cast_duration_range`: which texts run over the range of durations, and what all the others are cast to.
* `Item.cast_runs_over`: two texts that do, one on each side.
-/

namespace HybridQuery

/-! ## Bounds of what is read -/

theorem IsSigned.abs_signedNumeral_lt {cs : List Char} (h : IsSigned cs) :
    |signedNumeral cs| < 10 ^ cs.length := by
  have hlength : (unsigned cs).length ≤ cs.length := by
    fun_cases unsigned cs <;> simp
  have hlt : (numeral (unsigned cs) : Int) < 10 ^ cs.length := by
    exact_mod_cast (numeral_lt h.digits).trans_le (Nat.pow_le_pow_right (by decide) hlength)
  rw [signedNumeral]
  split <;> simpa using hlt

theorem signedNumeral_nonneg {cs : List Char} (h : '-' ∉ cs) : 0 ≤ signedNumeral cs := by
  have hhead : cs.head? ≠ some '-' := fun hd => h (List.mem_of_mem_head? hd)
  rw [signedNumeral, if_neg hhead]
  exact Int.natCast_nonneg _

theorem abs_fractionNanos?_lt {fraction : Option (List Char)} {n : Int} (h : fractionNanos? fraction = some n) :
    |n| < nanosPerSecond := by
  obtain ⟨hsigned, rfl⟩ := fractionNanos?_value h
  cases fraction with
  | none => decide
  | some ds =>
    have hlength : (nineDigits ds).length = 9 := by simp [nineDigits]
    have := (hsigned ds rfl).abs_signedNumeral_lt
    rwa [hlength] at this

namespace DurationForm

/-- The characters of the components are characters of the body. -/
theorem mem_body_of_component {f : DurationForm} {c : Char} {ds : List Char} (hc : c ∈ ds)
    (hds : ds ∈ f.days ∨ ds ∈ f.hours ∨ ds ∈ f.minutes ∨ ds ∈ f.whole ∨ ds ∈ f.fraction) : c ∈ f.body := by
  have hclock (h : c ∈ f.clock) : c ∈ f.body :=
    List.mem_append_right _ (mem_afterT.mpr ⟨List.ne_nil_of_mem h, .inr h⟩)
  have hunit {letter : Char} {count : Option (List Char)} (h : ds ∈ count) : c ∈ unitChars letter count :=
    mem_unitChars.mpr ⟨ds, h, .inl hc⟩
  have hseconds (h : c ∈ secondsChars f.seconds) : c ∈ f.body :=
    hclock (List.mem_append_right _ (List.mem_append_right _ h))
  rcases hds with h | h | h | h | h
  · exact List.mem_append_left _ (hunit h)
  · exact hclock (List.mem_append_left _ (hunit h))
  · exact hclock (List.mem_append_right _ (List.mem_append_left _ (hunit h)))
  · obtain ⟨s, hs, rfl⟩ := Option.mem_map.mp h
    exact hseconds (mem_secondsChars.mpr ⟨s, hs, .inl hc⟩)
  · obtain ⟨s, hs, h⟩ := Option.mem_bind_iff.mp h
    exact hseconds (mem_secondsChars.mpr ⟨s, hs, .inr (.inl ⟨ds, h, .inr hc⟩)⟩)

end DurationForm

namespace DurationParts

/-- The seconds that are read are not too many, and the nanoseconds are less than a second. -/
theorem bounds_of_ofText? {s : String} {p : DurationParts} (h : ofText? s = some p) :
    p.seconds ≤ Duration.greatestSeconds ∧ |p.nanos| < nanosPerSecond := by
  obtain ⟨f, -, -, hp⟩ := ofText?_eq_some_iff.mp h
  obtain ⟨_, -, _, -, _, -, _, -, _, hn, hs, rfl⟩ := DurationForm.parts?_eq_some_iff.mp hp
  exact ⟨hs, abs_fractionNanos?_lt hn⟩

/-- Without a minus after its first character a text has no negative parts. -/
theorem nonneg_of_ofText? {s : String} {p : DurationParts} (h : ofText? s = some p) (hs : '-' ∉ s.toList.tail) :
    0 ≤ p.seconds ∧ 0 ≤ p.nanos := by
  obtain ⟨f, hchars, -, hp⟩ := ofText?_eq_some_iff.mp h
  obtain ⟨_, hdays, _, hhours, _, hminutes, _, hwhole, _, hn, -, rfl⟩ := DurationForm.parts?_eq_some_iff.mp hp
  have hbody : '-' ∉ f.body := fun hc => hs (hchars ▸ DurationForm.mem_tail_chars hc)
  have hcount {count : Option (List Char)} (h : ∀ ds ∈ count, '-' ∉ ds) : 0 ≤ count.elim 0 signedNumeral := by
    cases count with
    | none => exact le_rfl
    | some ds => exact signedNumeral_nonneg (h ds rfl)
  have hD := hcount fun ds hds hc => hbody (DurationForm.mem_body_of_component hc (.inl hds))
  have hH := hcount fun ds hds hc => hbody (DurationForm.mem_body_of_component hc (.inr (.inl hds)))
  have hM := hcount fun ds hds hc => hbody (DurationForm.mem_body_of_component hc (.inr (.inr (.inl hds))))
  have hW := hcount fun ds hds hc =>
    hbody (DurationForm.mem_body_of_component hc (.inr (.inr (.inr (.inl hds)))))
  refine ⟨?_, ?_⟩
  · have hday : secondsPerDay = 86400 := rfl
    rw [addCount?_value hwhole, addCount?_value hminutes, addCount?_value hhours, addCount?_value hdays, hday]
    dsimp only
    omega
  · rw [(fractionNanos?_value hn).2]
    cases hf : f.fraction with
    | none => exact le_rfl
    | some ds =>
      refine signedNumeral_nonneg fun hc => ?_
      rcases List.mem_append.mp (List.mem_of_mem_take hc) with hc | hc
      · exact hbody (DurationForm.mem_body_of_component hc (.inr (.inr (.inr (.inr hf)))))
      · simp at hc

/-! ## Putting the parts together -/

/-- What is left of the range beyond the greatest number of whole seconds. -/
def spareNanos : Int := 807000000

/-- The parts of a duration that cannot be put together: the seconds are too few, or they are at a limit and the
nanoseconds lead past it. -/
def OutOfRange (p : DurationParts) : Prop :=
  p.seconds < -Duration.greatestSeconds ∨
    p.seconds = -Duration.greatestSeconds ∧ p.nanos < -spareNanos ∨
    p.seconds = Duration.greatestSeconds ∧ spareNanos < p.nanos

theorem duration?_eq_none_iff {p : DurationParts} (hs : p.seconds ≤ Duration.greatestSeconds)
    (hn : |p.nanos| < nanosPerSecond) : p.duration? = none ↔ p.OutOfRange := by
  have hsome : p.duration? ≠ none ↔
      |p.seconds| ≤ Duration.greatestSeconds ∧ |p.total| ≤ Duration.greatestNanos := by
    simp [Option.ne_none_iff_exists', duration?_eq_some_iff]
  rw [← not_not (a := p.duration? = none), ← ne_eq, hsome]
  have hg : Duration.greatestNanos = (2 ^ 63 - 1) * 1000000 := rfl
  have hw : Duration.greatestSeconds = (2 ^ 63 - 1) / 1000 := rfl
  have hnano : (nanosPerSecond : Int) = 1000000000 := rfl
  simp only [OutOfRange, total, spareNanos, abs_le, abs_lt, hg, hw, hnano] at *
  omega

end DurationParts

theorem Item.castOverflows_duration {text : String} : castOverflows text .duration = true ↔
    ∃ p, DurationParts.ofText? (Text.trim text) = some p ∧ p.OutOfRange := by
  simp only [castOverflows, Option.any_eq_true, Option.isNone_iff_eq_none]
  refine exists_congr fun p => and_congr_right fun h => ?_
  obtain ⟨hs, hn⟩ := DurationParts.bounds_of_ofText? h
  exact DurationParts.duration?_eq_none_iff hs hn

/-- **The range of durations.** Of the texts with the parts of a duration, those with too many seconds are
refused as such. A cast runs over the range just if the seconds are too few, or are at a limit that the
nanoseconds lead past; without a minus inside, only the latter at the upper limit is left. Otherwise the parts
are put together without running over, and so is their opposite if there is a minus before them. -/
theorem Item.cast_duration_range (text : String) :
    (castOverflows text .duration = true ↔
      ∃ p, DurationParts.ofText? (Text.trim text) = some p ∧ p.OutOfRange) ∧
    (∀ p, DurationParts.ofText? (Text.trim text) = some p →
      p.seconds ≤ Duration.greatestSeconds ∧ |p.nanos| < nanosPerSecond ∧
      ('-' ∉ (Text.trim text).toList.tail → 0 ≤ p.seconds ∧ 0 ≤ p.nanos) ∧
      (castOverflows text .duration = false →
        cast text .duration = .ok (.duration ⟨if p.negative then -p.total else p.total⟩))) ∧
    (DurationParts.ofText? (Text.trim text) = none →
      cast text .duration = .error (.cast (Text.trim text) ItemType.duration.name)) := by
  refine ⟨castOverflows_duration, fun p hp => ?_, fun hnone => ?_⟩
  · obtain ⟨hs, hn⟩ := DurationParts.bounds_of_ofText? hp
    refine ⟨hs, hn, DurationParts.nonneg_of_ofText? hp, fun hrange => ?_⟩
    simp only [castOverflows, hp, Option.any_some] at hrange
    obtain ⟨d, hd⟩ := Option.isSome_iff_exists.mp (Option.isNone_eq_false_iff.mp hrange)
    obtain ⟨-, -, rfl⟩ := DurationParts.duration?_eq_some_iff.mp hd
    exact cast_duration_eq_ok_iff.mpr ⟨_, Option.bind_eq_some_iff.mpr ⟨p, hp, hd⟩, rfl⟩
  · rw [cast]
    simp only [ofText?, Duration.ofText?, hnone, Option.bind_none, Option.map_none]

/-- Too few seconds, and nanoseconds beyond the upper limit. -/
theorem Item.cast_runs_over : castOverflows "P-200000000000D" .duration = true ∧
    castOverflows "PT9223372036854775.9S" .duration = true := by
  decide +kernel

end HybridQuery
