import CrisCore.RollingHelpers
import Mathlib.Data.Int.ModEq
import Mathlib.Tactic.LinearCombination

/-! When a file that rolls by time rolls: the times that `CalcNextRollingTime` gives, and their
distances over a run of writes. -/
namespace CrisCore.RollingSession
open TransitionSystem
open UtcTime (durationCast durationCast_of_nonneg seconds)

section Calc
variable {interval offset now now' : ℤ}

theorem toTimeT_of_nonneg (h : 0 ≤ now) : toTimeT now = now / seconds :=
  durationCast_of_nonneg h

/-- The last boundary of an interval, then a whole interval and the offset. -/
theorem calcNextRollingTime_eq (h : 0 ≤ now) (interval offset : ℤ) :
    calcNextRollingTime now interval offset =
      fromTimeT (now / seconds - now / seconds % interval + interval + offset) := by
  have hsec : 0 ≤ now / seconds := Int.ediv_nonneg h (by decide)
  simp only [calcNextRollingTime, toTimeT_of_nonneg h, Int.tmod_eq_emod_of_nonneg hsec]

theorem lt_calcNextRollingTime (offset : ℤ) (h : 0 ≤ now) (hi : 0 < interval) :
    now + fromTimeT offset < calcNextRollingTime now interval offset := by
  have hlt := Int.emod_lt_of_pos (now / seconds) hi
  rw [calcNextRollingTime_eq h]
  unfold fromTimeT seconds at *
  omega

theorem calcNextRollingTime_le (h : 0 ≤ now) (hi : 0 < interval) :
    calcNextRollingTime now interval offset ≤
      fromTimeT (toTimeT now) + fromTimeT interval + fromTimeT offset := by
  have hnonneg := Int.emod_nonneg (now / seconds) (ne_of_gt hi)
  rw [calcNextRollingTime_eq h, toTimeT_of_nonneg h]
  unfold fromTimeT seconds at *
  omega

theorem calcNextRollingTime_modEq (h : 0 ≤ now) (interval offset : ℤ) :
    ∃ u, calcNextRollingTime now interval offset = fromTimeT u ∧ u ≡ offset [ZMOD interval] := by
  refine ⟨_, calcNextRollingTime_eq h interval offset, ?_⟩
  have hdiv := Int.emod_add_mul_ediv (now / seconds) interval
  apply Int.modEq_iff_dvd.mpr
  refine ⟨-(now / seconds / interval + 1), ?_⟩
  linear_combination hdiv

/-- Times that are congruent and not the same are an interval apart. -/
theorem add_interval_le {u u' : ℤ} (hu : u ≡ offset [ZMOD interval])
    (hu' : u' ≡ offset [ZMOD interval]) (hlt : fromTimeT u < fromTimeT u') :
    fromTimeT u + fromTimeT interval ≤ fromTimeT u' := by
  have hdvd : interval ∣ u' - u := (hu.trans hu'.symm).dvd
  unfold fromTimeT seconds at *
  have hle : interval ≤ u' - u := Int.le_of_dvd (by omega) hdvd
  omega

theorem calcNextRollingTime_mono (h : 0 ≤ now) (hle : now ≤ now') (hi : 0 < interval) :
    calcNextRollingTime now interval offset ≤ calcNextRollingTime now' interval offset := by
  have hsec : now / seconds ≤ now' / seconds := Int.ediv_le_ediv (by decide) hle
  have hquot : now / seconds / interval ≤ now' / seconds / interval := Int.ediv_le_ediv hi hsec
  have hprod := Int.mul_le_mul_of_nonneg_left hquot hi.le
  have hdiv := Int.emod_add_mul_ediv (now / seconds) interval
  have hdiv' := Int.emod_add_mul_ediv (now' / seconds) interval
  rw [calcNextRollingTime_eq h, calcNextRollingTime_eq (h.trans hle)]
  unfold fromTimeT
  apply Int.mul_le_mul_of_nonneg_right _ (by decide)
  omega

end Calc

section Runs
variable {interval offset : ℤ} {s t : State RollingByTime} {w : Write}

/-- The clock does not step back, neither between two writes nor within one. -/
def ClockAdvances {σ : Type} (s : State σ) (w : Write) : Prop :=
  s.clock ≤ w.time ∧ w.time ≤ w.resetTime

instance {σ : Type} (s : State σ) (w : Write) : Decidable (ClockAdvances s w) :=
  inferInstanceAs (Decidable (_ ∧ _))

/-- The rolling times of the rolls so far and of the next one, an interval or more apart. -/
def Apart (interval : ℤ) (s : State RollingByTime) : Prop :=
  ((s.rolledFrom ++ [s.helper]).map RollingByTime.timeToRoll).IsChain
    fun T T' => T + fromTimeT interval ≤ T'

structure TimesKept (interval offset : ℤ) (s : State RollingByTime) : Prop where
  ready : Ready s
  clock : 0 ≤ s.clock
  modEq : ∃ u, s.helper.timeToRoll = fromTimeT u ∧ u ≡ offset [ZMOD interval]
  apart : Apart interval s

theorem rolls_rollingByTime (hr : Ready s) :
    rolls (rollingByTime interval offset) s w = true ↔ s.helper.timeToRoll ≤ w.time := by
  simp [rolls, hr.rollingHelper, rollingByTime, Write.metadata]

/-- The time of the next roll is an interval or more behind the time that has been reached. -/
theorem add_interval_le_reset (hi : 0 < interval) (ho : 0 ≤ offset) (h : TimesKept interval offset s)
    (hc : ClockAdvances s w) (hroll : s.helper.timeToRoll ≤ w.time) :
    s.helper.timeToRoll + fromTimeT interval ≤
      calcNextRollingTime w.resetTime interval offset := by
  have hreset : 0 ≤ w.resetTime := h.clock.trans (hc.1.trans hc.2)
  obtain ⟨u, hu, hmod⟩ := h.modEq
  obtain ⟨u', hu', hmod'⟩ := calcNextRollingTime_modEq hreset interval offset
  have hlt := lt_calcNextRollingTime offset hreset hi
  have hoff : 0 ≤ fromTimeT offset := Int.mul_nonneg ho (by decide)
  have hadv := hc.2
  rw [hu] at hroll ⊢
  rw [hu'] at hlt ⊢
  exact add_interval_le hmod hmod' (by omega)

theorem timesKept_step (hi : 0 < interval) (ho : 0 ≤ offset) (h : TimesKept interval offset s)
    (hs : Succeeds (rollingByTime interval offset) s w) (hc : ClockAdvances s w)
    (hstep : step (rollingByTime interval offset) s w = some t) : TimesKept interval offset t := by
  obtain ⟨t', ht', hready, hhelper, -, hfrom, hclock, -⟩ := step_of_succeeds h.ready hs
  cases ht'.symm.trans hstep
  have hreset : 0 ≤ w.resetTime := h.clock.trans (hc.1.trans hc.2)
  by_cases hn : rolls (rollingByTime interval offset) s w = true
  · rw [if_pos hn] at hhelper hfrom hclock
    have hgap := add_interval_le_reset hi ho h hc ((rolls_rollingByTime h.ready).mp hn)
    refine ⟨hready, hclock ▸ hreset, ?_, ?_⟩
    · rw [hhelper]
      exact calcNextRollingTime_modEq hreset interval offset
    · have hold := h.apart
      unfold Apart at hold ⊢
      rw [hfrom, hhelper, List.map_append, List.isChain_append]
      refine ⟨hold, List.isChain_singleton _, fun T hT T' hT' => ?_⟩
      simp only [List.map_append, List.map_singleton, List.getLast?_concat, List.head?_cons,
        Option.mem_some_iff] at hT hT'
      rw [← hT, ← hT']
      exact hgap
  · rw [if_neg hn] at hhelper hfrom hclock
    refine ⟨hready, ?_, ?_, ?_⟩
    · rw [hclock]
      exact h.clock.trans hc.1
    · rw [hhelper]
      exact h.modEq
    · unfold Apart
      rw [hfrom, hhelper]
      exact h.apart

theorem timesKept_of_init (hs : (system (rollingByTime interval offset)).init s)
    (hclock : 0 ≤ s.clock) {now : ℤ} (hnow : 0 ≤ now)
    (hmake : s.helper = .make now interval offset) : TimesKept interval offset s := by
  obtain ⟨hhelper, hdb, -, hfrom⟩ := hs
  refine ⟨⟨hhelper, hdb⟩, hclock, ?_, ?_⟩
  · rw [hmake]
    exact calcNextRollingTime_modEq hnow interval offset
  · unfold Apart
    rw [hfrom]
    exact List.isChain_singleton _

/-- After its roll the write does not call for another one. -/
theorem not_needToRoll_of_rolls (hi : 0 < interval) (ho : 0 ≤ offset)
    (h : TimesKept interval offset s) (hs : Succeeds (rollingByTime interval offset) s w)
    (hc : ClockAdvances s w) (hroll : rolls (rollingByTime interval offset) s w = true)
    (hstep : step (rollingByTime interval offset) s w = some t) :
    (rollingByTime interval offset).needToRoll t.helper w.metadata = false := by
  obtain ⟨t', ht', -, hhelper, -⟩ := step_of_succeeds h.ready hs
  cases ht'.symm.trans hstep
  have hreset : 0 ≤ w.resetTime := h.clock.trans (hc.1.trans hc.2)
  have hlt := lt_calcNextRollingTime offset hreset hi
  have hoff : 0 ≤ fromTimeT offset := Int.mul_nonneg ho (by decide)
  have hadv := hc.2
  rw [hhelper, if_pos hroll]
  apply decide_eq_false
  change ¬ calcNextRollingTime w.resetTime interval offset ≤ w.time
  omega

/-- The rolling times, and what they lead to in a run of writes that begins with the construction of
the helper at the time `s.clock`. With 60 for the offset and the seconds of a day or of an hour for
the interval this is `rollingByDayHelper` or `rollingByHourHelper`. -/
theorem rolling_times_on_boundaries (hi : 0 < interval) (ho : 0 ≤ offset) :
    (∀ now, 0 ≤ now →
      (∃ u, calcNextRollingTime now interval offset = fromTimeT u ∧ u ≡ offset [ZMOD interval]) ∧
      now + fromTimeT offset < calcNextRollingTime now interval offset ∧
      calcNextRollingTime now interval offset ≤
        fromTimeT (toTimeT now) + fromTimeT interval + fromTimeT offset) ∧
    (∀ now now', 0 ≤ now → now ≤ now' →
      calcNextRollingTime now interval offset ≤ calcNextRollingTime now' interval offset) ∧
    ∀ (s : State RollingByTime) (ws : List Write),
      (system (rollingByTime interval offset)).init s → 0 ≤ s.clock →
      s.helper = .make s.clock interval offset →
      (system (rollingByTime interval offset)).StepsMeet (fun u w =>
        Succeeds (rollingByTime interval offset) u w ∧ ClockAdvances u w) s ws →
      ∃ t, (system (rollingByTime interval offset)).exec s ws = some t ∧ Apart interval t ∧
        ∀ w u, Succeeds (rollingByTime interval offset) t w → ClockAdvances t w →
          rolls (rollingByTime interval offset) t w = true →
          step (rollingByTime interval offset) t w = some u →
          (rollingByTime interval offset).needToRoll u.helper w.metadata = false := by
  refine ⟨fun now h => ⟨?_, ?_, ?_⟩, fun now now' h hle => ?_, fun s ws hinit hclock hmake hmeet => ?_⟩
  · exact calcNextRollingTime_modEq h interval offset
  · exact lt_calcNextRollingTime offset h hi
  · exact calcNextRollingTime_le h hi
  · exact calcNextRollingTime_mono h hle hi
  · have h0 := timesKept_of_init hinit hclock hclock hmake
    have hsucc := hmeet.imp_of_kept (P := fun _ => True) trivial (fun _ _ _ _ _ _ => trivial)
      fun _ _ _ hc => hc.1
    obtain ⟨t, ht⟩ := exec_of_succeeds h0.ready hsucc
    have hkept : TimesKept interval offset t := hmeet.invariant h0
      (fun u w v hu hc hv => timesKept_step hi ho hu hc.1 hc.2 hv) ht
    exact ⟨t, ht, hkept.apart, fun w u hs hc hroll hstep =>
      not_needToRoll_of_rolls hi ho hkept hs hc hroll hstep⟩

/-- A write on the second boundary rolls, one a second later does not. -/
def hourWrites : List Write :=
  [⟨⟨1, 0⟩, [67], fromTimeT 3660, fromTimeT 3661, RecordSession.rollTo "b.ldb.d", by decide⟩,
    ⟨⟨2, 0⟩, [68], fromTimeT 3662, fromTimeT 3662, RecordSession.noRoll, by decide⟩]

theorem rolling_times_on_boundaries_hourWrites :
    ∃ t, (system rollingByHourHelper).exec (openedFile (.make 0 3600 60) 0) hourWrites = some t ∧
      Apart 3600 t := by
  have hall := (@rolling_times_on_boundaries 3600 60 (by decide) (by decide)).2.2
  obtain ⟨t, ht, hapart, -⟩ := hall (openedFile (.make 0 3600 60) 0) hourWrites
    (init_openedFile _ _ _) (Int.le_refl 0) rfl (by decide)
  exact ⟨t, ht, hapart⟩

end Runs
end CrisCore.RollingSession
