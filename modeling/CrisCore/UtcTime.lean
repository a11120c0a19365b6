import Mathlib.Data.Int.ConditionallyCompleteOrder
import Mathlib.Data.Int.Interval
import Mathlib.Data.Set.Card

/-! `SameUtcDay` and `SameUtcHour` compare durations that were cut towards zero; the calendar cuts
them downwards. A `system_clock::time_point` is the number of its nanoseconds since the epoch. -/
namespace CrisCore.UtcTime

/-- `duration_cast` to a duration of `period` nanoseconds. -/
def durationCast (period : ℤ) (t : ℤ) : ℤ :=
  t.tdiv period

def seconds : ℤ := 1000000000
def hours : ℤ := 3600 * seconds
def days : ℤ := 24 * hours

def sameUtcDay (x y : ℤ) : Bool :=
  let daysX := durationCast days x
  let daysY := durationCast days y
  daysX == daysY

def sameUtcHour (x y : ℤ) : Bool :=
  let hoursX := durationCast hours x
  let hoursY := durationCast hours y
  hoursX == hoursY

/-- Before the epoch, and not on the boundary of a period: the cut leads into the next period. -/
def RoundedUp (d : ℤ) (x : ℤ) : Prop :=
  x < 0 ∧ ¬ d ∣ x

instance (d : ℤ) (x : ℤ) : Decidable (RoundedUp d x) :=
  inferInstanceAs (Decidable (_ ∧ _))

/-- Only `x` is rounded up, and `y` is in its period or in the one after it. -/
def MovedOnto (d : ℤ) (x y : ℤ) : Prop :=
  RoundedUp d x ∧ ¬ RoundedUp d y ∧ (y / d = x / d ∨ y / d = x / d + 1)

section Cuts
variable {d : ℤ} {x y t : ℤ}

theorem durationCast_of_nonneg (ht : 0 ≤ t) : durationCast d t = t / d :=
  Int.tdiv_eq_ediv_of_nonneg ht

theorem durationCast_neg (d : ℤ) (t : ℤ) : durationCast d (-t) = -durationCast d t :=
  Int.neg_tdiv t d

theorem durationCast_eq (hd : 0 < d) (t : ℤ) :
    durationCast d t = t / d + if RoundedUp d t then 1 else 0 := by
  have hcases : (0 ≤ t ∨ d ∣ t) ↔ ¬ RoundedUp d t := by
    unfold RoundedUp
    omega
  unfold durationCast
  rw [Int.tdiv_eq_ediv, Int.sign_eq_one_of_pos hd]
  by_cases hup : RoundedUp d t
  · rw [if_pos hup, if_neg fun h => hcases.mp h hup]
  · rw [if_neg hup, if_pos (hcases.mpr hup)]

/-- The comparison follows the calendar unless one of the two is moved onto the other. -/
theorem durationCast_eq_iff (hd : 0 < d) (x y : ℤ) :
    (durationCast d x = durationCast d y ↔ x / d = y / d) ↔
      ¬ MovedOnto d x y ∧ ¬ MovedOnto d y x := by
  rw [durationCast_eq hd x, durationCast_eq hd y]
  unfold MovedOnto
  generalize x / d = m
  generalize y / d = n
  by_cases hx : RoundedUp d x <;> by_cases hy : RoundedUp d y <;>
    simp only [hx, hy, if_true, if_false, true_and, false_and, not_true, not_false_eq_true] <;>
    grind

/-- A period after the first one is cut to its beginning. -/
theorem durationCast_eq_pos_iff (hd : 0 < d) {q : ℤ} (hq : 0 < q) :
    durationCast d y = q ↔ y ∈ Set.Ico (q * d) (q * d + d) := by
  have hqd : 0 < q * d := Int.mul_pos hq hd
  have hdiv := Int.ediv_eq_iff_of_pos (x := y) (y := q) hd
  rw [Set.mem_Ico]
  by_cases hy : 0 ≤ y
  · rw [durationCast_of_nonneg hy]
    exact hdiv
  · -- a negative time is never cut to a positive number
    have hneg : 0 ≤ durationCast d (-y) := by
      rw [durationCast_of_nonneg (by omega)]
      exact Int.ediv_nonneg (by omega) hd.le
    rw [durationCast_neg] at hneg
    omega

theorem durationCast_eq_neg_iff (hd : 0 < d) {q : ℤ} (hq : q < 0) :
    durationCast d y = q ↔ y ∈ Set.Ioc (q * d - d) (q * d) := by
  have hpos := durationCast_eq_pos_iff (y := -y) hd (q := -q) (by omega)
  rw [durationCast_neg, Set.mem_Ico, Int.neg_mul] at hpos
  rw [Set.mem_Ioc]
  omega

/-- Both periods at the epoch are cut to it. -/
theorem durationCast_eq_zero_iff (hd : 0 < d) :
    durationCast d y = 0 ↔ y ∈ Set.Ioo (-d) d := by
  have hcut (t : ℤ) (ht : 0 ≤ t) : durationCast d t = 0 ↔ t < d := by
    rw [durationCast_of_nonneg ht, Int.ediv_eq_iff_of_pos hd]
    omega
  rw [Set.mem_Ioo]
  rcases Int.le_total 0 y with hy | hy
  · rw [hcut y hy]
    omega
  · have hneg := hcut (-y) (by omega)
    rw [durationCast_neg] at hneg
    omega

/-- The times that are cut alike are as many as a period has, except around the epoch. -/
theorem ncard_durationCast_eq_iff (hd : 1 < d) (x : ℤ) :
    (Set.ncard { y | durationCast d y = durationCast d x } : ℤ) = d ↔ ¬ (-d < x ∧ x < d) := by
  have hpos : 0 < d := by omega
  rw [← Set.mem_Ioo, ← durationCast_eq_zero_iff hpos]
  generalize durationCast d x = q
  rcases Int.lt_trichotomy q 0 with hq | rfl | hq
  · have hclass : { y | durationCast d y = q } = ↑(Finset.Ioc (q * d - d) (q * d)) := by
      rw [Finset.coe_Ioc]
      exact Set.ext fun y => durationCast_eq_neg_iff hpos hq
    rw [hclass, Set.ncard_coe_finset, Int.card_Ioc_of_le _ _ (by omega)]
    omega
  · have hclass : { y | durationCast d y = 0 } = ↑(Finset.Ioo (-d) d) := by
      rw [Finset.coe_Ioo]
      exact Set.ext fun y => durationCast_eq_zero_iff hpos
    rw [hclass, Set.ncard_coe_finset, Int.card_Ioo_of_lt _ _ (by omega)]
    omega
  · have hclass : { y | durationCast d y = q } = ↑(Finset.Ico (q * d) (q * d + d)) := by
      rw [Finset.coe_Ico]
      exact Set.ext fun y => durationCast_eq_pos_iff hpos hq
    rw [hclass, Set.ncard_coe_finset, Int.card_Ico_of_le _ _ (by omega)]
    omega

/-- A cut to a multiple of a period can be made in two steps. -/
theorem durationCast_mul (hd : 0 ≤ d) (n t : ℤ) :
    durationCast (n * d) t = durationCast n (durationCast d t) := by
  have hcut (s : ℤ) (hs : 0 ≤ s) :
      durationCast (n * d) s = durationCast n (durationCast d s) := by
    rw [durationCast_of_nonneg hs, durationCast_of_nonneg hs,
      durationCast_of_nonneg (Int.ediv_nonneg hs hd), Int.mul_comm n d,
      Int.ediv_ediv_of_nonneg hd]
  rcases Int.le_total 0 t with ht | ht
  · exact hcut t ht
  · have hneg := hcut (-t) (by omega)
    simp only [durationCast_neg, neg_inj] at hneg
    exact hneg

end Cuts

theorem sameUtcDay_iff (x y : ℤ) :
    sameUtcDay x y = true ↔ durationCast days x = durationCast days y := by
  simp [sameUtcDay]

theorem sameUtcHour_iff (x y : ℤ) :
    sameUtcHour x y = true ↔ durationCast hours x = durationCast hours y := by
  simp [sameUtcHour]

theorem sameUtcDay_of_sameUtcHour {x y : ℤ} (h : sameUtcHour x y = true) :
    sameUtcDay x y = true := by
  rw [sameUtcHour_iff] at h
  have hday (t : ℤ) : durationCast days t = durationCast 24 (durationCast hours t) :=
    durationCast_mul (by decide) 24 t
  rw [sameUtcDay_iff, hday x, hday y, h]

/-- The two tests follow the calendar but for pairs of which one is moved onto the other, and but
for the times less than a period from the epoch their classes have the length of the period. -/
theorem sameUtc_follows_calendar_iff (x y : ℤ) :
    ((sameUtcDay x y = true ↔ x / days = y / days) ↔
      ¬ MovedOnto days x y ∧ ¬ MovedOnto days y x) ∧
    ((sameUtcHour x y = true ↔ x / hours = y / hours) ↔
      ¬ MovedOnto hours x y ∧ ¬ MovedOnto hours y x) ∧
    ((Set.ncard { y | sameUtcDay y x = true } : ℤ) = days ↔ ¬ (-days < x ∧ x < days)) ∧
    ((Set.ncard { y | sameUtcHour y x = true } : ℤ) = hours ↔ ¬ (-hours < x ∧ x < hours)) ∧
    (sameUtcHour x y = true → sameUtcDay x y = true) := by
  refine ⟨?_, ?_, ?_, ?_, sameUtcDay_of_sameUtcHour⟩
  · rw [sameUtcDay_iff]
    exact durationCast_eq_iff (by decide) x y
  · rw [sameUtcHour_iff]
    exact durationCast_eq_iff (by decide) x y
  · simp only [sameUtcDay_iff]
    exact ncard_durationCast_eq_iff (by decide) x
  · simp only [sameUtcHour_iff]
    exact ncard_durationCast_eq_iff (by decide) x

/-- The nanosecond before the epoch and the one after it are of two days. -/
theorem sameUtc_across_epoch :
    ¬ ((∀ x y, sameUtcDay x y = true ↔ x / days = y / days) ∧
      (∀ x y, sameUtcHour x y = true ↔ x / hours = y / hours) ∧
      (∀ x, (Set.ncard { y | sameUtcDay y x = true } : ℤ) = days) ∧
      (∀ x, (Set.ncard { y | sameUtcHour y x = true } : ℤ) = hours) ∧
      ∀ x y, sameUtcHour x y = true → sameUtcDay x y = true) := by
  intro ⟨hday, _⟩
  exact absurd ((hday (-1) 1).mp (by decide)) (by decide)

end CrisCore.UtcTime
