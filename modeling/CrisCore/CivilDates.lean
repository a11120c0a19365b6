import CrisCore.FixedWidth
import Mathlib.Algebra.Group.Nat.Defs
import Mathlib.Data.String.Basic
import Mathlib.Data.Set.Monotone
import Mathlib.Order.Interval.Set.Basic

/-! The days of the civil calendar and their texts of a fixed width, whose order is that of time. -/
namespace CrisCore.CivilDates
open FixedWidth

def isLeapYear (year : ℕ) : Bool :=
  year % 4 == 0 && (year % 100 != 0 || year % 400 == 0)

def daysInMonth (year : ℕ) : ℕ → ℕ
  | 2 => if isLeapYear year then 29 else 28
  | 4 | 6 | 9 | 11 => 30
  | _ => 31

structure Date where
  year : ℕ
  month : ℕ
  day : ℕ
  month_pos : 0 < month
  month_le : month ≤ 12
  day_pos : 0 < day
  day_le : day ≤ daysInMonth year month
  deriving DecidableEq

theorem daysInMonth_bounds (year month : ℕ) :
    28 ≤ daysInMonth year month ∧ daysInMonth year month ≤ 31 := by
  unfold daysInMonth
  split
  · split_ifs <;> omega
  all_goals omega

theorem daysInMonth_pos (year month : ℕ) : 0 < daysInMonth year month := by
  have h := daysInMonth_bounds year month
  omega

namespace Date

/-- The first day of a month. -/
def first (year month : ℕ) (hpos : 0 < month) (hle : month ≤ 12) : Date :=
  ⟨year, month, 1, hpos, hle, Nat.one_pos, daysInMonth_pos year month⟩

def next (d : Date) : Date :=
  if hday : d.day < daysInMonth d.year d.month then
    { d with day := d.day + 1, day_pos := Nat.succ_pos _, day_le := hday }
  else if hmonth : d.month < 12 then first d.year (d.month + 1) (Nat.succ_pos _) hmonth
  else first (d.year + 1) 1 Nat.one_pos (Nat.le_add_left 1 11)

def epoch : Date :=
  first 1970 1 Nat.one_pos (Nat.le_add_left 1 11)

/-- The three numbers as one; it has eight digits until the year 10000. -/
def number (d : Date) : ℕ :=
  (d.year * 100 + d.month) * 100 + d.day

theorem day_lt (d : Date) : d.day < 100 := by
  have hday := d.day_le
  have h := daysInMonth_bounds d.year d.month
  omega

theorem month_lt (d : Date) : d.month < 100 :=
  Nat.lt_of_le_of_lt d.month_le (by decide)

theorem number_lt_next (d : Date) : d.number < d.next.number := by
  have hday := d.day_lt
  have hmonth := d.month_le
  unfold next number
  split_ifs with h1 h2
  · simp
  · simp only [first]
    omega
  · simp only [first]
    omega

/-- The days that have passed in a year of twelve months of 28 days are at most those that have
passed. -/
theorem spread_next (d : Date) :
    336 * d.next.year + 28 * d.next.month + d.next.day ≤
      336 * d.year + 28 * d.month + d.day + 1 := by
  have h := daysInMonth_bounds d.year d.month
  have hpos := d.month_le
  unfold next
  split_ifs with h1 h2
  · exact Nat.le_refl _
  · simp only [first]
    omega
  · simp only [first]
    omega

end Date

/-- The day after so many days. -/
def dateOfDay (n : ℕ) : Date :=
  Date.next^[n] Date.epoch

theorem dateOfDay_succ (n : ℕ) : dateOfDay (n + 1) = (dateOfDay n).next :=
  Function.iterate_succ_apply' Date.next n Date.epoch

theorem number_strictMono : StrictMono fun n => (dateOfDay n).number :=
  strictMono_nat_of_lt_succ fun n => by
    simp only [dateOfDay_succ]
    exact (dateOfDay n).number_lt_next

theorem year_le (n : ℕ) : (dateOfDay n).year ≤ 1970 + n / 336 := by
  have hspread : 336 * (dateOfDay n).year + 28 * (dateOfDay n).month + (dateOfDay n).day ≤
      336 * 1970 + 28 + 1 + n := by
    induction n with
    | zero => exact Nat.le_refl _
    | succ n ih =>
      have h := (dateOfDay n).spread_next
      rw [dateOfDay_succ]
      omega
  have hmonth := (dateOfDay n).month_pos
  have hday := (dateOfDay n).day_pos
  omega

section Texts
variable {α : Type*} [LinearOrder α] {l l' : List α} {w m n : ℕ}

theorem append_lt_append (h : l < l') (hl : l.length = l'.length) (r r' : List α) :
    l ++ r < l' ++ r' := by
  induction l generalizing l' with
  | nil =>
    rw [List.length_eq_zero_iff.mp hl.symm] at h
    exact absurd h (List.not_lt_nil _)
  | cons x l ih =>
    cases l' with
    | nil => cases hl
    | cons y l' =>
      rw [List.cons_lt_cons_iff] at h
      rw [List.cons_append, List.cons_append, List.cons_lt_cons_iff]
      exact h.imp_right fun ⟨hxy, hlt⟩ => ⟨hxy, ih hlt (Nat.succ.inj hl)⟩

theorem append_lt_append_left (l : List α) {r r' : List α} (h : r < r') : l ++ r < l ++ r' := by
  induction l with
  | nil => exact h
  | cons x l ih =>
    rw [List.cons_append, List.cons_append, List.cons_lt_cons_iff]
    exact Or.inr ⟨rfl, ih⟩

/-- A text of the quotient, of a fixed width, and after it one of the remainder. -/
theorem strictMonoOn_carry {f g : ℕ → List α} {k N : ℕ} (hf : StrictMonoOn f (Set.Iio N))
    (hl : ∀ m n, (f m).length = (f n).length) (hg : StrictMonoOn g (Set.Iio k)) (hk : 0 < k) :
    StrictMonoOn (fun n => f (n / k) ++ g (n % k)) (Set.Iio (N * k)) := by
  intro m hm n hn h
  have hdm := Nat.div_add_mod m k
  have hdn := Nat.div_add_mod n k
  have hin {i : ℕ} (hi : i < N * k) : i / k < N := Nat.div_lt_of_lt_mul (by rwa [Nat.mul_comm])
  change f (m / k) ++ g (m % k) < f (n / k) ++ g (n % k)
  rcases (Nat.div_le_div_right h.le : m / k ≤ n / k).lt_or_eq with hlt | heq
  · exact append_lt_append (hf (hin hm) (hin hn) hlt) (hl _ _) _ _
  · rw [heq] at hdm ⊢
    exact append_lt_append_left _ (hg (Nat.mod_lt m hk) (Nat.mod_lt n hk) (by omega))

/-- A number with leading zeros. -/
def decimal (w n : ℕ) : List Char :=
  (digits 10 w n).map Nat.digitChar

@[simp] theorem length_decimal (w n : ℕ) : (decimal w n).length = w := by
  rw [decimal, List.length_map, length_digits]

theorem digitChar_strictMonoOn : StrictMonoOn Nat.digitChar (Set.Iio 10) := by
  have hall : ∀ c d : Fin 10, c < d → Nat.digitChar c < Nat.digitChar d := by decide
  exact fun m hm n hn h => hall ⟨m, hm⟩ ⟨n, hn⟩ h

theorem decimal_strictMonoOn (w : ℕ) : StrictMonoOn (decimal w) (Set.Iio (10 ^ w)) := by
  induction w with
  | zero =>
    intro m hm n hn h
    rw [Nat.pow_zero, Set.mem_Iio] at hn
    omega
  | succ w ih =>
    have hdigit : StrictMonoOn (fun d => [Nat.digitChar d]) (Set.Iio 10) :=
      fun m hm n hn h => List.cons_lt_cons_iff.mpr (Or.inl (digitChar_strictMonoOn hm hn h))
    rw [Nat.pow_succ, Nat.mul_comm]
    exact strictMonoOn_carry hdigit (fun _ _ => rfl) ih (Nat.pow_pos (by decide))

/-- Two numbers written next to each other are one number. -/
theorem decimal_append {v : ℕ} (hm : m < 10 ^ v) (hn : n < 10 ^ w) :
    decimal v m ++ decimal w n = decimal (v + w) (m * 10 ^ w + n) := by
  have hlt : m * 10 ^ w + n < 10 ^ (v + w) := by
    rw [Nat.pow_add]
    have hle := Nat.mul_le_mul_right (10 ^ w) (Nat.succ_le_of_lt hm)
    rw [Nat.succ_mul] at hle
    omega
  have hpos : 0 < 10 ^ w := Nat.pow_pos (by decide)
  rw [decimal, decimal, decimal, digits_add hlt, List.map_append, Nat.mul_comm m,
    Nat.mul_add_div hpos, Nat.div_eq_of_lt hn, Nat.add_zero, Nat.mul_add_mod, Nat.mod_eq_of_lt hn]

/-- `to_iso_string` of a date. -/
def Date.toIso (d : Date) : List Char :=
  decimal 4 d.year ++ decimal 2 d.month ++ decimal 2 d.day

@[simp] theorem Date.length_toIso (d : Date) : d.toIso.length = 8 := by
  simp [Date.toIso]

theorem Date.toIso_eq (d : Date) (hyear : d.year < 10000) : d.toIso = decimal 8 d.number := by
  have hmonth := d.month_lt
  rw [toIso, decimal_append hyear hmonth]
  exact decimal_append (by omega) d.day_lt

/-- The text of a later day is later, for the first 8030 times 336 days. -/
theorem toIso_strictMonoOn :
    StrictMonoOn (fun n => (dateOfDay n).toIso) (Set.Iio (8030 * 336)) := by
  have hyear {n : ℕ} (hn : n < 8030 * 336) : (dateOfDay n).year < 10000 := by
    have hle := year_le n
    omega
  have hnumber {n : ℕ} (hn : n < 8030 * 336) : (dateOfDay n).number < 10 ^ 8 := by
    have hy := hyear hn
    have hmonth := (dateOfDay n).month_lt
    have hday := (dateOfDay n).day_lt
    unfold Date.number
    omega
  intro m hm n hn h
  change (dateOfDay m).toIso < (dateOfDay n).toIso
  rw [Date.toIso_eq _ (hyear hm), Date.toIso_eq _ (hyear hn)]
  exact decimal_strictMonoOn 8 (hnumber hm) (hnumber hn) (number_strictMono h)

/-- The hour, the minute and the second of a second of the day. -/
def timeOfDay (seconds : ℕ) : List Char :=
  decimal 2 (seconds / 3600) ++ decimal 2 (seconds / 60 % 60) ++ decimal 2 (seconds % 60)

@[simp] theorem length_timeOfDay (seconds : ℕ) : (timeOfDay seconds).length = 6 := by
  simp [timeOfDay]

theorem timeOfDay_strictMonoOn : StrictMonoOn timeOfDay (Set.Iio 86400) := by
  have hparts {k : ℕ} (hk : k ≤ 10 ^ 2) : StrictMonoOn (decimal 2) (Set.Iio k) :=
    (decimal_strictMonoOn 2).mono (Set.Iio_subset_Iio hk)
  have hminutes : StrictMonoOn (fun n => decimal 2 (n / 60) ++ decimal 2 (n % 60))
      (Set.Iio (24 * 60)) :=
    strictMonoOn_carry (hparts (by decide)) (by simp) (hparts (by decide)) (by decide)
  have hseconds := strictMonoOn_carry hminutes (by simp) (hparts (k := 60) (by decide)) (by decide)
  simp only [Nat.div_div_eq_div_mul] at hseconds
  exact hseconds

end Texts

end CrisCore.CivilDates
