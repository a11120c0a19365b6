import CrisCore.CivilDates
import CrisCore.MessageRecorder
import CrisCore.RollingHelpers

/-! The texts of `GetCurrentUtcTime`, which a date library prints, and the names of databases made
of them. What the recorder needs of the library is that its texts ascend with the second. -/
namespace CrisCore.UtcTime
open CivilDates FixedWidth

/-- The range of `std::chrono::system_clock::time_point` from the epoch on. -/
def InRange (t : ℤ) : Prop :=
  0 ≤ t ∧ t < 2 ^ 63

instance (t : ℤ) : Decidable (InRange t) :=
  inferInstanceAs (Decidable (_ ∧ _))

/-- `GetCurrentUtcTime` for each time that `second_clock` may read: texts of one length in the ISO
form, of which that of a later second is greater. -/
structure UtcTexts where
  getCurrentUtcTime : ℤ → String
  length_eq : ∀ x y, InRange x → InRange y →
    (getCurrentUtcTime x).length = (getCurrentUtcTime y).length
  lt_of_second_lt : ∀ x y, InRange x → InRange y → x / seconds < y / seconds →
    getCurrentUtcTime x < getCurrentUtcTime y

def defaultLevelDBDir (texts : UtcTexts) (now : ℤ) : String :=
  texts.getCurrentUtcTime now ++ kLevelDBDirSuffix

section Texts
variable {x y : ℤ}

theorem defaultLevelDBDir_lt (texts : UtcTexts) (hx : InRange x) (hy : InRange y)
    (h : x / seconds < y / seconds) : defaultLevelDBDir texts x < defaultLevelDBDir texts y := by
  have hlt := texts.lt_of_second_lt x y hx hy h
  have hlen := texts.length_eq x y hx hy
  rw [String.lt_iff_toList_lt] at hlt ⊢
  rw [defaultLevelDBDir, defaultLevelDBDir, String.toList_append, String.toList_append]
  exact append_lt_append hlt (by rwa [String.length_toList, String.length_toList]) _ _

/-- The seconds that `second_clock` counts. -/
def unixTime (now : ℤ) : ℕ :=
  (now / seconds).toNat

/-- The time of a second since the epoch in the civil calendar. -/
def civilTime (second : ℕ) : List Char :=
  (dateOfDay (second / 86400)).toIso ++ 'T' :: timeOfDay (second % 86400)

theorem length_civilTime (second : ℕ) : (civilTime second).length = 15 := by
  simp [civilTime]

theorem civilTime_strictMonoOn : StrictMonoOn civilTime (Set.Iio (8030 * 336 * 86400)) := by
  have hsign : StrictMonoOn (fun n => 'T' :: timeOfDay n) (Set.Iio 86400) :=
    fun m hm n hn h => append_lt_append_left ['T'] (timeOfDay_strictMonoOn hm hn h)
  exact strictMonoOn_carry toIso_strictMonoOn (by simp) hsign (by decide)

theorem unixTime_lt (h : InRange x) : unixTime x < 8030 * 336 * 86400 := by
  have hle : x / seconds ≤ 2 ^ 63 / seconds := Int.ediv_le_ediv (by decide) h.2.le
  have hpos : 0 ≤ x / seconds := Int.ediv_nonneg h.1 (by decide)
  have hmax : (2 : ℤ) ^ 63 / seconds < 8030 * 336 * 86400 := by decide
  unfold unixTime
  omega

/-- The texts of the civil calendar are such texts. -/
def civilTexts : UtcTexts where
  getCurrentUtcTime now := .ofList (civilTime (unixTime now))
  length_eq x y _ _ := by simp [length_civilTime]
  lt_of_second_lt x y hx hy h := by
    have hpos : 0 ≤ x / seconds := Int.ediv_nonneg hx.1 (by decide)
    have hlt : unixTime x < unixTime y := by
      unfold unixTime
      omega
    rw [String.lt_iff_toList_lt, String.toList_ofList, String.toList_ofList]
    exact civilTime_strictMonoOn (unixTime_lt hx) (unixTime_lt hy) hlt

end Texts

end CrisCore.UtcTime
