import CrisCore.ModularRecords
import CrisCore.RecorderConfig
import CrisCore.RollingHelpers
import Mathlib.Data.Int.ModEq

/-! Which of the size limits that a configuration may have are no smaller, in bytes, than the
smaller ones: the product that `RollingBySizeHelper` compares with is one of 64 bits. -/
namespace CrisCore.SizeLimits
open ModularRecords RecorderConfig JsonValue

/-- The limit of some configuration that is accepted, given in it or left at its default. -/
def Accepted (sizeLimitMb : UInt64) : Prop :=
  ∃ val config, configDataParser RecorderConfig.default val = .ok config ∧ config.sizeLimitMb = sizeLimitMb

def limitBytesize (sizeLimitMb : UInt64) : UInt64 :=
  (RollingBySize.make sizeLimitMb).limitBytesize

/-- The limit in bytes is not zero and not less than that of a smaller limit. -/
def NotWrapped (sizeLimitMb : UInt64) : Prop :=
  limitBytesize sizeLimitMb ≠ 0 ∧
    ∀ smaller, Accepted smaller → smaller < sizeLimitMb →
      limitBytesize smaller ≤ limitBytesize sizeLimitMb

section Parser
variable {mb : UInt64}

theorem accepted_iff : Accepted mb ↔ mb ≠ 0 := by
  constructor
  · intro ⟨val, config, h, hmb⟩
    have hdefault : RecorderConfig.default.sizeLimitMb ≠ 0 := by decide +kernel
    rw [← hmb]
    rcases (configDataParser_ok h).2 with heq | hne
    · rw [heq]
      exact hdefault
    · exact hne
  · intro hne
    -- the smallest configuration that gives the limit
    let val : JsonValue := .object [("rolling", .string "size"), ("size_limit_mb", .uint64 mb),
      ("hostname", .string "h")]
    have hcheck : check (0 < mb) sizeErrorMsg = .ok () := by
      have hpos : 0 < mb := UInt64.pos_iff_ne_zero.mpr hne
      simp [check, hpos]
    have hrolling : parseRollingConfig RecorderConfig.default val =
        (check (0 < mb) sizeErrorMsg).bind fun _ =>
          .ok { RecorderConfig.default with rolling := .kSize, sizeLimitMb := mb } := rfl
    have hparser : configDataParser RecorderConfig.default val =
        (parseRollingConfig RecorderConfig.default val).bind fun config =>
          .ok { config with hostname := "h" } := rfl
    rw [hrolling, hcheck] at hparser
    exact ⟨val, _, hparser, rfl⟩

end Parser

/-- Up to here the product fits into 64 bits. -/
def lastExact : ℕ := 18446744073709

/-- The limits behind it whose products, wrapped around, are larger than those of all smaller
limits. -/
def laterRecords : List ℕ :=
  [36893488147419, 202914184810805, 368934881474191, 903890459611768, 1438846037749345,
    1973801615886922, 2508757194024499, 3043712772162076, 3578668350299653, 4113623928437230,
    4648579506574807, 5183535084712384, 5718490662849961, 23408918229537421, 41099345796224881,
    58789773362912341, 135269974292512142, 211750175222111943]

/-- The last of them: its product is the largest that there is. -/
def largest : ℕ := 211750175222111943

/-- The product is exact, or a record, or the largest one again. -/
def Reaches (mb : ℕ) : Prop :=
  mb ≤ lastExact ∨ mb ∈ laterRecords ∨ mb % 2 ^ 58 = largest

instance (mb : ℕ) : Decidable (Reaches mb) :=
  inferInstanceAs (Decidable (_ ∨ _ ∨ _))

section Residues

/-- A limit in bytes is a residue modulo `2 ^ 64`. -/
theorem toNat_limitBytesize (mb : UInt64) :
    (limitBytesize mb).toNat = 1000000 * mb.toNat % 18446744073709551616 := by
  change (mb * 1000000).toNat = _
  rw [UInt64.toNat_mul, Nat.mul_comm]
  rfl

-- The smallest and the largest residue along the way, each time before the largest one moves.

theorem extremes_first :
    Extremes 1000000 18446744073709551616 1 1000000 1 18446744073708551616 :=
  extremes_one (by decide)

theorem extremes_second :
    Extremes 1000000 18446744073709551616 18446744073710 448384 18446744073709 551616 :=
  (extremes_first.raise (k := 18446744073708) (by decide) (by decide)).lower (k := 1)
    (by decide) (by decide)

theorem extremes_third :
    Extremes 1000000 18446744073709551616 166020696663386 35456 36893488147419 103232 :=
  (extremes_second.raise (k := 1) (by decide) (by decide)).lower (k := 4) (by decide) (by decide)

theorem extremes_fourth :
    Extremes 1000000 18446744073709551616 534955578137577 3136 368934881474191 32320 :=
  (extremes_third.raise (k := 2) (by decide) (by decide)).lower (k := 1) (by decide) (by decide)

theorem extremes_fifth :
    Extremes 1000000 18446744073709551616 17690427566687460 256 5718490662849961 960 :=
  (extremes_fourth.raise (k := 10) (by decide) (by decide)).lower (k := 3) (by decide) (by decide)

theorem extremes_sixth :
    Extremes 1000000 18446744073709551616 76480200929599801 64 58789773362912341 192 :=
  (extremes_fifth.raise (k := 3) (by decide) (by decide)).lower (k := 1) (by decide) (by decide)

variable {x : ℕ}

theorem record_of_exact (hpos : 0 < x) (hx : x ≤ lastExact) :
    Record 1000000 18446744073709551616 x := by
  unfold lastExact at hx
  refine (extremes_first.record_iff (k := 18446744073708) (by decide) (by decide) (by decide)
    (by decide) hpos (by omega)).mpr ⟨x - 1, by omega, by omega⟩

/-- Five stretches lead from the last exact product to the largest one. -/
theorem record_iff_mem_laterRecords (hlt : lastExact < x) (hx : x ≤ largest) :
    Record 1000000 18446744073709551616 x ↔ x ∈ laterRecords := by
  unfold lastExact at hlt
  unfold largest at hx
  by_cases h2 : x ≤ 36893488147419
  · exact extremes_second.record_iff_mem (k := 1) (by decide) (by decide) (by decide) (by decide)
      (by decide) (by decide) hlt h2
  by_cases h3 : x ≤ 368934881474191
  · exact extremes_third.record_iff_mem (k := 2) (by decide) (by decide) (by decide) (by decide)
      (by decide) (by decide) (by omega) h3
  by_cases h4 : x ≤ 5718490662849961
  · exact extremes_fourth.record_iff_mem (k := 10) (by decide) (by decide) (by decide) (by decide)
      (by decide) (by decide) (by omega) h4
  by_cases h5 : x ≤ 58789773362912341
  · exact extremes_fifth.record_iff_mem (k := 3) (by decide) (by decide) (by decide) (by decide)
      (by decide) (by decide) (by omega) h5
  · exact extremes_sixth.record_iff_mem (k := 2) (by decide) (by decide) (by decide) (by decide)
      (by decide) (by decide) (by omega) hx

/-- All products are multiples of 64, so none is larger. -/
theorem residue_le_largest (y : ℕ) :
    1000000 * y % 18446744073709551616 ≤ 1000000 * largest % 18446744073709551616 := by
  have htop : 1000000 * largest % 18446744073709551616 = 18446744073709551552 := by decide
  have hlt := Nat.mod_lt (1000000 * y) (show 0 < 18446744073709551616 by decide)
  have hdvd : 64 ∣ 1000000 * y % 18446744073709551616 :=
    (Nat.dvd_mod_iff (by decide)).mpr (Nat.dvd_mul_right_of_dvd (by decide) y)
  rw [htop]
  obtain ⟨c, hc⟩ := hdvd
  rw [hc] at hlt ⊢
  omega

theorem residue_eq_largest_iff :
    1000000 * x % 18446744073709551616 = 1000000 * largest % 18446744073709551616 ↔
      x % 2 ^ 58 = largest := by
  have hgcd : Nat.gcd 18446744073709551616 1000000 = 64 := by decide
  constructor
  · intro heq
    have hcancel : x ≡ largest [MOD 18446744073709551616 / Nat.gcd 18446744073709551616 1000000] :=
      Nat.ModEq.cancel_left_div_gcd (by decide) heq
    rw [hgcd] at hcancel
    exact hcancel
  · intro heq
    have hmod : x ≡ largest [MOD 2 ^ 58] := heq
    have hmul : 1000000 * x ≡ 1000000 * largest [MOD 1000000 * 2 ^ 58] := hmod.mul_left' 1000000
    exact hmul.of_dvd (by decide)

theorem record_iff_reaches (hpos : 0 < x) :
    Record 1000000 18446744073709551616 x ↔ Reaches x := by
  unfold Reaches
  by_cases hexact : x ≤ lastExact
  · exact iff_of_true (record_of_exact hpos hexact) (Or.inl hexact)
  · rw [or_iff_right hexact]
    by_cases hx : x ≤ largest
    · rw [record_iff_mem_laterRecords (by omega) hx]
      constructor
      · exact Or.inl
      · intro h
        refine h.elim id fun hmod => ?_
        -- below `2 ^ 58` the largest one comes once
        unfold largest at *
        rw [Nat.mod_eq_of_lt (by omega)] at hmod
        rw [hmod]
        decide
    · rw [record_iff_of_top (by decide) residue_le_largest (by omega), residue_eq_largest_iff]
      constructor
      · exact Or.inr
      · intro h
        refine h.elim (fun hmem => ?_) id
        have hbound : ∀ n ∈ laterRecords, n ≤ largest := by decide
        exact absurd (hbound x hmem) hx

end Residues

/-- Of the limits that a configuration may have, those that are exact in 64 bits and a few behind
them reach all that smaller ones give. -/
theorem notWrapped_iff (mb : UInt64) (h : Accepted mb) : NotWrapped mb ↔ Reaches mb.toNat := by
  have hne : mb ≠ 0 := accepted_iff.mp h
  have hpos : 0 < mb.toNat := by
    rw [Nat.pos_iff_ne_zero]
    exact fun h0 => hne (UInt64.toNat_inj.mp h0)
  rw [← record_iff_reaches hpos]
  constructor
  · intro ⟨_, hall⟩ y hy hlt
    have hy64 : y < 2 ^ 64 := hlt.trans mb.toNat_lt
    have hval : (UInt64.ofNat y).toNat = y := by
      rw [UInt64.toNat_ofNat']
      exact Nat.mod_eq_of_lt hy64
    have haccepted : Accepted (UInt64.ofNat y) := by
      refine accepted_iff.mpr fun h0 => ?_
      rw [h0] at hval
      exact absurd hval.symm (Nat.pos_iff_ne_zero.mp hy)
    have hle := hall _ haccepted (UInt64.lt_iff_toNat_lt.mpr (by rw [hval]; exact hlt))
    rw [UInt64.le_iff_toNat_le, toNat_limitBytesize, toNat_limitBytesize, hval] at hle
    exact hle
  · intro hrec
    constructor
    · intro h0
      -- the residue of one, which is not zero, is reached
      have hzero := congrArg UInt64.toNat h0
      rw [toNat_limitBytesize, UInt64.toNat_zero] at hzero
      by_cases hone : mb.toNat = 1
      · rw [hone] at hzero
        exact absurd hzero (by decide)
      · have hle := hrec 1 Nat.one_pos (Nat.lt_of_le_of_ne hpos (Ne.symm hone))
        rw [hzero] at hle
        exact absurd hle (by decide)
    · intro smaller hsmaller hlt
      have hpos' : 0 < smaller.toNat := by
        rw [Nat.pos_iff_ne_zero]
        exact fun h0 => accepted_iff.mp hsmaller (UInt64.toNat_inj.mp h0)
      rw [UInt64.le_iff_toNat_le, toNat_limitBytesize, toNat_limitBytesize]
      exact hrec _ hpos' (UInt64.lt_iff_toNat_lt.mp hlt)

/-- The first limit that is too large. -/
theorem notWrapped_iff_afterLastExact :
    NotWrapped 18446744073710 ↔ Reaches (18446744073710 : UInt64).toNat :=
  notWrapped_iff 18446744073710 (accepted_iff.mpr (by decide))

/-- The default gives less than the last limit that is exact. -/
theorem default_limit_wraps : ¬ ∀ mb, Accepted mb → NotWrapped mb := by
  intro hall
  have hdefault : RecorderConfig.default.sizeLimitMb ≠ 0 := by decide +kernel
  have hle := (hall _ (accepted_iff.mpr hdefault)).2 18446744073709
    (accepted_iff.mpr (by decide)) (by decide +kernel)
  exact absurd hle (by decide +kernel)

example : limitBytesize (2 ^ 58) = 0 := by decide +kernel

end CrisCore.SizeLimits
