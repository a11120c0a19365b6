import Mathlib.Data.Nat.Basic

/-! The residues of the multiples of a number, in the order in which they come: when the smallest
and the largest one so far are reached. The two times move as in the Euclidean algorithm. -/
namespace CrisCore.ModularRecords
variable {a q low m high g : ℕ}

/-- `m` is the residue at `low`, and no other one before `low + high` is smaller; that at `high` is
`g` below the modulus, and no other one before is larger. -/
structure Extremes (a q low m high g : ℕ) : Prop where
  at_low : a * low % q = m
  at_high : a * high % q + g = q
  between : ∀ j, 0 < j → j < low + high → m ≤ a * j % q ∧ a * j % q + g ≤ q

/-- No residue before is larger. -/
def Record (a q x : ℕ) : Prop :=
  ∀ y, 0 < y → y < x → a * y % q ≤ a * x % q

/-- The residue of a sum is the sum of the residues, or a modulus less. -/
theorem residue_add (hq : 0 < q) (i j : ℕ) :
    a * (i + j) % q = a * i % q + a * j % q ∨ a * (i + j) % q + q = a * i % q + a * j % q := by
  have hi := Nat.mod_lt (a * i) hq
  have hj := Nat.mod_lt (a * j) hq
  rw [Nat.mul_add, Nat.add_mod]
  generalize a * i % q = r at *
  generalize a * j % q = s at *
  by_cases hlt : r + s < q
  · exact Or.inl (Nat.mod_eq_of_lt hlt)
  · refine Or.inr ?_
    rw [Nat.mod_eq_sub_mod (by omega), Nat.mod_eq_of_lt (by omega)]
    omega

theorem step_pos {x k : ℕ} (hlt : high < x) (hx : x ≤ high + k * low) : 0 < low := by
  rcases Nat.eq_zero_or_pos low with h0 | hpos
  · rw [h0, Nat.mul_zero] at hx
    omega
  · exact hpos

namespace Extremes

/-- The sum of the two times has a larger residue than all before if the smallest one is less than
what the largest one lacks. -/
theorem raise_once (hq : 0 < q) (h : Extremes a q low m high g) (hlt : m < g) :
    Extremes a q low m (high + low) (g - m) := by
  obtain ⟨hlow, hhigh, hbetween⟩ := h
  have hsum : a * (high + low) % q + (g - m) = q := by
    rcases residue_add (a := a) hq high low with hs | hs <;> omega
  refine ⟨hlow, hsum, fun j hpos hj => ?_⟩
  rcases Nat.lt_trichotomy j (low + high) with hlt' | heq | hgt
  · have hold := hbetween j hpos hlt'
    omega
  · rw [heq, Nat.add_comm low high]
    omega
  -- a new time is an old one and `low`
  · have hold := hbetween (j - low) (by omega) (by omega)
    have hadd := residue_add (a := a) hq low (j - low)
    rw [Nat.add_sub_of_le (by omega), hlow] at hadd
    omega

/-- Otherwise it has a residue that is smaller than all before, or as small. -/
theorem lower_once (hq : 0 < q) (h : Extremes a q low m high g) (hle : g ≤ m) :
    Extremes a q (low + high) (m - g) high g := by
  obtain ⟨hlow, hhigh, hbetween⟩ := h
  have hmod := Nat.mod_lt (a * (low + high)) hq
  have hm := Nat.mod_lt (a * low) hq
  have hsum : a * (low + high) % q = m - g := by
    rcases residue_add (a := a) hq low high with hs | hs <;> omega
  refine ⟨hsum, hhigh, fun j hpos hj => ?_⟩
  rcases Nat.lt_trichotomy j (low + high) with hlt | heq | hgt
  · have hold := hbetween j hpos hlt
    omega
  · rw [heq]
    omega
  · have hold := hbetween (j - high) (by omega) (by omega)
    have hadd := residue_add (a := a) hq high (j - high)
    have hlt := Nat.mod_lt (a * j) hq
    rw [Nat.add_sub_of_le (by omega)] at hadd
    omega

theorem raise (hq : 0 < q) (h : Extremes a q low m high g) {k : ℕ} (hk : k * m < g) :
    Extremes a q low m (high + k * low) (g - k * m) := by
  induction k with
  | zero => simpa using h
  | succ k ih =>
    rw [Nat.succ_mul] at hk
    have hnext := (ih (by omega)).raise_once hq (by omega)
    rw [Nat.succ_mul, Nat.succ_mul, ← Nat.add_assoc, Nat.sub_add_eq]
    exact hnext

theorem lower (hq : 0 < q) (h : Extremes a q low m high g) {k : ℕ} (hk : k * g ≤ m) :
    Extremes a q (low + k * high) (m - k * g) high g := by
  induction k with
  | zero => simpa using h
  | succ k ih =>
    rw [Nat.succ_mul] at hk
    have hnext := (ih (by omega)).lower_once hq (by omega)
    rw [Nat.succ_mul, Nat.succ_mul, ← Nat.add_assoc, Nat.sub_add_eq]
    exact hnext

theorem record_high (h : Extremes a q low m high g) : Record a q high := by
  intro y hpos hlt
  have hy := h.between y hpos (by omega)
  have hhigh := h.at_high
  omega

theorem not_record (hq : 0 < q) (h : Extremes a q low m high g) (hm : 0 < m) (hhigh : 0 < high)
    {x : ℕ} (hlt : high < x) (hx : x < low + high) : ¬ Record a q x := by
  intro hrec
  have hle := hrec high hhigh hlt
  have hbound := h.between x (by omega) hx
  have hgap := h.between (x - high) (by omega) (by omega)
  have hmod := Nat.mod_lt (a * (x - high)) hq
  have hat := h.at_high
  -- two equal residues would leave zero for the time between them
  have hadd := residue_add (a := a) hq high (x - high)
  rw [Nat.add_sub_of_le (by omega)] at hadd
  omega

/-- From one largest residue to the smallest one that follows, the records come in equal steps. -/
theorem record_iff (hq : 0 < q) (h : Extremes a q low m high g) (hm : 0 < m) (hhigh : 0 < high)
    {k x : ℕ} (hk : k * m < g) (hle : high ≤ x) (hx : x < high + (k + 1) * low) :
    Record a q x ↔ ∃ j ≤ k, x = high + j * low := by
  constructor
  · intro hrec
    have hlow : 0 < low := step_pos (Nat.lt_succ_of_le hle) hx
    have hdiv := Nat.div_add_mod' (x - high) low
    have hrem := Nat.mod_lt (x - high) hlow
    have hj : (x - high) / low ≤ k := by
      have hquot : (x - high) / low < k + 1 := (Nat.div_lt_iff_lt_mul hlow).mpr (by omega)
      omega
    have hjm : (x - high) / low * m < g := lt_of_le_of_lt (Nat.mul_le_mul_right m hj) hk
    refine ⟨_, hj, ?_⟩
    by_contra hne
    exact (h.raise hq hjm).not_record hq hm (by omega) (by omega) (by omega) hrec
  · intro ⟨j, hj, hxj⟩
    have hjm : j * m < g := lt_of_le_of_lt (Nat.mul_le_mul_right m hj) hk
    rw [hxj]
    exact (h.raise hq hjm).record_high

/-- The records of such a stretch, once they are written down. -/
theorem record_iff_mem (hq : 0 < q) (h : Extremes a q low m high g) (hm : 0 < m)
    (hhigh : 0 < high) {k x : ℕ} {records : List ℕ} (hk : k * m < g)
    (hin : ∀ j ≤ k, 0 < j → high + j * low ∈ records)
    (hout : ∀ n ∈ records, high < n → n ≤ high + k * low → ∃ j ≤ k, n = high + j * low)
    (hlt : high < x) (hx : x ≤ high + k * low) : Record a q x ↔ x ∈ records := by
  have hlow : 0 < low := step_pos hlt hx
  have hnext : x < high + (k + 1) * low := by
    rw [Nat.succ_mul]
    omega
  rw [h.record_iff hq hm hhigh hk (Nat.le_of_lt hlt) hnext]
  constructor
  · intro ⟨j, hj, hxj⟩
    have hpos : 0 < j := by
      rcases Nat.eq_zero_or_pos j with h0 | hpos
      · rw [h0, Nat.zero_mul] at hxj
        omega
      · exact hpos
    rw [hxj]
    exact hin j hj hpos
  · intro hmem
    exact hout x hmem hlt hx

end Extremes

/-- The first two residues. -/
theorem extremes_one (ha : a < q) : Extremes a q 1 a 1 (q - a) := by
  have hres : a * 1 % q = a := by rw [Nat.mul_one, Nat.mod_eq_of_lt ha]
  refine ⟨hres, by omega, fun j hpos hj => ?_⟩
  obtain rfl : j = 1 := by omega
  omega

/-- Behind the largest residue of all the records are where it comes again. -/
theorem record_iff_of_top {top : ℕ} (htop : 0 < top) (hall : ∀ y, a * y % q ≤ a * top % q) {x : ℕ}
    (hx : top ≤ x) : Record a q x ↔ a * x % q = a * top % q := by
  constructor
  · intro hrec
    rcases Nat.eq_or_lt_of_le hx with rfl | hlt
    · rfl
    · exact Nat.le_antisymm (hall x) (hrec top htop hlt)
  · intro heq y _ _
    rw [heq]
    exact hall y

end CrisCore.ModularRecords
