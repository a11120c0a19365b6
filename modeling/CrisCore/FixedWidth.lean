import Mathlib.Data.Nat.Basic
import Mathlib.Data.List.Basic
import Mathlib.Data.List.Induction
import Mathlib.Data.Nat.Digits.Defs
import Mathlib.Order.Compare
import Mathlib.Tactic.Ring

/-! Numbers written with a fixed number of digits, most significant digit first: the byte order of
the texts is the order of the numbers. -/
namespace CrisCore.FixedWidth

def digits (b : ℕ) : ℕ → ℕ → List ℕ
  | 0, _ => []
  | w + 1, n => n / b ^ w :: digits b w (n % b ^ w)

/-- Read digits, most significant first, after those already read into `acc`. -/
def readDigits (b : ℕ) (acc : ℕ) (ds : List ℕ) : ℕ :=
  ds.foldl (fun a d => a * b + d) acc

theorem length_digits (b w n : ℕ) : (digits b w n).length = w := by
  induction w generalizing n with
  | zero => rfl
  | succ w ih => simp [digits, ih]

theorem pow_pos_of_lt {b w n : ℕ} (hn : n < b ^ (w + 1)) : 0 < b ^ w := by
  refine Nat.pos_of_ne_zero fun h => ?_
  rw [Nat.pow_succ, h] at hn
  omega

theorem lt_of_mem_digits {b w n d : ℕ} (hn : n < b ^ w) (hd : d ∈ digits b w n) : d < b := by
  induction w generalizing n with
  | zero => simp [digits] at hd
  | succ w ih =>
    have hb : 0 < b ^ w := pow_pos_of_lt hn
    rcases List.mem_cons.mp hd with rfl | hd
    · exact Nat.div_lt_of_lt_mul (by rwa [Nat.pow_succ] at hn)
    · exact ih (Nat.mod_lt _ hb) hd

/-- The high digits are those of the quotient, the low ones those of the remainder. -/
theorem digits_add {b v w n : ℕ} (hn : n < b ^ (v + w)) :
    digits b (v + w) n = digits b v (n / b ^ w) ++ digits b w (n % b ^ w) := by
  induction v generalizing n with
  | zero =>
    rw [Nat.zero_add] at hn ⊢
    rw [Nat.mod_eq_of_lt hn]
    rfl
  | succ v ih =>
    rw [Nat.add_right_comm] at hn ⊢
    have hpos : 0 < b ^ (v + w) := pow_pos_of_lt hn
    have hquot : n % b ^ (v + w) / b ^ w = n / b ^ w % b ^ v := by
      rw [Nat.pow_add, Nat.mul_comm, Nat.mod_mul_right_div_self]
    have hrem : n % b ^ (v + w) % b ^ w = n % b ^ w :=
      Nat.mod_mod_of_dvd n (Nat.pow_dvd_pow b (Nat.le_add_left w v))
    have hhead : n / b ^ (v + w) = n / b ^ w / b ^ v := by
      rw [Nat.div_div_eq_div_mul, Nat.pow_add, Nat.mul_comm]
    rw [digits, ih (Nat.mod_lt _ hpos), hquot, hrem, hhead]
    rfl

theorem readDigits_digits (b w n acc : ℕ) (hn : n < b ^ w) :
    readDigits b acc (digits b w n) = acc * b ^ w + n := by
  induction w generalizing n acc with
  | zero =>
    have h : n = 0 := by simpa using hn
    simp [readDigits, digits, h]
  | succ w ih =>
    have hb : 0 < b ^ w := pow_pos_of_lt hn
    have hdm := Nat.div_add_mod n (b ^ w)
    calc readDigits b acc (digits b (w + 1) n)
        = readDigits b (acc * b + n / b ^ w) (digits b w (n % b ^ w)) := rfl
      _ = (acc * b + n / b ^ w) * b ^ w + n % b ^ w := ih _ _ (Nat.mod_lt _ hb)
      _ = acc * b ^ (w + 1) + (b ^ w * (n / b ^ w) + n % b ^ w) := by ring
      _ = acc * b ^ (w + 1) + n := by rw [hdm]

/-- The value of digits read from nothing. -/
theorem readDigits_eq_ofDigits (b : ℕ) (ds : List ℕ) :
    readDigits b 0 ds = Nat.ofDigits b ds.reverse := by
  induction ds using List.reverseRecOn with
  | nil => rfl
  | append_singleton ds d ih =>
    simp only [readDigits, List.foldl_append, List.foldl_cons, List.foldl_nil] at ih ⊢
    rw [ih, List.reverse_append, List.reverse_singleton, List.singleton_append, Nat.ofDigits_cons]
    ring

theorem compare_div_mod {k : ℕ} (hk : 0 < k) (m n : ℕ) :
    (compare (m / k) (n / k)).then (compare (m % k) (n % k)) = compare m n := by
  have hm := Nat.div_add_mod m k
  have hn := Nat.div_add_mod n k
  have hmk := Nat.mod_lt m hk
  have hnk := Nat.mod_lt n hk
  rcases lt_trichotomy (m / k) (n / k) with h | h | h
  · have hle : k * (m / k + 1) ≤ k * (n / k) := Nat.mul_le_mul_left k h
    have hlt : m < n := by
      rw [Nat.mul_succ] at hle
      omega
    rw [compare_lt_iff_lt.mpr h, compare_lt_iff_lt.mpr hlt]
    rfl
  · rw [compare_eq_iff_eq.mpr h, Ordering.then]
    rw [h] at hm
    rcases lt_trichotomy (m % k) (n % k) with h' | h' | h'
    · rw [compare_lt_iff_lt.mpr h', compare_lt_iff_lt.mpr (by omega)]
    · rw [compare_eq_iff_eq.mpr h', compare_eq_iff_eq.mpr (by omega)]
    · rw [compare_gt_iff_gt.mpr h', compare_gt_iff_gt.mpr (by omega)]
  · have hle : k * (n / k + 1) ≤ k * (m / k) := Nat.mul_le_mul_left k h
    have hlt : n < m := by
      rw [Nat.mul_succ] at hle
      omega
    rw [compare_gt_iff_gt.mpr h, compare_gt_iff_gt.mpr hlt]
    rfl

/-- Digit strings of one width compare like the numbers. -/
theorem compareLex_digits {b w m n : ℕ} (hm : m < b ^ w) (hn : n < b ^ w) :
    List.compareLex compare (digits b w m) (digits b w n) = compare m n := by
  induction w generalizing m n with
  | zero =>
    have hm0 : m = 0 := by simpa using hm
    have hn0 : n = 0 := by simpa using hn
    rw [hm0, hn0]
    rfl
  | succ w ih =>
    have hb : 0 < b ^ w := pow_pos_of_lt hn
    rw [digits, digits, List.compareLex_cons_cons, ih (Nat.mod_lt _ hb) (Nat.mod_lt _ hb),
      compare_div_mod hb]

/-- Texts with a common first part of equal length compare by the rest. -/
theorem compareLex_append {α : Type*} {cmp : α → α → Ordering} {l l' : List α}
    (h : l.length = l'.length) (r r' : List α) :
    List.compareLex cmp (l ++ r) (l' ++ r') =
      (List.compareLex cmp l l').then (List.compareLex cmp r r') := by
  induction l generalizing l' with
  | nil =>
    cases l' with
    | nil => rfl
    | cons y l' => cases h
  | cons x l ih =>
    cases l' with
    | nil => cases h
    | cons y l' =>
      simp only [List.cons_append, List.compareLex_cons_cons, ih (Nat.succ.inj h)]
      cases cmp x y <;> rfl

/-- An encoding of the elements that keeps their order keeps the order of the lists. -/
theorem compareLex_map {α β : Type*} {cmp : α → α → Ordering} {cmp' : β → β → Ordering}
    {f : α → β} {l l' : List α} (h : ∀ a ∈ l, ∀ b ∈ l', cmp' (f a) (f b) = cmp a b) :
    List.compareLex cmp' (l.map f) (l'.map f) = List.compareLex cmp l l' := by
  induction l generalizing l' with
  | nil => cases l' <;> rfl
  | cons x l ih =>
    cases l' with
    | nil => rfl
    | cons y l' =>
      simp only [List.map_cons, List.compareLex_cons_cons]
      rw [h x (by simp) y (by simp), ih fun a ha b hb => h a (by simp [ha]) b (by simp [hb])]

end CrisCore.FixedWidth
