import Mathlib.Algebra.Group.Action.Defs
import Mathlib.Algebra.BigOperators.Group.List.Basic
import Mathlib.Algebra.Order.BigOperators.Group.List
import Mathlib.Algebra.Order.Ring.Nat
import Mathlib.Data.List.FinRange
import Mathlib.Data.List.Sort
import Mathlib.Order.Fin.Basic

/-! The entries of a list by rank: its k-th smallest one, how many entries have a small key, and
rounded means. -/
namespace CrisCore.RankedLists

/-- Where a property holds of an entry only if it holds of those before it, the number of entries
that have it says which these are. -/
theorem holds_iff_lt_countP {α : Type*} {P : α → Bool} {l : List α}
    (h : l.Pairwise fun x y => P y = true → P x = true) {k : ℕ} {x : α} (hk : l[k]? = some x) :
    P x = true ↔ k < l.countP P := by
  induction l generalizing k with
  | nil => cases hk
  | cons a l ih =>
    obtain ⟨hfirst, hrest⟩ := List.pairwise_cons.mp h
    by_cases ha : P a = true
    · rw [List.countP_cons_of_pos ha]
      cases k with
      | zero =>
        cases hk
        simp [ha]
      | succ k =>
        rw [ih hrest hk]
        omega
    · have hnone : l.countP P = 0 := List.countP_eq_zero.mpr fun y hy hPy => ha (hfirst y hy hPy)
      have hx : ¬ P x = true := by
        cases k with
        | zero =>
          cases hk
          exact ha
        | succ k => exact fun hPx => ha (hfirst x (List.mem_of_getElem? hk) hPx)
      rw [List.countP_cons_of_neg ha, hnone]
      exact iff_of_false hx (Nat.not_lt_zero k)

/-- The elements with such a property come first. -/
theorem filter_append_filter {α : Type*} {P : α → Bool} {l : List α}
    (h : l.Pairwise fun x y => P y = true → P x = true) :
    l.filter P ++ l.filter (fun x => !P x) = l := by
  induction l with
  | nil => rfl
  | cons a l ih =>
    obtain ⟨hfirst, hrest⟩ := List.pairwise_cons.mp h
    by_cases ha : P a = true
    · rw [List.filter_cons_of_pos ha, List.filter_cons_of_neg (by simp [ha]), List.cons_append,
        ih hrest]
    · have hnone : l.filter P = [] :=
        List.filter_eq_nil_iff.mpr fun y hy hPy => ha (hfirst y hy hPy)
      have hall : l.filter (fun x => !P x) = l := by
        have hsplit := ih hrest
        rwa [hnone, List.nil_append] at hsplit
      rw [List.filter_cons_of_neg ha, hnone, List.filter_cons_of_pos (by simp [ha]), hall,
        List.nil_append]

/-- A list in the order of its keys consists of the groups of its keys, one after the other. -/
theorem flatMap_filter_eq {α κ : Type*} [PartialOrder κ] [DecidableEq κ] {k : α → κ} {l : List α}
    {keys : List κ} (h : l.Pairwise fun a b => k a ≤ k b) (hkeys : keys.Pairwise (· < ·))
    (hmem : ∀ a ∈ l, k a ∈ keys) : keys.flatMap (fun x => l.filter fun a => k a = x) = l := by
  induction keys generalizing l with
  | nil =>
    cases l with
    | nil => rfl
    | cons a l => cases hmem a List.mem_cons_self
  | cons x keys ih =>
    obtain ⟨hleast, hrest⟩ := List.pairwise_cons.mp hkeys
    have hsplit : l.filter (fun a => k a = x) ++ l.filter (fun a => !decide (k a = x)) = l := by
      refine filter_append_filter (h.imp_of_mem fun {a b} ha hb hab hbx => ?_)
      rw [decide_eq_true_eq] at hbx ⊢
      rcases List.mem_cons.mp (hmem a ha) with hax | hax
      · exact hax
      · exact absurd ((hleast _ hax).trans_le (hab.trans_eq hbx)) (lt_irrefl x)
    have hothers := ih (h.filter fun a => !decide (k a = x)) hrest fun a ha => by
      obtain ⟨hal, hax⟩ := List.mem_filter.mp ha
      exact (List.mem_cons.mp (hmem a hal)).resolve_left (by simpa using hax)
    -- the groups of the other keys are the same without those of the first
    have hsame : keys.flatMap (fun y => (l.filter fun a => !decide (k a = x)).filter
        fun a => k a = y) = keys.flatMap fun y => l.filter fun a => k a = y := by
      refine List.flatMap_congr fun y hy => ?_
      rw [List.filter_filter]
      refine List.filter_congr fun a _ => ?_
      by_cases hay : k a = y
      · have hne : y ≠ x := (hleast y hy).ne'
        simp [hay, hne]
      · simp [hay]
    rw [List.flatMap_cons, ← hsame, hothers, hsplit]

section Smallest
variable {α : Type*} [LinearOrder α] {l : List α} {k : ℕ} {x : α}

def kthSmallest (l : List α) (k : ℕ) : Option α :=
  (l.insertionSort (· ≤ ·))[k - 1]?

theorem exists_kthSmallest (hpos : 0 < k) (hk : k ≤ l.length) :
    ∃ x, kthSmallest l k = some x := by
  have hlt : k - 1 < (l.insertionSort (· ≤ ·)).length := by
    rw [List.length_insertionSort]
    omega
  exact ⟨_, List.getElem?_eq_getElem hlt⟩

theorem mem_of_kthSmallest (h : kthSmallest l k = some x) : x ∈ l :=
  (List.mem_insertionSort _).mp (List.mem_of_getElem? h)

theorem kthSmallest_mono {k' : ℕ} {y : α} (hkk : k ≤ k') (hx : kthSmallest l k = some x)
    (hy : kthSmallest l k' = some y) : x ≤ y := by
  obtain ⟨hk, rfl⟩ := List.getElem?_eq_some_iff.mp hx
  obtain ⟨hk', rfl⟩ := List.getElem?_eq_some_iff.mp hy
  exact (List.pairwise_insertionSort (· ≤ ·) l).sortedLE.getElem_le_getElem_of_le (by omega)

/-- What goes downward holds of it exactly when it holds of `k` entries. -/
theorem kthSmallest_holds_iff {P : α → Bool} (hP : ∀ x y, x ≤ y → P y = true → P x = true)
    (hpos : 0 < k) (hx : kthSmallest l k = some x) : P x = true ↔ k ≤ l.countP P := by
  have hsorted : (l.insertionSort (· ≤ ·)).Pairwise fun x y => P y = true → P x = true :=
    (List.pairwise_insertionSort (· ≤ ·) l).imp fun {x y} hxy => hP x y hxy
  have hiff := holds_iff_lt_countP hsorted hx
  rw [(List.perm_insertionSort (· ≤ ·) l).countP_eq] at hiff
  rw [hiff]
  omega

end Smallest

/-- Of the entries with a key up to `i`, those with the key `i` are apart. -/
theorem countP_lt_succ {α : Type*} {n : ℕ} (f : α → Fin n) (l : List α) {i : ℕ} (hi : i < n) :
    l.countP (fun a => (f a).val < i + 1) =
      l.countP (fun a => (f a).val < i) + l.countP fun a => f a = ⟨i, hi⟩ := by
  induction l with
  | nil => rfl
  | cons a l ih =>
    have hkey : f a = ⟨i, hi⟩ ↔ (f a).val = i := Fin.ext_iff
    simp only [List.countP_cons, ih, decide_eq_true_eq, hkey]
    rcases Nat.lt_trichotomy (f a).val i with h | h | h
    · rw [if_pos (by omega), if_pos h, if_neg (by omega)]
      omega
    · rw [if_pos (by omega), if_neg (by omega), if_pos h]
      omega
    · rw [if_neg (by omega), if_neg (by omega), if_neg (by omega)]
      omega

/-- The counts of the first keys, added up, count the entries with a smaller key. -/
theorem sum_take_countP {α : Type*} {n : ℕ} (f : α → Fin n) (l : List α) {i : ℕ} (hi : i ≤ n) :
    (((List.finRange n).take i).map fun b => l.countP fun a => f a = b).sum =
      l.countP fun a => (f a).val < i := by
  induction i with
  | zero => simp
  | succ i ih =>
    have hlt : i < (List.finRange n).length := by
      rw [List.length_finRange]
      exact hi
    rw [List.take_succ_eq_append_getElem hlt, List.map_append, List.sum_append, ih (by omega),
      countP_lt_succ f l hi]
    simp

theorem sum_div_length_le {l : List ℕ} {m : ℕ} (h : ∀ x ∈ l, x ≤ m) : l.sum / l.length ≤ m := by
  have hsum : l.sum ≤ l.length * m := by
    have hle := List.sum_le_card_nsmul l m h
    rwa [smul_eq_mul] at hle
  exact Nat.div_le_of_le_mul hsum

theorem le_sum_div_length {l : List ℕ} {m : ℕ} (hne : l ≠ []) (h : ∀ x ∈ l, m ≤ x) :
    m ≤ l.sum / l.length := by
  have hsum : l.length * m ≤ l.sum := by
    have hle := List.card_nsmul_le_sum l m h
    rwa [smul_eq_mul] at hle
  apply (Nat.le_div_iff_mul_le (List.length_pos_iff.mpr hne)).mpr
  rwa [Nat.mul_comm]

end CrisCore.RankedLists
