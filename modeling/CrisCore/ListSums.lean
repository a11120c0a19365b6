import Mathlib.Algebra.BigOperators.Group.List.Basic
import Mathlib.Algebra.GroupWithZero.Nat
import Mathlib.Data.List.Perm.Basic
import Mathlib.Data.List.Perm.Subperm

/-! What the entries of a list add up to when one of them is replaced or taken out. Nothing is
subtracted, so that the quantities may be of any commutative monoid, a maximum included. -/
namespace CrisCore.ListSums
variable {ι M : Type*} [AddCommMonoid M] (f : ι → M) {l : List ι} {k : ℕ} {x : ι}

theorem sum_map_eraseIdx (hk : l[k]? = some x) :
    ((l.eraseIdx k).map f).sum + f x = (l.map f).sum := by
  obtain ⟨hlt, rfl⟩ := List.getElem?_eq_some_iff.mp hk
  have hperm := ((List.getElem_cons_eraseIdx_perm hlt).map f).sum_eq
  rw [List.map_cons, List.sum_cons] at hperm
  rw [add_comm]
  exact hperm

theorem sum_map_set (hk : l[k]? = some x) (y : ι) :
    ((l.set k y).map f).sum = ((l.eraseIdx k).map f).sum + f y := by
  obtain ⟨hlt, -⟩ := List.getElem?_eq_some_iff.mp hk
  have hperm := ((List.set_perm_cons_eraseIdx hlt y).map f).sum_eq
  rw [List.map_cons, List.sum_cons] at hperm
  rw [hperm, add_comm]

theorem sum_map_set_add (hk : l[k]? = some x) (y : ι) :
    ((l.set k y).map f).sum + f x = (l.map f).sum + f y := by
  rw [sum_map_set f hk, ← sum_map_eraseIdx f hk]
  exact add_right_comm _ _ _

theorem sum_map_concat (y : ι) : ((l ++ [y]).map f).sum = (l.map f).sum + f y := by
  rw [List.map_append, List.sum_append, List.map_singleton, List.sum_singleton]

/-- Where a sum is zero only when both its parts are, a list adds up to zero only when all its
entries are zero. -/
theorem eq_zero_of_sum_map_eq_zero (hpos : ∀ a b : M, a + b = 0 → a = 0)
    (h : (l.map f).sum = 0) (hx : x ∈ l) : f x = 0 := by
  obtain ⟨k, hk⟩ := List.mem_iff_getElem?.mp hx
  have hsum := sum_map_eraseIdx f hk
  rw [h, add_comm] at hsum
  exact hpos _ _ hsum

/-- One entry of a key, among entries with different keys, is all there is at that key. -/
theorem sum_map_of_nodup_keys {κ : Type*} [DecidableEq κ] (key : ι → κ) (hl : (l.map key).Nodup)
    (hx : x ∈ l) : (l.map fun y => if key y = key x then f y else 0).sum = f x := by
  induction l with
  | nil => cases hx
  | cons z l ih =>
    rw [List.map_cons, List.nodup_cons] at hl
    rw [List.map_cons, List.sum_cons]
    rcases List.mem_cons.mp hx with rfl | hx
    · have hrest : (l.map fun y => if key y = key x then f y else 0).sum = 0 := by
        apply List.sum_eq_zero
        intro a ha
        obtain ⟨y, hy, rfl⟩ := List.mem_map.mp ha
        have hne : key y ≠ key x := fun heq => hl.1 (List.mem_map.mpr ⟨y, hy, heq⟩)
        exact if_neg hne
      rw [if_pos rfl, hrest, add_zero]
    · have hne : key z ≠ key x := fun heq => hl.1 (heq ▸ List.mem_map_of_mem hx)
      rw [if_neg hne, zero_add]
      exact ih hl.2 hx

/-- A list that has all entries of another one adds up to at least as much. -/
theorem sum_map_of_subset {l' : List ι} (hl : l.Nodup) (h : l ⊆ l') :
    ∃ rest, (l'.map f).sum = (l.map f).sum + rest := by
  obtain ⟨l₁, hperm, hsub⟩ := hl.subperm h
  obtain ⟨l₂, hl₂⟩ := hsub.exists_perm_append
  refine ⟨(l₂.map f).sum, ?_⟩
  rw [(hl₂.map f).sum_eq, List.map_append, List.sum_append, (hperm.map f).sum_eq]

end CrisCore.ListSums
