import Mathlib.Data.List.Basic

/-! A list held in a ring of cells: its `n` entries stand from `head` on and go round at the end.
A cell may be empty; the operations are stated on the cells alone. -/
namespace CrisCore

/-- The cell `i` places after `head`, for `head` and `i` inside the ring. -/
def wrapIndex (capacity head i : ℕ) : ℕ :=
  if head + i < capacity then head + i else head + i - capacity

theorem wrapIndex_lt {capacity head i : ℕ} (hh : head < capacity) (hi : i ≤ capacity) :
    wrapIndex capacity head i < capacity := by
  unfold wrapIndex
  split_ifs <;> omega

theorem wrapIndex_eq_mod {capacity head i : ℕ} (hh : head < capacity) (hi : i ≤ capacity) :
    wrapIndex capacity head i = (head + i) % capacity := by
  unfold wrapIndex
  split_ifs with h
  · rw [Nat.mod_eq_of_lt h]
  · have hlt : head + i - capacity < capacity := by omega
    rw [Nat.mod_eq_sub_mod (by omega), Nat.mod_eq_of_lt hlt]

theorem wrapIndex_ne {capacity head i j : ℕ} (hi : i < j) (hj : j < capacity) :
    wrapIndex capacity head i ≠ wrapIndex capacity head j := by
  unfold wrapIndex
  split_ifs <;> omega

theorem wrapIndex_succ {capacity head i : ℕ} (hh : head < capacity) (hi : i < capacity) :
    wrapIndex capacity (wrapIndex capacity head 1) i = wrapIndex capacity head (i + 1) := by
  unfold wrapIndex
  split_ifs <;> omega

theorem wrapIndex_next {capacity head i : ℕ} (hh : head < capacity) (hi : i < capacity) :
    wrapIndex capacity (wrapIndex capacity head i) 1 = wrapIndex capacity head (i + 1) := by
  unfold wrapIndex
  split_ifs <;> omega

variable {α : Type*}

/-- The `n` entries from `head` on. -/
def ringContents (cells : List (Option α)) (head n : ℕ) : List (Option α) :=
  (List.range n).map fun i => cells.getD (wrapIndex cells.length head i) none

@[simp] theorem length_ringContents (cells : List (Option α)) (head n : ℕ) :
    (ringContents cells head n).length = n := by
  simp [ringContents]

/-- Two rings hold the same list when their cells agree place by place. -/
theorem ringContents_congr {cells cells' : List (Option α)} {head head' n : ℕ}
    (h : ∀ i, i < n → cells'.getD (wrapIndex cells'.length head' i) none =
      cells.getD (wrapIndex cells.length head i) none) :
    ringContents cells' head' n = ringContents cells head n := by
  apply List.map_congr_left
  intro i hi
  exact h i (List.mem_range.mp hi)

theorem getD_set_self (cells : List (Option α)) (x : Option α) {k : ℕ} (hk : k < cells.length) :
    (cells.set k x).getD k none = x := by
  simp [List.getD_eq_getElem?_getD, hk]

theorem getD_set_of_ne (cells : List (Option α)) (x : Option α) {k k' : ℕ} (h : k ≠ k') :
    (cells.set k x).getD k' none = cells.getD k' none := by
  simp [List.getD_eq_getElem?_getD, List.getElem?_set_ne h]

/-- Writing behind the last entry appends. -/
theorem ringContents_set_back {cells : List (Option α)} {head n : ℕ} (x : Option α)
    (hh : head < cells.length) (hn : n < cells.length) :
    ringContents (cells.set (wrapIndex cells.length head n) x) head (n + 1) =
      ringContents cells head n ++ [x] := by
  have hk : wrapIndex cells.length head n < cells.length := wrapIndex_lt hh (Nat.le_of_lt hn)
  have hold : ringContents (cells.set (wrapIndex cells.length head n) x) head n =
      ringContents cells head n := by
    apply ringContents_congr
    intro i hi
    rw [List.length_set]
    exact getD_set_of_ne cells x (wrapIndex_ne hi hn).symm
  have hlast : ringContents (cells.set (wrapIndex cells.length head n) x) head (n + 1) =
      ringContents (cells.set (wrapIndex cells.length head n) x) head n ++ [x] := by
    simp only [ringContents, List.range_succ, List.map_append, List.map_cons, List.map_nil,
      List.length_set, getD_set_self cells x hk]
  rw [hlast, hold]

/-- Advancing `head` takes the first entry away. -/
theorem ringContents_succ {cells : List (Option α)} {head n : ℕ} (hh : head < cells.length)
    (hn : n + 1 ≤ cells.length) :
    ringContents cells head (n + 1) =
      cells.getD head none :: ringContents cells (wrapIndex cells.length head 1) n := by
  have hfirst : wrapIndex cells.length head 0 = head := by simp [wrapIndex, hh]
  simp only [ringContents, List.range_succ_eq_map, List.map_cons, List.map_map, hfirst]
  congr 1
  apply List.map_congr_left
  intro i hi
  have hi' : i < cells.length := by
    have := List.mem_range.mp hi
    omega
  simp only [Function.comp_apply, wrapIndex_succ hh hi']

/-- The cell given up by advancing `head` may be overwritten. -/
theorem ringContents_set_front {cells : List (Option α)} {head n : ℕ} (x : Option α)
    (hh : head < cells.length) (hn : n + 1 ≤ cells.length) :
    ringContents (cells.set head x) (wrapIndex cells.length head 1) n =
      ringContents cells (wrapIndex cells.length head 1) n := by
  apply ringContents_congr
  intro i hi
  have hfirst : wrapIndex cells.length head 0 = head := by simp [wrapIndex, hh]
  have hne := @wrapIndex_ne cells.length head 0 (i + 1) (by omega) (by omega)
  rw [hfirst] at hne
  rw [List.length_set, wrapIndex_succ hh (by omega)]
  exact getD_set_of_ne cells x hne

/-- Cells added at the end do not matter to entries that do not go round. -/
theorem ringContents_append {cells : List (Option α)} (extra : List (Option α)) {head n : ℕ}
    (hn : head + n ≤ cells.length) :
    ringContents (cells ++ extra) head n = ringContents cells head n := by
  apply ringContents_congr
  intro i hi
  have h1 : head + i < cells.length := by omega
  have h2 : head + i < (cells ++ extra).length := by
    rw [List.length_append]
    omega
  simp only [wrapIndex, if_pos h1, if_pos h2]
  simp [List.getD_eq_getElem?_getD, List.getElem?_append_left h1]

/-- A ring grows by `d` cells when the part from `head` to the old end is moved to the new end. -/
theorem ringContents_relocate {cells cells' : List (Option α)} {head n d : ℕ}
    (hlen : cells'.length = cells.length + d) (hn : n ≤ cells.length)
    (htail : ∀ i, head + i < cells.length →
      cells'.getD (head + d + i) none = cells.getD (head + i) none)
    (hfront : ∀ k, k < head → cells'.getD k none = cells.getD k none) :
    ringContents cells' (head + d) n = ringContents cells head n := by
  apply ringContents_congr
  intro i hi
  unfold wrapIndex
  rw [hlen]
  by_cases hc : head + i < cells.length
  · rw [if_pos (by omega), if_pos hc]
    exact htail i hc
  · rw [if_neg (by omega), if_neg hc, show head + d + i - (cells.length + d) =
      head + i - cells.length by omega]
    exact hfront _ (by omega)

/-- `std::move(first, first + n, dest)` inside the cells, entry by entry from the front; what is
moved from is left empty. -/
def moveRange (cells : List (Option α)) (first dest : ℕ) : ℕ → List (Option α)
  | 0 => cells
  | n + 1 => moveRange ((cells.set dest (cells.getD first none)).set first none)
      (first + 1) (dest + 1) n

@[simp] theorem length_moveRange (cells : List (Option α)) (first dest n : ℕ) :
    (moveRange cells first dest n).length = cells.length := by
  induction n generalizing cells first dest with
  | zero => rfl
  | succ n ih => simp [moveRange, ih]

theorem moveRange_before (cells : List (Option α)) {first dest n k : ℕ} (hk : k < first)
    (hk' : k < dest) : (moveRange cells first dest n).getD k none = cells.getD k none := by
  induction n generalizing cells first dest with
  | zero => rfl
  | succ n ih =>
    rw [moveRange, ih _ (by omega) (by omega), getD_set_of_ne _ _ (by omega),
      getD_set_of_ne _ _ (by omega)]

/-- What lies behind the part moved from and is not written either stays. -/
theorem moveRange_between (cells : List (Option α)) {first dest n k : ℕ} (hk : first + n ≤ k)
    (hk' : k < dest) : (moveRange cells first dest n).getD k none = cells.getD k none := by
  induction n generalizing cells first dest with
  | zero => rfl
  | succ n ih =>
    rw [moveRange, ih _ (by omega) (by omega), getD_set_of_ne _ _ (by omega),
      getD_set_of_ne _ _ (by omega)]

/-- Entries arrive when the two ranges do not overlap. -/
theorem moveRange_dest (cells : List (Option α)) {first dest n i : ℕ} (hi : i < n)
    (hd : first + n ≤ dest) (hlen : dest + n ≤ cells.length) :
    (moveRange cells first dest n).getD (dest + i) none = cells.getD (first + i) none := by
  induction n generalizing cells first dest i with
  | zero => omega
  | succ n ih =>
    rw [moveRange]
    cases i with
    | zero =>
      rw [moveRange_between _ (by omega) (by omega), Nat.add_zero, Nat.add_zero,
        getD_set_of_ne _ _ (by omega), getD_set_self _ _ (by omega)]
    | succ i =>
      have hrest := @ih ((cells.set dest (cells.getD first none)).set first none) (first + 1)
        (dest + 1) i (by omega) (by omega) (by simp; omega)
      rw [show dest + (i + 1) = dest + 1 + i by omega, hrest, getD_set_of_ne _ _ (by omega),
        getD_set_of_ne _ _ (by omega), show first + 1 + i = first + (i + 1) by omega]

/-- Overlapping ranges lose an entry: the last cell moved from is empty at the end, also when it
was to be one of the cells moved to. -/
theorem moveRange_last (cells : List (Option α)) {first dest n : ℕ} (hn : 0 < n)
    (hlen : first + n ≤ cells.length) :
    (moveRange cells first dest n).getD (first + n - 1) none = none := by
  induction n generalizing cells first dest with
  | zero => omega
  | succ n ih =>
    rw [moveRange]
    cases n with
    | zero =>
      rw [moveRange, show first + (0 + 1) - 1 = first by omega]
      exact getD_set_self _ _ (by simp; omega)
    | succ n =>
      have hrest := @ih ((cells.set dest (cells.getD first none)).set first none) (first + 1)
        (dest + 1) (by omega) (by simp; omega)
      rwa [show first + 1 + (n + 1) - 1 = first + (n + 1 + 1) - 1 by omega] at hrest

end CrisCore
