import Mathlib.Algebra.BigOperators.Group.Finset.Piecewise
import Mathlib.Algebra.BigOperators.Ring.Finset
import Mathlib.Algebra.Order.BigOperators.Group.Finset
import Mathlib.Algebra.Order.Ring.Int
import Mathlib.Data.Prod.Lex
import Mathlib.Data.Int.Init
import Mathlib.Tactic.Ring
import Mathlib.Tactic.Linarith

/-! Merging arithmetic progressions: every source has a turn once in each of its periods, and it is
always a source whose turn is due first that is served. Among turns due at the same time the one of
the shorter period comes first. -/
namespace CrisCore.ProgressionMerge
variable {ι : Type*}

/-- A turn of a source, and the time at which it was due. -/
structure Turn (ι : Type*) where
  source : ι
  due : ℤ

section Rank
variable (period : ι → ℤ)

/-- Turns are taken in the order of their ranks. -/
def rank (i : ι) (due : ℤ) : ℤ ×ₗ ℤ :=
  toLex (due, period i)

variable {period} {i j : ι}

theorem rank_mono {a b : ℤ} (h : a ≤ b) : rank period i a ≤ rank period i b := by
  rw [rank, rank, Prod.Lex.toLex_le_toLex]
  rcases h.lt_or_eq with h | h
  · exact Or.inl h
  · exact Or.inr ⟨h, le_refl _⟩

theorem due_le_of_rank_le {a b : ℤ} (h : rank period i a ≤ rank period j b) : a ≤ b := by
  rw [rank, rank, Prod.Lex.toLex_le_toLex] at h
  rcases h with h | h
  · exact h.le
  · exact h.1.le

end Rank

variable [DecidableEq ι]

/-- How many turns a source has had. -/
def served (turns : List (Turn ι)) (i : ι) : ℕ :=
  turns.countP fun u => u.source = i

variable (t₀ : ℤ) (period : ι → ℤ) (sources : Finset ι)

def nextDue (turns : List (Turn ι)) (i : ι) : ℤ :=
  t₀ + served turns i * period i

inductive Merges : List (Turn ι) → Prop
  | nil : Merges []
  | snoc {turns : List (Turn ι)} {i : ι} (h : Merges turns) (hi : i ∈ sources)
      (hfirst : ∀ j ∈ sources,
        rank period i (nextDue t₀ period turns i) ≤ rank period j (nextDue t₀ period turns j)) :
      Merges (turns ++ [⟨i, nextDue t₀ period turns i⟩])

variable {t₀ : ℤ} {period : ι → ℤ} {sources : Finset ι} {turns rest : List (Turn ι)} {i j : ι}

theorem served_append (turns rest : List (Turn ι)) (i : ι) :
    served (turns ++ rest) i = served turns i + served rest i :=
  List.countP_append

theorem nextDue_append (turns rest : List (Turn ι)) (i : ι) :
    nextDue t₀ period (turns ++ rest) i = nextDue t₀ period turns i + served rest i * period i := by
  simp only [nextDue, served_append, Nat.cast_add]
  ring

theorem nextDue_le_append (hp : 0 ≤ period i) :
    nextDue t₀ period turns i ≤ nextDue t₀ period (turns ++ rest) i := by
  rw [nextDue_append]
  have hnn : 0 ≤ (served rest i : ℤ) * period i := mul_nonneg (Int.natCast_nonneg _) hp
  omega

theorem served_of_not_mem (h : ∀ u ∈ rest, u.source ≠ i) : served rest i = 0 := by
  rw [served, List.countP_eq_zero]
  simpa using h

namespace Merges

theorem of_append (h : Merges t₀ period sources (turns ++ rest)) :
    Merges t₀ period sources turns := by
  induction rest using List.reverseRecOn with
  | nil => simpa using h
  | append_singleton rest u ih =>
    apply ih
    rw [← List.append_assoc] at h
    generalize hl : turns ++ rest ++ [u] = l at h
    cases h with
    | nil => simp at hl
    | snoc h _ _ =>
      obtain ⟨h1, -⟩ := List.append_inj' hl rfl
      rwa [h1]

/-- The time at which a turn in the middle was due. -/
theorem due_eq {u : Turn ι} (h : Merges t₀ period sources (turns ++ u :: rest)) :
    u.source ∈ sources ∧ u.due = nextDue t₀ period turns u.source := by
  rw [← List.singleton_append, ← List.append_assoc] at h
  have h := h.of_append
  generalize hl : turns ++ [u] = l at h
  cases h with
  | nil => simp at hl
  | snoc h hi _ =>
    obtain ⟨h1, h2⟩ := List.append_inj' hl rfl
    obtain rfl := List.singleton_inj.mp h2
    exact ⟨hi, by rw [h1]⟩

/-- The turns of one source are those of its progression, from the first on. -/
theorem filter_source (h : Merges t₀ period sources turns) (i : ι) :
    (turns.filter fun u => u.source = i).map Turn.due =
      (List.range (served turns i)).map fun k : ℕ => t₀ + k * period i := by
  induction h with
  | nil => rfl
  | @snoc turns j h hj hfirst ih =>
    rw [List.filter_append, List.map_append, ih, served_append]
    by_cases hji : j = i
    · subst hji
      have hone : served [(⟨j, nextDue t₀ period turns j⟩ : Turn ι)] j = 1 := by simp [served]
      rw [hone, List.range_succ, List.map_append]
      simp [nextDue]
    · simp [served, hji]

/-- No turn that was taken comes after one that is still to be taken. -/
theorem rank_le_next (h : Merges t₀ period sources turns) (hp : ∀ i ∈ sources, 0 ≤ period i)
    {u : Turn ι} (hu : u ∈ turns) (hj : j ∈ sources) :
    rank period u.source u.due ≤ rank period j (nextDue t₀ period turns j) := by
  induction h with
  | nil => cases hu
  | @snoc turns i h hi hfirst ih =>
    have hlater : rank period j (nextDue t₀ period turns j) ≤ rank period j (nextDue t₀ period
        (turns ++ [⟨i, nextDue t₀ period turns i⟩]) j) := rank_mono (nextDue_le_append (hp j hj))
    rcases List.mem_append.mp hu with hu | hu
    · exact (ih hu).trans hlater
    · obtain rfl := List.mem_singleton.mp hu
      exact (hfirst j hj).trans hlater

theorem ordered (h : Merges t₀ period sources turns) (hp : ∀ i ∈ sources, 0 ≤ period i) :
    turns.Pairwise fun u v => rank period u.source u.due ≤ rank period v.source v.due := by
  induction h with
  | nil => exact List.Pairwise.nil
  | snoc h hi hfirst ih =>
    refine List.pairwise_append.mpr ⟨ih, List.pairwise_singleton _ _, fun u hu v hv => ?_⟩
    obtain rfl := List.mem_singleton.mp hv
    exact h.rank_le_next hp hu hi

/-- The last turn of a source that was served was due no later than the next of any other. -/
theorem last_due_le (h : Merges t₀ period sources turns) (hp : ∀ i ∈ sources, 0 ≤ period i)
    (hi : i ∈ sources) (hj : 0 < served turns j) :
    t₀ + ((served turns j : ℤ) - 1) * period j ≤ nextDue t₀ period turns i := by
  have hmem : t₀ + ((served turns j - 1 : ℕ) : ℤ) * period j ∈
      (turns.filter fun u => u.source = j).map Turn.due := by
    rw [h.filter_source j]
    exact List.mem_map_of_mem (List.mem_range.mpr (Nat.sub_one_lt_of_lt hj))
  obtain ⟨u, hu, hdue⟩ := List.mem_map.mp hmem
  have hrank := h.rank_le_next hp (List.mem_of_mem_filter hu) hi
  have hle := due_le_of_rank_le hrank
  rw [hdue, Nat.cast_sub hj] at hle
  exact hle

/-- While a source waits for its turn number `k`, the others have had a bounded number of turns. -/
theorem served_le (h : Merges t₀ period sources turns) (hp : ∀ i ∈ sources, 0 < period i)
    (hi : i ∈ sources) (hj : j ∈ sources) {k : ℕ} (hk : served turns i ≤ k) :
    (served turns j : ℤ) ≤ k * period i / period j + 1 := by
  have hnn : ∀ i ∈ sources, 0 ≤ period i := fun i hi => (hp i hi).le
  have hki : (served turns i : ℤ) * period i ≤ k * period i :=
    mul_le_mul_of_nonneg_right (by exact_mod_cast hk) (hnn i hi)
  rcases Nat.eq_zero_or_pos (served turns j) with hz | hpos
  · rw [hz]
    have hdiv : 0 ≤ (k : ℤ) * period i / period j :=
      Int.ediv_nonneg (mul_nonneg (Int.natCast_nonneg k) (hnn i hi)) (hnn j hj)
    omega
  · have hlast := h.last_due_le hnn hi hpos
    have hle : ((served turns j : ℤ) - 1) * period j ≤ k * period i := by
      rw [nextDue] at hlast
      omega
    have hdiv := (Int.le_ediv_iff_mul_le (hp j hj)).mpr hle
    omega

theorem length_eq_sum (h : Merges t₀ period sources turns) :
    turns.length = ∑ j ∈ sources, served turns j := by
  induction h with
  | nil => simp [served]
  | @snoc turns i h hi hfirst ih =>
    have hone : ∑ j ∈ sources, served [(⟨i, nextDue t₀ period turns i⟩ : Turn ι)] j = 1 := by
      simp [served, List.countP_singleton, hi]
    simp only [served_append, Finset.sum_add_distrib, hone, List.length_append,
      List.length_singleton, ih]

/-- So every source gets its turn number `k`. -/
theorem length_le (h : Merges t₀ period sources turns) (hp : ∀ i ∈ sources, 0 < period i)
    (hi : i ∈ sources) {k : ℕ} (hk : served turns i ≤ k) :
    (turns.length : ℤ) ≤ ∑ j ∈ sources, (k * period i / period j + 1) := by
  rw [h.length_eq_sum, Nat.cast_sum]
  exact Finset.sum_le_sum fun j hj => h.served_le hp hi hj hk

/-- After a turn of a source, and until its next one, the others have a bounded number of turns. -/
theorem between_le {a : Turn ι} {before between : List (Turn ι)}
    (h : Merges t₀ period sources ((before ++ [a]) ++ between))
    (hp : ∀ i ∈ sources, 0 < period i) (hno : ∀ u ∈ between, u.source ≠ a.source)
    (hj : j ∈ sources) : (served between j : ℤ) ≤ period a.source / period j + 1 := by
  have hnn : ∀ i ∈ sources, 0 ≤ period i := fun i hi => (hp i hi).le
  have hmiddle : Merges t₀ period sources (before ++ a :: between) := by simpa using h
  obtain ⟨hi, hadue⟩ := hmiddle.due_eq
  -- the source's next turn is one period later, the first of another not before `a`
  have hself : served [a] a.source = 1 := by simp [served]
  have hnext : nextDue t₀ period ((before ++ [a]) ++ between) a.source =
      a.due + period a.source := by
    rw [nextDue_append, nextDue_append, served_of_not_mem hno, hself, hadue]
    simp
  have hfirst : a.due ≤ nextDue t₀ period (before ++ [a]) j :=
    due_le_of_rank_le (h.of_append.rank_le_next hnn (by simp) hj)
  rcases Nat.eq_zero_or_pos (served between j) with hz | hpos
  · rw [hz]
    have hdiv : 0 ≤ period a.source / period j := Int.ediv_nonneg (hnn _ hi) (hnn j hj)
    omega
  · have hlast := h.last_due_le hnn hi (j := j) (by rw [served_append]; omega)
    rw [hnext, served_append, Nat.cast_add] at hlast
    have hle : ((served between j : ℤ) - 1) * period j ≤ period a.source := by
      rw [nextDue] at hfirst
      linarith
    have hdiv := (Int.le_ediv_iff_mul_le (hp j hj)).mpr hle
    omega

/-- The first turn of all is one of a shortest period. -/
theorem head_period_le {u : Turn ι} (h : Merges t₀ period sources (u :: rest)) (hj : j ∈ sources) :
    period u.source ≤ period j := by
  have happend : Merges t₀ period sources ([u] ++ rest) := by simpa using h
  have h1 := happend.of_append
  generalize hl : [u] = l at h1
  cases h1 with
  | nil => cases hl
  | @snoc turns i _ hi hfirst =>
    have hnil : [] ++ [u] = turns ++ _ := hl
    obtain ⟨h1, h2⟩ := List.append_inj' hnil rfl
    subst h1
    obtain rfl := List.singleton_inj.mp h2
    have hle := hfirst j hj
    rw [rank, rank, Prod.Lex.toLex_le_toLex] at hle
    simpa [nextDue, served] using hle

end Merges
end CrisCore.ProgressionMerge
