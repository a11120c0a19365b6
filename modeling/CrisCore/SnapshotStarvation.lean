import CrisCore.SnapshotSchedule

/-! Which of the periods that the parser accepts let every interval of `SnapshotWorker` have its
turns, within the range of the clock's arithmetic. -/
namespace CrisCore.SnapshotWorker
open RecorderConfig PriorityMerge ProgressionMerge

/-- The `period_sec` of the configuration that was narrowed to the period. -/
def IntervalConfig.periodSec (c : IntervalConfig) : ℕ :=
  c.period.toUInt64.toNat

theorem periodSec_of_parse {data : JsonValue} {c : IntervalConfig}
    (h : parseInterval data = .ok c) : ∃ periodSec,
      (data.find "period_sec").bind JsonValue.getUint64 = .ok periodSec ∧
      IntervalConfig.periodSec c = periodSec.toNat := by
  obtain ⟨periodSec, _, -, hfound, hperiod, -⟩ := parseInterval_ok h
  refine ⟨periodSec, hfound, ?_⟩
  rw [IntervalConfig.periodSec, hperiod]
  rfl

/-- What a signed 64-bit count of nanoseconds can hold. -/
def InRange (n : ℤ) : Prop :=
  -2 ^ 63 ≤ n ∧ n < 2 ^ 63

/-- The next wake time of the interval is later, and computed without overflow. -/
def Turn.Advances (u : SnapshotWorker.Turn) : Prop :=
  u.wakeUp.wakeTime < u.wakeUp.nextWakeTime ∧ InRange u.period ∧ InRange u.wakeUp.nextWakeTime

/-- The period is not zero, and leads to a time that the clock can still show. -/
def Turn.Fits (u : SnapshotWorker.Turn) : Prop :=
  0 < IntervalConfig.periodSec u.wakeUp.intervalConfig ∧
    (IntervalConfig.periodSec u.wakeUp.intervalConfig : ℤ) * 10 ^ 9 < 2 ^ 63 ∧
    u.wakeUp.wakeTime + (IntervalConfig.periodSec u.wakeUp.intervalConfig : ℤ) * 10 ^ 9 < 2 ^ 63

instance (n : ℤ) : Decidable (InRange n) :=
  inferInstanceAs (Decidable (_ ∧ _))

instance (u : SnapshotWorker.Turn) : Decidable u.Fits :=
  inferInstanceAs (Decidable (_ ∧ _ ∧ _))

section Starvation
variable {heap : TakeMax compare} {config : RecorderConfig} {t₀ : ℤ} {s : State} {i j : ℕ}
  {u : SnapshotWorker.Turn}

/-- Numbers of seconds from 2^63 on are narrowed to negative ones. -/
theorem period_toInt (c : IntervalConfig) : c.period.toInt =
    if IntervalConfig.periodSec c < 2 ^ 63 then (IntervalConfig.periodSec c : ℤ)
    else (IntervalConfig.periodSec c : ℤ) - 2 ^ 64 := by
  have h := BitVec.toInt_eq_toNat_cond c.period.toBitVec
  change c.period.toInt = if 2 * IntervalConfig.periodSec c < 2 ^ 64 then
    (IntervalConfig.periodSec c : ℤ) else (IntervalConfig.periodSec c : ℤ) - (2 ^ 64 : ℕ) at h
  rw [h]
  split_ifs <;> omega

theorem periodNs_pos_iff (c : IntervalConfig) : 0 < IntervalConfig.periodNs c ↔
    0 < IntervalConfig.periodSec c ∧ IntervalConfig.periodSec c < 2 ^ 63 := by
  have hlt : IntervalConfig.periodSec c < 2 ^ 64 := c.period.toUInt64.toNat_lt
  rw [IntervalConfig.periodNs, period_toInt]
  split_ifs <;> omega

theorem periodNs_of_lt {c : IntervalConfig} (h : IntervalConfig.periodSec c < 2 ^ 63) :
    IntervalConfig.periodNs c = (IntervalConfig.periodSec c : ℤ) * 10 ^ 9 := by
  rw [IntervalConfig.periodNs, period_toInt, if_pos h]

theorem Turn.Fits.period_pos (h : u.Fits) : 0 < u.period :=
  (periodNs_pos_iff _).mpr ⟨h.1, by have := h.2.1; omega⟩

theorem Turn.Advances.period_pos (h : u.Advances) : 0 < u.period := by
  have hlt := h.1
  rw [WakeUpConfig.nextWakeTime] at hlt
  change 0 < IntervalConfig.periodNs u.wakeUp.intervalConfig
  omega

/-- An interval with a positive period wakes up no earlier than the worker started. -/
theorem Inv.start_le_wakeTime (h : Inv config t₀ s) (hu : u ∈ s.turns) (hp : 0 < u.period) :
    t₀ ≤ u.wakeUp.wakeTime := by
  have hmem : u ∈ turnsOf s.turns u.wakeUp.index := List.mem_filter.mpr ⟨hu, by simp⟩
  have hwake : u.wakeUp.wakeTime ∈
      (turnsOf s.turns u.wakeUp.index).map fun u => u.wakeUp.wakeTime := List.mem_map_of_mem hmem
  rw [h.progression] at hwake
  obtain ⟨k, -, hk⟩ := List.mem_map.mp hwake
  have hperiod : SnapshotWorker.period config u.wakeUp.index = u.period :=
    period_of_getElem? (h.turns u hu).1
  have hnn : 0 ≤ (k : ℤ) * u.period := mul_nonneg (Int.natCast_nonneg k) hp.le
  rw [hperiod] at hk
  omega

theorem Inv.advances_iff_fits (h : Inv config t₀ s) (ht : InRange t₀) (hu : u ∈ s.turns) :
    u.Advances ↔ u.Fits := by
  constructor
  · intro ha
    -- a period that is positive in nanoseconds has not wrapped
    obtain ⟨hpos, hlt⟩ := (periodNs_pos_iff _).mp ha.period_pos
    obtain ⟨-, hrange, hnext⟩ := ha
    have hns := periodNs_of_lt hlt
    simp only [Turn.period, WakeUpConfig.nextWakeTime, hns] at hrange hnext
    exact ⟨hpos, hrange.2, hnext.2⟩
  · intro hf
    have hpos := hf.period_pos
    have hstart := h.start_le_wakeTime hu hpos
    obtain ⟨-, hlt, hnext⟩ := hf
    have hns := periodNs_of_lt (c := u.wakeUp.intervalConfig) (by omega)
    have ht' := ht.1
    simp only [Turn.Advances, InRange, Turn.period, WakeUpConfig.nextWakeTime, hns] at hpos ⊢
    omega

/-- When the first turn of all had a positive period, all periods are positive. -/
theorem Inv.period_pos (h : Inv config t₀ s) (hf : ∀ u ∈ s.turns, u.Fits) (hne : s.turns ≠ []) :
    ∀ i ∈ sources config, 0 < SnapshotWorker.period config i := by
  intro i hi
  obtain ⟨u, rest, hturns⟩ := List.exists_cons_of_ne_nil hne
  have hu : u ∈ s.turns := by rw [hturns]; exact List.mem_cons_self
  have hm : Merges t₀ (SnapshotWorker.period config) (sources config)
      (u.merged :: rest.map Turn.merged) := by
    have hmerges := h.merges
    rwa [State.merged, hturns, List.map_cons] at hmerges
  -- the interval that is due first has the shortest period
  have hle := hm.head_period_le hi
  have hfirst : SnapshotWorker.period config u.wakeUp.index = u.period :=
    period_of_getElem? (h.turns u hu).1
  change SnapshotWorker.period config u.wakeUp.index ≤ _ at hle
  have hpos := (hf u hu).period_pos
  omega

/-- The wake times of the intervals rise within the range of the clock exactly when at every turn the
period fits. Then an interval waits for a bounded number of turns of the others, and so has its
turn number `k` for every `k`, counted from zero. -/
theorem no_interval_starves {s₀ : State} {as : List Action} (ht : InRange t₀)
    (hstart : start heap config t₀ = some s₀) (hrun : (system heap).exec s₀ as = some s) :
    ((∀ u ∈ s.turns, u.Advances) ↔ ∀ u ∈ s.turns, u.Fits) ∧
      ((∀ u ∈ s.turns, u.Fits) → ∀ i ∈ sources config,
        (∀ before u between after, s.turns = before ++ u :: (between ++ after) →
          u.wakeUp.index = i → (∀ v ∈ between, v.wakeUp.index ≠ i) → ∀ j ∈ sources config,
            ((turnsOf between j).length : ℤ) ≤
              SnapshotWorker.period config i / SnapshotWorker.period config j + 1) ∧
        ∀ k : ℕ, ∑ j ∈ sources config, (k * SnapshotWorker.period config i /
            SnapshotWorker.period config j + 1).toNat < s.turns.length →
          k < (turnsOf s.turns i).length) := by
  have h := inv_of_run hstart hrun
  refine ⟨forall₂_congr fun u hu => h.advances_iff_fits ht hu, fun hf i hi => ⟨?_, fun k hk => ?_⟩⟩
  · rintro before u between after hturns rfl hno j hj
    have hpos := h.period_pos hf (by simp [hturns])
    have hm : Merges t₀ (SnapshotWorker.period config) (sources config)
        ((before.map Turn.merged ++ [u.merged]) ++ between.map Turn.merged) := by
      have hmerges : Merges t₀ (SnapshotWorker.period config) (sources config)
          (((before.map Turn.merged ++ [u.merged]) ++ between.map Turn.merged) ++
            after.map Turn.merged) := by
        have hall := h.merges
        rw [State.merged, hturns] at hall
        simpa using hall
      exact hmerges.of_append
    have hle := hm.between_le hpos (by simpa [Turn.merged] using hno) hj
    rwa [served_merged] at hle
  · have hne : s.turns ≠ [] := List.ne_nil_of_length_pos (by omega)
    have hpos := h.period_pos hf hne
    -- with `k` turns or fewer of the interval there are too few turns of the others
    by_contra hle
    have hbound := h.merges.length_le hpos hi (k := k) (by
      rw [State.merged, served_merged]
      omega)
    have hsum : ∑ j ∈ sources config, ((k * SnapshotWorker.period config i /
          SnapshotWorker.period config j + 1).toNat : ℤ) =
        ∑ j ∈ sources config, (k * SnapshotWorker.period config i /
          SnapshotWorker.period config j + 1) := by
      refine Finset.sum_congr rfl fun j hj => Int.toNat_of_nonneg ?_
      have hdiv : 0 ≤ (k : ℤ) * SnapshotWorker.period config i / SnapshotWorker.period config j :=
        Int.ediv_nonneg (mul_nonneg (Int.natCast_nonneg k) (hpos i hi).le) (hpos j hj).le
      omega
    rw [← hsum, ← Nat.cast_sum, State.merged, List.length_map] at hbound
    omega

theorem no_interval_starves_slowSnapshotRun :
    ((system scanHeap).after slowStart slowSnapshotRun).turns.length = 5 ∧
      ∀ u ∈ ((system scanHeap).after slowStart slowSnapshotRun).turns, u.Advances := by
  have ht : InRange 0 := by decide
  have hstart : start scanHeap twoIntervals 0 = some slowStart := (Option.some_get _).symm
  have hrun : ((system scanHeap).exec slowStart slowSnapshotRun).isSome = true := by decide +kernel
  refine ⟨by decide +kernel, ?_⟩
  exact (no_interval_starves ht hstart ((system scanHeap).exec_after hrun)).1.mpr
    (by decide +kernel)

end Starvation

/-- An interval of every minute, and one whose period is zero. -/
def zeroPeriodJson : JsonValue :=
  .object [("hostname", .string "host"), ("snapshot_intervals", .array
    [.object [("name", .string "MINUTE"), ("period_sec", .uint64 60)],
      .object [("name", .string "NOW"), ("period_sec", .uint64 0)]])]

def zeroPeriodConfig : RecorderConfig :=
  { default with
    hostname := "host"
    snapshotIntervals := [⟨"MINUTE", 60, 48⟩, ⟨"NOW", 0, 48⟩] }

/-- One turn that skips the snapshot. -/
def skippedTurn : List Action :=
  [.testShutdown, .check 0, .advance, .endWait 0]

def zeroPeriodState (turns : List SnapshotWorker.Turn) : State where
  current := ⟨⟨"NOW", 0, 48⟩, 0, 1⟩
  queue := [⟨⟨"MINUTE", 60, 48⟩, 0, 0⟩]
  pc := .test
  shutdown := false
  now := 0
  snapshotPathMap := fun _ => []
  turns := turns
  snapshots := []
  made := fun _ => []

theorem exec_skippedTurn (turns : List SnapshotWorker.Turn) :
    (system scanHeap).exec (zeroPeriodState turns) skippedTurn =
      some (zeroPeriodState (turns ++ [⟨⟨⟨"NOW", 0, 48⟩, 0, 1⟩, 0, false⟩])) := by
  have hgen : (⟨⟨"NOW", 0, 48⟩, 0, 1⟩ : WakeUpConfig).generates 0 = false := by decide
  have htake : scanHeap.take
      [WakeUpConfig.advanced ⟨⟨"NOW", 0, 48⟩, 0, 1⟩, ⟨⟨"MINUTE", 60, 48⟩, 0, 0⟩] =
        some (⟨⟨"NOW", 0, 48⟩, 0, 1⟩, [⟨⟨"MINUTE", 60, 48⟩, 0, 0⟩]) := rfl
  set s := zeroPeriodState turns with hs
  set t := zeroPeriodState (turns ++ [⟨⟨⟨"NOW", 0, 48⟩, 0, 1⟩, 0, false⟩]) with ht
  -- round the loop once: no snapshot is due, and the period of zero is at the top of the heap again
  have htest : (system scanHeap).step s .testShutdown = some { s with pc := .check } :=
    step_eq_some.mpr ⟨rfl, rfl⟩
  have hcheck : (system scanHeap).step { s with pc := .check } (.check 0) =
      some { t with pc := .advance } :=
    step_eq_some.mpr ⟨⟨rfl, le_refl 0⟩, by
      have hlate : s.current.generates 0 = false := hgen
      simp only [next, hlate]
      rfl⟩
  have hadvance : (system scanHeap).step { t with pc := .advance } .advance =
      some { t with pc := .wait } :=
    step_eq_some.mpr ⟨rfl, by
      have hpopped : scanHeap.take (t.current.advanced :: t.queue) = _ := htake
      simp only [next, hpopped]
      rfl⟩
  have hwait : (system scanHeap).step { t with pc := .wait } (.endWait 0) = some t :=
    step_eq_some.mpr ⟨⟨rfl, le_refl 0, Or.inl (le_refl 0)⟩, rfl⟩
  simp only [skippedTurn, TransitionSystem.exec_cons, TransitionSystem.exec_nil, htest, hcheck,
    hadvance, hwait, Option.bind_some]

/-- The parser lets the period of zero through. All turns are then of that interval, at one wake time
and without a snapshot, and the other interval has not even its first. -/
theorem zero_period_starves : configDataParser default zeroPeriodJson = .ok zeroPeriodConfig ∧
    start scanHeap zeroPeriodConfig 0 = some (zeroPeriodState []) ∧
    ∀ n : ℕ, ∃ as s, (system scanHeap).exec (zeroPeriodState []) as = some s ∧
      s.turns.length = n ∧ (turnsOf s.turns 0) = [] ∧
      ∀ u ∈ s.turns, u.wakeUp.wakeTime = 0 ∧ ¬ u.Advances := by
  refine ⟨rfl, rfl, fun n => ?_⟩
  suffices h : ∃ as turns, (system scanHeap).exec (zeroPeriodState []) as =
      some (zeroPeriodState turns) ∧ turns = List.replicate n ⟨⟨⟨"NOW", 0, 48⟩, 0, 1⟩, 0, false⟩ by
    obtain ⟨as, turns, hexec, rfl⟩ := h
    refine ⟨as, _, hexec, List.length_replicate, ?_, fun u hu => ?_⟩
    · exact List.filter_eq_nil_iff.mpr fun u hu => by simp [List.eq_of_mem_replicate hu]
    · rw [List.eq_of_mem_replicate hu]
      exact ⟨rfl, fun hadv => absurd hadv.1 (by decide)⟩
  induction n with
  | zero => exact ⟨[], [], rfl, rfl⟩
  | succ n ih =>
    obtain ⟨as, turns, hexec, rfl⟩ := ih
    refine ⟨as ++ skippedTurn, _, ?_, List.replicate_succ'.symm⟩
    rw [TransitionSystem.exec_append_some _ hexec, exec_skippedTurn]

end CrisCore.SnapshotWorker
