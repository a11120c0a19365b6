import CrisCore.SnapshotWorker

/-! The schedule of `SnapshotWorker`: its turns are the merge of one arithmetic progression for each
interval, however late they are taken, and each turn that is in time makes one call of
`GenerateSnapshot`, whose job starts no earlier than the clock was read. -/
namespace CrisCore.SnapshotWorker
open RecorderConfig PriorityMerge ProgressionMerge

def turnsOf (turns : List SnapshotWorker.Turn) (i : ℕ) : List SnapshotWorker.Turn :=
  turns.filter fun u => u.wakeUp.index = i

def Turn.period (u : SnapshotWorker.Turn) : ℤ :=
  IntervalConfig.periodNs u.wakeUp.intervalConfig

/-- The period of an interval that a time is in, counted from the start. -/
def windowOf (config : RecorderConfig) (t₀ : ℤ) (i : ℕ) (time : ℤ) : ℤ :=
  (time - t₀) / SnapshotWorker.period config i

def snapshotsOf (snapshots : List Snapshot) (i : ℕ) : List Snapshot :=
  snapshots.filter fun u => u.wakeUp.index = i

/-- The turn that made the call. -/
def Snapshot.turn (u : Snapshot) : SnapshotWorker.Turn :=
  ⟨u.wakeUp, u.checkTime, true⟩

/-- The turn whose call of `GenerateSnapshot` comes next. -/
def State.calling (s : State) : List SnapshotWorker.Turn :=
  if s.pc = .generate then [⟨s.current, s.now, true⟩] else []

/-- The calls of `GenerateSnapshot` are those of the turns that decided for one, each once and in
order, and each turn reads the clock after the snapshots before it have started. -/
structure Called (s : State) : Prop where
  calls : s.snapshots.map Snapshot.turn ++ s.calling = s.turns.filter fun u => u.generates
  started : ∀ u ∈ s.snapshots, u.checkTime ≤ u.startTime ∧ u.startTime ≤ s.now
  ordered : s.snapshots.Pairwise fun u v => u.startTime ≤ v.checkTime

structure Schedule (config : RecorderConfig) (t₀ : ℤ) (s : State) : Prop where
  intervals : ∀ u ∈ s.turns,
    config.snapshotIntervals[u.wakeUp.index]? = some u.wakeUp.intervalConfig
  ordered : s.turns.Pairwise fun u v => u.wakeUp.wakeTime < v.wakeUp.wakeTime ∨
    u.wakeUp.wakeTime = v.wakeUp.wakeTime ∧ u.period ≤ v.period
  progression : ∀ i, (turnsOf s.turns i).map (fun u => u.wakeUp.wakeTime) =
    (List.range (turnsOf s.turns i).length).map fun k : ℕ => t₀ + k * SnapshotWorker.period config i
  /-- No turn was taken while an earlier one of another interval was still to come. -/
  complete : ∀ u ∈ s.turns, ∀ i ∈ sources config,
    u.wakeUp.wakeTime ≤ t₀ + (turnsOf s.turns i).length * SnapshotWorker.period config i
  generates : ∀ u ∈ s.turns,
    (u.generates = true ↔ 2 * (u.checkTime - u.wakeUp.wakeTime) < u.period)
  /-- The calls of `GenerateSnapshot`, and the one that the last turn is about to make. -/
  calls : s.snapshots.map Snapshot.turn ++ s.calling = s.turns.filter fun u => u.generates
  /-- No two snapshots of an interval are decided on in one of its periods. -/
  windows : ∀ i, (((turnsOf s.turns i).filter fun u => u.generates).map
    fun u => windowOf config t₀ i u.checkTime).Nodup
  /-- Where two of them start in one period, the first is late and the other is that period's
  own. -/
  starts : ∀ i, (snapshotsOf s.snapshots i).Pairwise fun u v =>
    windowOf config t₀ i u.startTime < windowOf config t₀ i v.startTime ∨
      windowOf config t₀ i u.startTime = windowOf config t₀ i v.startTime ∧
        windowOf config t₀ i u.checkTime < windowOf config t₀ i u.startTime ∧
        windowOf config t₀ i v.checkTime = windowOf config t₀ i v.startTime
  /-- No two of those that start in the period they were decided on start in one period. -/
  startsInTime : ∀ i, (((snapshotsOf s.snapshots i).filter fun u =>
      windowOf config t₀ i u.checkTime = windowOf config t₀ i u.startTime).map
    fun u => windowOf config t₀ i u.startTime).Nodup

section Called
variable {heap : TakeMax compare} {config : RecorderConfig} {t₀ : ℤ} {s : State}

theorem called_start (h : start heap config t₀ = some s) : Called s := by
  obtain ⟨popped, -, rfl⟩ := Option.map_eq_some_iff.mp h
  exact ⟨rfl, nofun, .nil⟩

theorem calling_of_ne (h : s.pc ≠ .generate) : s.calling = [] :=
  if_neg h

/-- What is neither a turn nor a call. -/
theorem Called.frame {t : State} (h : Called s) (hs : s.calling = []) (ht : t.calling = [])
    (hturns : t.turns = s.turns) (hsnapshots : t.snapshots = s.snapshots) (hnow : s.now ≤ t.now) :
    Called t := by
  refine ⟨?_, ?_, ?_⟩
  · rw [hsnapshots, hturns, ht, ← h.calls, hs]
  · rw [hsnapshots]
    exact fun u hu => ⟨(h.started u hu).1, (h.started u hu).2.trans hnow⟩
  · rw [hsnapshots]
    exact h.ordered

theorem Called.check (h : Called s) (he : s.pc = .check) {now : ℤ} (hnow : s.now ≤ now) :
    Called (next heap s (.check now)) := by
  have hcalls := h.calls
  rw [calling_of_ne (by rw [he]; exact Pc.noConfusion), List.append_nil] at hcalls
  refine ⟨?_, fun u hu => ⟨(h.started u hu).1, (h.started u hu).2.trans hnow⟩, h.ordered⟩
  simp only [next, State.calling, List.filter_append, ← hcalls]
  by_cases hgen : s.current.generates now = true <;> simp [hgen]

/-- The call is that of the turn that is waiting for it. -/
theorem Called.generateSnapshot (h : Called s) (he : s.pc = .generate) {dir : Dir} {startTime : ℤ}
    {success : Bool} (hstart : s.now ≤ startTime) :
    Called (next heap s (.generateSnapshot dir startTime success)) := by
  have hcalls := h.calls
  rw [State.calling, if_pos he] at hcalls
  have hnext : Called { s with
      now := startTime
      snapshots := s.snapshots ++ [⟨s.current, s.now, startTime⟩]
      pc := .advance } := by
    refine ⟨?_, ?_, ?_⟩
    · have hcalling : State.calling { s with
          now := startTime
          snapshots := s.snapshots ++ [⟨s.current, s.now, startTime⟩]
          pc := .advance } = [] := if_neg Pc.noConfusion
      rw [hcalling, ← hcalls]
      simp [Snapshot.turn]
    · intro u hu
      rcases List.mem_append.mp hu with hu | hu
      · exact ⟨(h.started u hu).1, (h.started u hu).2.trans hstart⟩
      · obtain rfl := List.mem_singleton.mp hu
        exact ⟨hstart, le_refl _⟩
    · refine List.pairwise_append.mpr ⟨h.ordered, List.pairwise_singleton _ _, ?_⟩
      intro u hu v hv
      obtain rfl := List.mem_singleton.mp hv
      exact (h.started u hu).2
  cases success with
  | true => exact ⟨hnext.calls, hnext.started, hnext.ordered⟩
  | false => exact hnext

theorem called_step {a : Action} (he : Enabled s a) (h : Called s) : Called (next heap s a) := by
  cases a with
  | testShutdown =>
    have hpc : s.pc = .test := he
    have hs : s.calling = [] := calling_of_ne (by rw [hpc]; exact Pc.noConfusion)
    refine h.frame hs (calling_of_ne ?_) rfl rfl (le_refl _)
    simp only [next]
    split_ifs <;> exact Pc.noConfusion
  | check now => exact h.check he.1 he.2
  | generateSnapshot dir startTime success => exact h.generateSnapshot he.1 he.2
  | advance =>
    have hpc : s.pc = .advance := he
    have hs : s.calling = [] := calling_of_ne (by rw [hpc]; exact Pc.noConfusion)
    simp only [next]
    split
    · exact h
    · exact h.frame hs (calling_of_ne Pc.noConfusion) rfl rfl (le_refl _)
  | endWait now =>
    have hpc : s.pc = .wait := he.1
    have hs : s.calling = [] := calling_of_ne (by rw [hpc]; exact Pc.noConfusion)
    exact h.frame hs (calling_of_ne Pc.noConfusion) rfl rfl he.2.1
  | shutdown => exact ⟨h.calls, h.started, h.ordered⟩

theorem called_of_run {s₀ : State} {as : List Action} (hstart : start heap config t₀ = some s₀)
    (hrun : (system heap).exec s₀ as = some s) : Called s := by
  refine TransitionSystem.exec_induction (called_start hstart) (fun u a v hu hv => ?_) hrun
  obtain ⟨he, rfl⟩ := step_eq_some.mp hv
  exact called_step he hu

end Called

section Schedule
variable {heap : TakeMax compare} {config : RecorderConfig} {t₀ : ℤ} {s : State} {i : ℕ}

theorem served_merged (turns : List SnapshotWorker.Turn) (i : ℕ) :
    ProgressionMerge.served (turns.map Turn.merged) i = (turnsOf turns i).length := by
  rw [ProgressionMerge.served, List.countP_map, List.countP_eq_length_filter]
  rfl

theorem map_wakeTime_turnsOf (turns : List SnapshotWorker.Turn) (i : ℕ) :
    (turnsOf turns i).map (fun u => u.wakeUp.wakeTime) =
      ((turns.map Turn.merged).filter fun u => u.source = i).map ProgressionMerge.Turn.due := by
  rw [List.filter_map, List.map_map]
  rfl

theorem periodNs_nonneg {c : IntervalConfig} (h : 0 ≤ c.period.toInt) :
    0 ≤ IntervalConfig.periodNs c := by
  simp only [IntervalConfig.periodNs]
  omega

theorem period_nonneg (h : ∀ c ∈ config.snapshotIntervals, 0 ≤ c.period.toInt) :
    ∀ i ∈ sources config, 0 ≤ SnapshotWorker.period config i := by
  intro i hi
  have hget := List.getElem?_eq_getElem (Finset.mem_range.mp hi)
  rw [period_of_getElem? hget]
  exact periodNs_nonneg (h _ (List.getElem_mem _))

theorem generates_iff (w : WakeUpConfig) (now : ℤ) :
    w.generates now = true ↔ 2 * (now - w.wakeTime) < IntervalConfig.periodNs w.intervalConfig := by
  rw [WakeUpConfig.generates, decide_eq_true_iff, WakeUpConfig.nextWakeTime]
  omega

/-- A snapshot of turn `k` starts in the period `k` of its interval. -/
theorem windowOf_eq {u : SnapshotWorker.Turn} {k : ℤ} (hu : u.wakeUp.wakeTime ≤ u.checkTime)
    (hgen : 2 * (u.checkTime - u.wakeUp.wakeTime) < SnapshotWorker.period config i)
    (hk : u.wakeUp.wakeTime = t₀ + k * SnapshotWorker.period config i) :
    windowOf config t₀ i u.checkTime = k := by
  have hpos : 0 < SnapshotWorker.period config i := by omega
  have hlate : u.checkTime - t₀ =
      (u.checkTime - u.wakeUp.wakeTime) + k * SnapshotWorker.period config i := by omega
  rw [windowOf, hlate, Int.add_mul_ediv_right _ _ hpos.ne',
    Int.ediv_eq_zero_of_lt (by omega) (by omega), zero_add]

theorem Inv.progression (h : Inv config t₀ s) (i : ℕ) :
    (turnsOf s.turns i).map (fun u => u.wakeUp.wakeTime) =
      (List.range (turnsOf s.turns i).length).map
        fun k : ℕ => t₀ + k * SnapshotWorker.period config i := by
  rw [map_wakeTime_turnsOf, ← served_merged]
  exact h.merges.filter_source i

theorem Inv.generates (h : Inv config t₀ s) {u : SnapshotWorker.Turn} (hu : u ∈ s.turns) :
    u.generates = true ↔ 2 * (u.checkTime - u.wakeUp.wakeTime) < u.period := by
  obtain ⟨-, -, hgen⟩ := h.turns u hu
  rw [hgen]
  exact generates_iff u.wakeUp u.checkTime

/-- What makes a snapshot decides on it in the window of its own number. -/
theorem Inv.windowOf_check (h : Inv config t₀ s) {u : SnapshotWorker.Turn}
    (hu : u ∈ turnsOf s.turns i) (hg : u.generates = true) :
    0 < SnapshotWorker.period config i ∧
      windowOf config t₀ i u.checkTime = windowOf config t₀ i u.wakeUp.wakeTime := by
  obtain ⟨hs, hi⟩ := List.mem_filter.mp hu
  obtain ⟨hget, hle, -⟩ := h.turns u hs
  have hp : u.period = SnapshotWorker.period config i := by
    rw [← of_decide_eq_true hi, period_of_getElem? hget]
    rfl
  have hlt := (h.generates hs).mp hg
  rw [hp] at hlt
  have hpos : 0 < SnapshotWorker.period config i := by omega
  have hwake : u.wakeUp.wakeTime ∈ (turnsOf s.turns i).map fun u => u.wakeUp.wakeTime :=
    List.mem_map_of_mem hu
  rw [h.progression i] at hwake
  obtain ⟨k, -, hk⟩ := List.mem_map.mp hwake
  rw [windowOf_eq hle hlt hk.symm, windowOf, ← hk, add_sub_cancel_left,
    Int.mul_ediv_cancel _ hpos.ne']
  exact ⟨hpos, rfl⟩

theorem Inv.windows_ascend (h : Inv config t₀ s) (i : ℕ) :
    ((turnsOf s.turns i).filter fun u => u.generates).Pairwise fun u v =>
      windowOf config t₀ i u.checkTime < windowOf config t₀ i v.checkTime := by
  set turns := turnsOf s.turns i with hturns
  have hgen : ∀ u ∈ turns.filter (fun u => u.generates), 0 < SnapshotWorker.period config i ∧
      windowOf config t₀ i u.checkTime = windowOf config t₀ i u.wakeUp.wakeTime := by
    intro u hu
    obtain ⟨hmem, hg⟩ := List.mem_filter.mp hu
    exact h.windowOf_check hmem hg
  cases hf : turns.filter (fun u => u.generates) with
  | nil => exact .nil
  | cons u rest =>
    rw [hf] at hgen
    have hpos := (hgen u List.mem_cons_self).1
    have hsub : (u :: rest).Sublist turns := hf ▸ List.filter_sublist
    -- the windows of the wake times of all turns are 0, 1, 2 and so on
    have hall : turns.map (fun u => windowOf config t₀ i u.wakeUp.wakeTime) =
        (List.range turns.length).map fun k : ℕ => (k : ℤ) := by
      have hprog := congrArg (List.map (windowOf config t₀ i)) (h.progression i)
      rw [List.map_map, List.map_map] at hprog
      refine hprog.trans (List.map_congr_left fun k _ => ?_)
      simp only [Function.comp_apply, windowOf, add_sub_cancel_left]
      exact Int.mul_ediv_cancel _ hpos.ne'
    have hascend : turns.Pairwise fun u v =>
        windowOf config t₀ i u.wakeUp.wakeTime < windowOf config t₀ i v.wakeUp.wakeTime := by
      apply List.pairwise_map.mp
      rw [hall]
      exact List.pairwise_map.mpr (List.pairwise_lt_range.imp fun hab => Int.ofNat_lt.mpr hab)
    refine (hascend.sublist hsub).imp_of_mem fun {v w} hv hw hvw => ?_
    rw [(hgen v hv).2, (hgen w hw).2]
    exact hvw

theorem Called.sublist_turnsOf (h : Called s) (i : ℕ) :
    ((snapshotsOf s.snapshots i).map Snapshot.turn).Sublist
      ((turnsOf s.turns i).filter fun u => u.generates) := by
  have hall : (s.snapshots.map Snapshot.turn).Sublist (s.turns.filter fun u => u.generates) := by
    rw [← h.calls]
    exact List.sublist_append_left _ _
  have hone : (snapshotsOf s.snapshots i).map Snapshot.turn =
      turnsOf (s.snapshots.map Snapshot.turn) i := by
    rw [snapshotsOf, turnsOf, List.filter_map]
    rfl
  have hcomm : (turnsOf s.turns i).filter (fun u => u.generates) =
      turnsOf (s.turns.filter fun u => u.generates) i := by
    rw [turnsOf, turnsOf, List.filter_comm]
  rw [hone, hcomm]
  exact hall.filter _

theorem windowOf_mono (hp : 0 < SnapshotWorker.period config i) {a b : ℤ} (h : a ≤ b) :
    windowOf config t₀ i a ≤ windowOf config t₀ i b :=
  Int.ediv_le_ediv hp (by omega)

theorem Inv.starts (h : Inv config t₀ s) (hc : Called s) (i : ℕ) :
    (snapshotsOf s.snapshots i).Pairwise fun u v =>
      windowOf config t₀ i u.startTime < windowOf config t₀ i v.startTime ∨
        windowOf config t₀ i u.startTime = windowOf config t₀ i v.startTime ∧
          windowOf config t₀ i u.checkTime < windowOf config t₀ i u.startTime ∧
          windowOf config t₀ i v.checkTime = windowOf config t₀ i v.startTime := by
  have hsub := hc.sublist_turnsOf i
  have hdecided := List.pairwise_map.mp ((h.windows_ascend i).sublist hsub)
  have hordered := hc.ordered.sublist (List.filter_sublist (p := fun u => u.wakeUp.index = i))
  refine (hdecided.and hordered).imp_of_mem fun {u v} hu hv huv => ?_
  obtain ⟨hwindow, hlater⟩ := huv
  obtain ⟨hmem, hg⟩ := List.mem_filter.mp (hsub.subset (List.mem_map_of_mem hu))
  have hpos := (h.windowOf_check hmem hg).1
  -- the second is decided on after the first has started
  have hu_v : windowOf config t₀ i u.startTime ≤ windowOf config t₀ i v.checkTime :=
    windowOf_mono hpos hlater
  have hv_v : windowOf config t₀ i v.checkTime ≤ windowOf config t₀ i v.startTime :=
    windowOf_mono hpos (hc.started v (List.mem_filter.mp hv).1).1
  simp only [Snapshot.turn] at hwindow
  omega

/-- Whatever the heap does with equal elements, and however late the worker and the jobs are. -/
theorem snapshot_schedule {s₀ : State} {as : List Action}
    (hperiod : ∀ c ∈ config.snapshotIntervals, 0 ≤ c.period.toInt)
    (hstart : start heap config t₀ = some s₀) (hrun : (system heap).exec s₀ as = some s) :
    Schedule config t₀ s := by
  have h := inv_of_run hstart hrun
  have hc := called_of_run hstart hrun
  have hnn := period_nonneg hperiod
  refine ⟨fun u hu => (h.turns u hu).1, ?_, h.progression, fun u hu i hi => ?_,
    fun u hu => h.generates hu, hc.calls, fun i => ?_, h.starts hc, fun i => ?_⟩
  · have hsorted := List.pairwise_map.mp (h.merges.ordered hnn)
    refine hsorted.imp_of_mem fun {u v} hu hv huv => ?_
    simpa only [rank, Turn.merged, Turn.period, Prod.Lex.toLex_le_toLex,
      period_of_getElem? (h.turns u hu).1, period_of_getElem? (h.turns v hv).1] using huv
  · have hle := due_le_of_rank_le (h.merges.rank_le_next hnn (List.mem_map_of_mem hu) hi)
    rw [nextDue, State.merged, served_merged] at hle
    exact hle
  · exact List.pairwise_map.mpr ((h.windows_ascend i).imp fun huv => huv.ne)
  · refine List.pairwise_map.mpr (((h.starts hc i).filter _).imp_of_mem fun {u v} hu _ huv => ?_)
    have htime := of_decide_eq_true (List.mem_filter.mp hu).2
    omega

end Schedule

theorem compare_iff (lhs rhs : WakeUpConfig) : compare lhs rhs = true ↔
    rhs.wakeTime < lhs.wakeTime ∨ lhs.wakeTime = rhs.wakeTime ∧
      rhs.intervalConfig.period.toInt < lhs.intervalConfig.period.toInt := by
  rw [compare]
  split_ifs with h
  · simp [h]
  · simp [not_not.mp h]

theorem compare_irrefl (w : WakeUpConfig) : compare w w = false := by
  rw [Bool.eq_false_iff, ne_eq, compare_iff]
  omega

theorem compare_asymm (w v : WakeUpConfig) (h : compare w v = true) : compare v w = false := by
  rw [compare_iff] at h
  rw [Bool.eq_false_iff, ne_eq, compare_iff]
  omega

theorem compare_trans (a b c : WakeUpConfig) (hab : compare a b = false)
    (hbc : compare b c = false) : compare a c = false := by
  rw [Bool.eq_false_iff, ne_eq, compare_iff] at *
  omega

/-- A heap that scans its elements. -/
def scanHeap : TakeMax compare :=
  .scan compare_irrefl compare_asymm compare_trans

/-- Every second and every two seconds. -/
def twoIntervals : RecorderConfig :=
  { default with snapshotIntervals := [⟨"2 SECONDS", 2, 48⟩, ⟨"1 SECOND", 1, 48⟩] }

/-- The first snapshot takes 2.7 seconds, and the worker catches up by skipping. -/
def slowSnapshotRun : List Action :=
  [.testShutdown, .check 0, .generateSnapshot ["s", "0"] 0 true, .advance, .endWait 2700000000,
    .testShutdown, .check 2700000000, .advance, .endWait 2700000000,
    .testShutdown, .check 2700000000, .advance, .endWait 2700000000,
    .testShutdown, .check 2700000000, .advance, .endWait 2700000000,
    .testShutdown, .check 2700000000, .generateSnapshot ["s", "1"] 2700000000 true, .advance]

def slowStart : State :=
  (start scanHeap twoIntervals 0).get (by decide +kernel)

theorem snapshot_schedule_slowSnapshotRun : Schedule twoIntervals 0
    ((system scanHeap).after slowStart slowSnapshotRun) := by
  have hstart : start scanHeap twoIntervals 0 = some slowStart := (Option.some_get _).symm
  have hrun : ((system scanHeap).exec slowStart slowSnapshotRun).isSome = true := by decide +kernel
  exact snapshot_schedule (by decide +kernel) hstart ((system scanHeap).exec_after hrun)

/-- Every second. -/
def oneInterval : RecorderConfig :=
  { default with snapshotIntervals := [⟨"1 SECOND", 1, 48⟩] }

def oneIntervalStart : State :=
  (start scanHeap oneInterval 0).get (by decide +kernel)

/-- The job of the first snapshot waits 0.7 seconds for the jobs before it on its strand. -/
def lateJobRun : List Action :=
  [.testShutdown, .check 400000000, .generateSnapshot ["s", "0"] 1100000000 true, .advance,
    .endWait 1200000000, .testShutdown, .check 1200000000,
    .generateSnapshot ["s", "1"] 1200000000 true, .advance]

/-- Both snapshots start in the second period. -/
theorem late_snapshot_shares_window :
    start scanHeap oneInterval 0 = some oneIntervalStart ∧
      ((system scanHeap).exec oneIntervalStart lateJobRun).isSome = true ∧
      (((system scanHeap).after oneIntervalStart lateJobRun).snapshots.map
        fun u => windowOf oneInterval 0 0 u.startTime) = [1, 1] :=
  ⟨(Option.some_get _).symm, by decide +kernel, by decide +kernel⟩

end CrisCore.SnapshotWorker
