import CrisCore.PriorityMerge
import CrisCore.ProgressionMerge
import CrisCore.RecorderConfig
import CrisCore.TransitionSystem

/-! `MessageRecorder::SnapshotWorker`: the turns it takes for the configured intervals, which of them
make a snapshot, and which snapshots it keeps. Times are exact nanoseconds of the steady clock. -/
namespace CrisCore.SnapshotWorker
open RecorderConfig PriorityMerge ProgressionMerge

def IntervalConfig.periodNs (c : IntervalConfig) : ℤ :=
  c.period.toInt * 10 ^ 9

structure WakeUpConfig where
  intervalConfig : IntervalConfig
  wakeTime : ℤ
  /-- History: where the interval is in the configuration. -/
  index : ℕ

namespace WakeUpConfig

def nextWakeTime (w : WakeUpConfig) : ℤ :=
  w.wakeTime + IntervalConfig.periodNs w.intervalConfig

def advanced (w : WakeUpConfig) : WakeUpConfig :=
  { w with wakeTime := w.nextWakeTime }

/-- More than half of the period is left before the next wake time. -/
def generates (w : WakeUpConfig) (now : ℤ) : Bool :=
  IntervalConfig.periodNs w.intervalConfig < 2 * (w.nextWakeTime - now)

end WakeUpConfig

/-- The comparator of the queue: the one that is to wake up later is less. -/
def compare (lhs rhs : WakeUpConfig) : Bool :=
  if lhs.wakeTime ≠ rhs.wakeTime then rhs.wakeTime < lhs.wakeTime
  else rhs.intervalConfig.period.toInt < lhs.intervalConfig.period.toInt

abbrev Dir := List String

def snapshotMaxNum : ℕ := 48

/-- `MaintainMaxNumOfSnapshots`. -/
def maintainMaxNumOfSnapshots : List Dir → List Dir
  | [] => []
  | dir :: dirs =>
    if snapshotMaxNum < (dir :: dirs).length then maintainMaxNumOfSnapshots dirs else dir :: dirs

inductive Pc
  | test
  | check
  | generate
  | advance
  | wait
  | exited
  deriving DecidableEq

/-- One pass through the loop, as it was decided when the clock was read. -/
structure Turn where
  wakeUp : WakeUpConfig
  checkTime : ℤ
  generates : Bool

/-- One call of `GenerateSnapshot`, for the wake-up that the clock was last read for. Its job may
wait on `record_strand_` before it starts. -/
structure Snapshot where
  wakeUp : WakeUpConfig
  checkTime : ℤ
  startTime : ℤ

structure State where
  /-- `current_snapshot_wakeup` and the rest of the queue. -/
  current : WakeUpConfig
  queue : List WakeUpConfig
  pc : Pc
  shutdown : Bool
  /-- The last reading of the clock, or the start of the snapshot made since. -/
  now : ℤ
  snapshotPathMap : String → List Dir
  /-- History: the turns so far, the calls of `GenerateSnapshot`, and the snapshots made for each
  interval. -/
  turns : List SnapshotWorker.Turn
  snapshots : List Snapshot
  made : ℕ → List Dir

inductive Action
  | testShutdown
  | check (now : ℤ)
  /-- The worker waits for the job, which starts at `startTime`. -/
  | generateSnapshot (snapshotDir : Dir) (startTime : ℤ) (success : Bool)
  | advance
  | endWait (now : ℤ)
  /-- `StopSnapshotWorker`. -/
  | shutdown
  deriving DecidableEq

variable (heap : TakeMax compare)

def initialQueue (config : RecorderConfig) (currentTime : ℤ) : List WakeUpConfig :=
  config.snapshotIntervals.zipIdx.map fun c => ⟨c.1, currentTime, c.2⟩

/-- Where the loop begins; without intervals there is none. -/
def start (config : RecorderConfig) (currentTime : ℤ) : Option State :=
  (heap.take (initialQueue config currentTime)).map fun popped =>
    { current := popped.1
      queue := popped.2
      pc := .test
      shutdown := false
      now := currentTime
      snapshotPathMap := fun _ => []
      turns := []
      snapshots := []
      made := fun _ => [] }

def Enabled (s : State) : Action → Prop
  | .testShutdown => s.pc = .test
  | .check now => s.pc = .check ∧ s.now ≤ now
  | .generateSnapshot _ startTime _ => s.pc = .generate ∧ s.now ≤ startTime
  | .advance => s.pc = .advance
  | .endWait now =>
    s.pc = .wait ∧ s.now ≤ now ∧ (s.current.wakeTime ≤ now ∨ s.shutdown = true)
  | .shutdown => True

instance (s : State) : (a : Action) → Decidable (Enabled s a)
  | .testShutdown | .advance => inferInstanceAs (Decidable (_ = _))
  | .check _ | .generateSnapshot _ _ _ => inferInstanceAs (Decidable (_ ∧ _))
  | .endWait _ => inferInstanceAs (Decidable (_ ∧ _ ∧ (_ ∨ _)))
  | .shutdown => inferInstanceAs (Decidable True)

/-- `snapshot_path_map_[name].push_back(dir)`, and what is kept of it. -/
def State.keep (s : State) (dir : Dir) : State :=
  let name := s.current.intervalConfig.name
  { s with
    snapshotPathMap := Function.update s.snapshotPathMap name
      (maintainMaxNumOfSnapshots (s.snapshotPathMap name ++ [dir]))
    made := Function.update s.made s.current.index (s.made s.current.index ++ [dir]) }

def next (s : State) : Action → State
  | .testShutdown => { s with pc := if s.shutdown then .exited else .check }
  | .check now =>
    let generates := s.current.generates now
    { s with
      now := now
      turns := s.turns ++ [⟨s.current, now, generates⟩]
      pc := if generates then .generate else .advance }
  | .generateSnapshot snapshotDir startTime success =>
    { (if success then s.keep snapshotDir else s) with
      now := startTime
      snapshots := s.snapshots ++ [⟨s.current, s.now, startTime⟩]
      pc := .advance }
  | .advance =>
    match heap.take (s.current.advanced :: s.queue) with
    | none => s
    | some (current, queue) => { s with current := current, queue := queue, pc := .wait }
  | .endWait now => { s with now := now, pc := .test }
  | .shutdown => { s with shutdown := true }

def system : TransitionSystem State Action where
  init s := ∃ config currentTime, start heap config currentTime = some s
  step s a := if Enabled s a then some (next heap s a) else none

variable {heap}

theorem step_eq_some {s t : State} {a : Action} :
    (system heap).step s a = some t ↔ Enabled s a ∧ next heap s a = t := by
  change (if Enabled s a then some (next heap s a) else none) = some t ↔ _
  split_ifs with h <;> simp [h]

/-- The interval that is current has had its turn, and is still to be put back. -/
def Pc.holdsServed : Pc → Bool
  | .generate | .advance => true
  | .test | .check | .wait | .exited => false

/-- The sources of the progressions are the intervals, by their places. -/
def period (config : RecorderConfig) (i : ℕ) : ℤ :=
  ((config.snapshotIntervals[i]?).map IntervalConfig.periodNs).getD 0

def sources (config : RecorderConfig) : Finset ℕ :=
  Finset.range config.snapshotIntervals.length

def Turn.merged (u : Turn) : ProgressionMerge.Turn ℕ :=
  ⟨u.wakeUp.index, u.wakeUp.wakeTime⟩

def State.merged (s : State) : List (ProgressionMerge.Turn ℕ) :=
  s.turns.map Turn.merged

/-- The intervals are all there, each with the wake time of its next turn, and the first of them is
the current one. -/
structure Inv (config : RecorderConfig) (t₀ : ℤ) (s : State) : Prop where
  pool : ((s.current :: s.queue).map fun w => (w.intervalConfig, w.index)).Perm
    config.snapshotIntervals.zipIdx
  queued : ∀ w ∈ s.queue, w.wakeTime = nextDue t₀ (period config) s.merged w.index
  served : s.pc.holdsServed = true →
    s.current.nextWakeTime = nextDue t₀ (period config) s.merged s.current.index
  waiting : s.pc.holdsServed = false →
    s.current.wakeTime = nextDue t₀ (period config) s.merged s.current.index ∧
      ∀ w ∈ s.queue, compare s.current w = false
  merges : Merges t₀ (period config) (sources config) s.merged
  awake : (s.pc = .test → s.current.wakeTime ≤ s.now ∨ s.shutdown = true) ∧
    (s.pc = .check → s.current.wakeTime ≤ s.now)
  turns : ∀ u ∈ s.turns, config.snapshotIntervals[u.wakeUp.index]? = some u.wakeUp.intervalConfig ∧
    u.wakeUp.wakeTime ≤ u.checkTime ∧ u.generates = u.wakeUp.generates u.checkTime

section Invariant
variable {config : RecorderConfig} {t₀ : ℤ} {s : State} {w v : WakeUpConfig}

theorem mem_sources_of_getElem? {i : ℕ} {c : IntervalConfig}
    (h : config.snapshotIntervals[i]? = some c) : i ∈ sources config := by
  obtain ⟨hi, -⟩ := List.getElem?_eq_some_iff.mp h
  exact Finset.mem_range.mpr hi

theorem period_of_getElem? {i : ℕ} {c : IntervalConfig}
    (h : config.snapshotIntervals[i]? = some c) : period config i = IntervalConfig.periodNs c := by
  simp [period, h]

/-- Not being less is having a rank that is not greater. -/
theorem rank_le_of_compare (h : compare w v = false)
    (hw : config.snapshotIntervals[w.index]? = some w.intervalConfig)
    (hv : config.snapshotIntervals[v.index]? = some v.intervalConfig) :
    rank (period config) w.index w.wakeTime ≤ rank (period config) v.index v.wakeTime := by
  rw [rank, rank, Prod.Lex.toLex_le_toLex, period_of_getElem? hw, period_of_getElem? hv]
  simp only [compare] at h
  split_ifs at h with hne
  · have hle : ¬ v.wakeTime < w.wakeTime := by simpa using h
    exact Or.inl (by omega)
  · have hle : ¬ v.intervalConfig.period.toInt < w.intervalConfig.period.toInt := by simpa using h
    refine Or.inr ⟨not_not.mp hne, ?_⟩
    simp only [IntervalConfig.periodNs]
    omega

theorem Inv.getElem? (h : Inv config t₀ s) (hw : w ∈ s.current :: s.queue) :
    config.snapshotIntervals[w.index]? = some w.intervalConfig := by
  have hmem := h.pool.mem_iff.mp (List.mem_map_of_mem (f := fun w => (w.intervalConfig, w.index)) hw)
  exact List.mem_zipIdx_iff_getElem?.mp hmem

/-- Every interval is in the queue or current. -/
theorem Inv.exists_wakeUp (h : Inv config t₀ s) {i : ℕ} (hi : i ∈ sources config) :
    ∃ w ∈ s.current :: s.queue, w.index = i := by
  have hlt := Finset.mem_range.mp hi
  have hmem : (config.snapshotIntervals[i], i) ∈ config.snapshotIntervals.zipIdx :=
    List.mem_zipIdx_iff_getElem?.mpr (List.getElem?_eq_getElem hlt)
  obtain ⟨w, hw, he⟩ := List.mem_map.mp (h.pool.mem_iff.mpr hmem)
  exact ⟨w, hw, congrArg Prod.snd he⟩

theorem take_spec {l : List WakeUpConfig} {y : WakeUpConfig} {rest : List WakeUpConfig}
    (h : heap.take l = some (y, rest)) :
    (y :: rest).Perm l ∧ ∀ z ∈ l, compare y z = false := by
  cases l with
  | nil =>
    rw [heap.take_nil] at h
    cases h
  | cons x l =>
    obtain ⟨y', rest', htake, hperm, hmax⟩ := heap.take_cons x l
    rw [htake] at h
    cases h
    exact ⟨hperm, hmax⟩

theorem inv_start (h : start heap config t₀ = some s) : Inv config t₀ s := by
  obtain ⟨⟨current, queue⟩, htake, rfl⟩ := Option.map_eq_some_iff.mp h
  obtain ⟨hperm, hmax⟩ := take_spec htake
  have hwake : ∀ w ∈ current :: queue, w.wakeTime = t₀ := by
    intro w hw
    obtain ⟨c, -, rfl⟩ := List.mem_map.mp (hperm.mem_iff.mp hw)
    rfl
  have hdue (i : ℕ) : nextDue t₀ (period config) [] i = t₀ := by
    simp [nextDue, ProgressionMerge.served]
  refine ⟨?_, fun w hw => ?_, (fun hp => by cases hp), fun _ => ⟨?_, fun w hw => ?_⟩, .nil,
    ⟨fun _ => Or.inl ?_, (fun hp => by cases hp)⟩, (fun u hu => by cases hu)⟩
  · apply (hperm.map _).trans
    simp [initialQueue, Function.comp_def]
  · exact (hwake w (List.mem_cons_of_mem _ hw)).trans (hdue _).symm
  · exact (hwake current List.mem_cons_self).trans (hdue _).symm
  · exact hmax w (hperm.mem_iff.mp (List.mem_cons_of_mem _ hw))
  · exact (hwake current List.mem_cons_self).le

theorem Inv.nodup_index (h : Inv config t₀ s) :
    ((s.current :: s.queue).map WakeUpConfig.index).Nodup := by
  have hperm := h.pool.map Prod.snd
  rw [List.map_map, List.zipIdx_map_snd] at hperm
  exact hperm.nodup_iff.mpr List.nodup_range'

theorem Inv.index_ne (h : Inv config t₀ s) (hw : w ∈ s.queue) : s.current.index ≠ w.index := by
  intro he
  exact (List.nodup_cons.mp h.nodup_index).1 (he ▸ List.mem_map_of_mem hw)

theorem Inv.testShutdown (h : Inv config t₀ s) (he : s.pc = .test) :
    Inv config t₀ (next heap s .testShutdown) := by
  have hwait := h.waiting (by rw [he]; rfl)
  cases hs : s.shutdown with
  | true =>
    simp only [next, hs, if_true]
    exact ⟨h.pool, h.queued, (fun hp => nomatch hp), fun _ => hwait, h.merges,
      ⟨(fun hp => nomatch hp), (fun hp => nomatch hp)⟩, h.turns⟩
  | false =>
    have hawake : s.current.wakeTime ≤ s.now := by simpa [hs] using h.awake.1 he
    simp only [next, hs]
    exact ⟨h.pool, h.queued, (fun hp => nomatch hp), fun _ => hwait, h.merges,
      ⟨(fun hp => nomatch hp), fun _ => hawake⟩, h.turns⟩

/-- The turn of the current interval is the next one of the merge. -/
theorem Inv.check (h : Inv config t₀ s) (he : s.pc = .check) {now : ℤ} (hnow : s.now ≤ now) :
    Inv config t₀ (next heap s (.check now)) := by
  obtain ⟨hwake, hleast⟩ := h.waiting (by rw [he]; rfl)
  have hcurrent := h.getElem? (w := s.current) List.mem_cons_self
  have hmem := mem_sources_of_getElem? hcurrent
  have hmerged : (next heap s (.check now)).merged =
      s.merged ++ [⟨s.current.index, s.current.wakeTime⟩] := by
    simp [next, State.merged, Turn.merged]
  have hone (i : ℕ) : ProgressionMerge.served
      [(⟨s.current.index, s.current.wakeTime⟩ : ProgressionMerge.Turn ℕ)] i =
        if s.current.index = i then 1 else 0 := by
    simp [ProgressionMerge.served, List.countP_singleton]
  refine ⟨h.pool, fun w hw => ?_, fun _ => ?_, fun hp => ?_, ?_, ⟨fun hp => ?_, fun hp => ?_⟩,
    fun u hu => ?_⟩
  -- only the current interval has been served once more
  · rw [hmerged, nextDue_append, hone, if_neg (h.index_ne hw)]
    simpa using h.queued w hw
  · change s.current.nextWakeTime = nextDue _ _ _ s.current.index
    rw [hmerged, nextDue_append, hone, if_pos rfl, ← hwake, period_of_getElem? hcurrent,
      WakeUpConfig.nextWakeTime, Nat.cast_one, one_mul]
  · revert hp
    simp only [next]
    split_ifs <;> exact fun hp => by cases hp
  -- the heap gave an interval that none of the queue is due before
  · rw [hmerged]
    nth_rewrite 1 [hwake]
    refine .snoc h.merges hmem fun j hj => ?_
    obtain ⟨w, hw, rfl⟩ := h.exists_wakeUp hj
    rcases List.mem_cons.mp hw with rfl | hq
    · exact le_refl _
    · rw [← hwake, ← h.queued w hq]
      exact rank_le_of_compare (hleast w hq) hcurrent (h.getElem? hw)
  · revert hp
    simp only [next]
    split_ifs <;> exact fun hp => by cases hp
  · revert hp
    simp only [next]
    split_ifs <;> exact fun hp => by cases hp
  · rcases List.mem_append.mp hu with hu | hu
    · exact h.turns u hu
    · obtain rfl := List.mem_singleton.mp hu
      exact ⟨hcurrent, (h.awake.2 he).trans hnow, rfl⟩

theorem Inv.generateSnapshot (h : Inv config t₀ s) (he : s.pc = .generate) {dir : Dir}
    {startTime : ℤ} {success : Bool} :
    Inv config t₀ (next heap s (.generateSnapshot dir startTime success)) := by
  have hserved := h.served (by rw [he]; rfl)
  cases success <;>
    exact ⟨h.pool, h.queued, fun _ => hserved, (fun hp => nomatch hp), h.merges,
      ⟨(fun hp => nomatch hp), (fun hp => nomatch hp)⟩, h.turns⟩

theorem Inv.advance (h : Inv config t₀ s) (he : s.pc = .advance) :
    Inv config t₀ (next heap s .advance) := by
  have hserved := h.served (by rw [he]; rfl)
  obtain ⟨current, queue, htake, hperm, hmax⟩ := heap.take_cons s.current.advanced s.queue
  -- the queue holds the next turn of every interval
  have hdue : ∀ w ∈ current :: queue, w.wakeTime = nextDue t₀ (period config) s.merged w.index := by
    intro w hw
    rcases List.mem_cons.mp (hperm.mem_iff.mp hw) with rfl | hw
    · exact hserved
    · exact h.queued w hw
  simp only [next, htake]
  refine ⟨?_, fun w hw => hdue w (List.mem_cons_of_mem _ hw), (fun hp => nomatch hp),
    fun _ => ⟨hdue current List.mem_cons_self, fun w hw => ?_⟩, h.merges,
    ⟨(fun hp => nomatch hp), (fun hp => nomatch hp)⟩, h.turns⟩
  · exact (hperm.map _).trans h.pool
  · exact hmax w (hperm.mem_iff.mp (List.mem_cons_of_mem _ hw))

theorem Inv.endWait (h : Inv config t₀ s) (he : s.pc = .wait) {now : ℤ}
    (hnow : s.current.wakeTime ≤ now ∨ s.shutdown = true) :
    Inv config t₀ (next heap s (.endWait now)) :=
  ⟨h.pool, h.queued, (fun hp => nomatch hp), fun _ => h.waiting (by rw [he]; rfl), h.merges,
    ⟨fun _ => hnow, (fun hp => nomatch hp)⟩, h.turns⟩

theorem Inv.shutdown (h : Inv config t₀ s) : Inv config t₀ (next heap s .shutdown) :=
  ⟨h.pool, h.queued, h.served, h.waiting, h.merges, ⟨fun _ => Or.inr rfl, h.awake.2⟩, h.turns⟩

theorem inv_step {a : Action} (he : Enabled s a) (h : Inv config t₀ s) :
    Inv config t₀ (next heap s a) := by
  cases a with
  | testShutdown => exact h.testShutdown he
  | check now => exact h.check he.1 he.2
  | generateSnapshot dir startTime success => exact h.generateSnapshot he.1
  | advance => exact h.advance he
  | endWait now => exact h.endWait he.1 he.2.2
  | shutdown => exact h.shutdown

theorem inv_of_run {s₀ : State} {as : List Action} (hstart : start heap config t₀ = some s₀)
    (hrun : (system heap).exec s₀ as = some s) : Inv config t₀ s := by
  refine TransitionSystem.exec_induction (inv_start hstart) (fun u a v hu hv => ?_) hrun
  obtain ⟨he, rfl⟩ := step_eq_some.mp hv
  exact inv_step he hu

end Invariant
end CrisCore.SnapshotWorker
