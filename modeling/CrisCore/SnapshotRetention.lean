import CrisCore.SnapshotSchedule

/-! How many snapshots of an interval `snapshot_path_map_` holds: those the configuration asks for,
or those of the recorder's own constant. -/
namespace CrisCore.SnapshotWorker
open RecorderConfig PriorityMerge

def newest {α : Type*} (k : ℕ) (l : List α) : List α :=
  l.drop (l.length - k)

section Newest
variable {α : Type*} {k m : ℕ} {l : List α}

theorem length_newest (k : ℕ) (l : List α) : (newest k l).length = min l.length k := by
  rw [newest, List.length_drop]
  omega

theorem newest_of_length_le (h : l.length ≤ k) : newest k l = l := by
  rw [newest, Nat.sub_eq_zero_of_le h, List.drop_zero]

/-- The newest of the newest and one more are the newest of all. -/
theorem newest_newest_append (k : ℕ) (l : List α) (a : α) :
    newest k (newest k l ++ [a]) = newest k (l ++ [a]) := by
  rcases Nat.le_total l.length k with h | h
  · rw [newest_of_length_le h]
  · have hlen : (newest k l ++ [a]).length - k = 1 := by
      rw [List.length_append, length_newest, List.length_singleton]
      omega
    have hdrop : (l ++ [a]).length - k = (l.length - k) + 1 := by
      rw [List.length_append, List.length_singleton]
      omega
    calc newest k (newest k l ++ [a]) = (newest k l ++ [a]).drop 1 := by rw [newest, hlen]
      _ = ((l ++ [a]).drop (l.length - k)).drop 1 := by
        rw [List.drop_append_of_le_length (Nat.sub_le _ _)]
        rfl
      _ = newest k (l ++ [a]) := by rw [newest, hdrop, List.drop_drop]

/-- Two numbers of newest elements are the same elements when neither is short of the other. -/
theorem newest_eq_newest_iff :
    newest k l = newest m l ↔ k = m ∨ l.length ≤ min k m := by
  constructor
  · intro h
    have hlen := congrArg List.length h
    rw [length_newest, length_newest] at hlen
    omega
  · rintro (rfl | h)
    · rfl
    · rw [newest_of_length_le (by omega), newest_of_length_le (by omega)]

theorem maintainMaxNumOfSnapshots_eq (dirs : List Dir) :
    maintainMaxNumOfSnapshots dirs = newest snapshotMaxNum dirs := by
  induction dirs with
  | nil => rfl
  | cons dir dirs ih =>
    rw [maintainMaxNumOfSnapshots]
    split_ifs with h
    · have hdrop : (dir :: dirs).length - snapshotMaxNum =
          (dirs.length - snapshotMaxNum) + 1 := by
        rw [List.length_cons] at h ⊢
        omega
      rw [ih, newest, newest, hdrop, List.drop_succ_cons]
    · exact (newest_of_length_le (by omega)).symm

end Newest

/-- What the map holds of the snapshots made for each interval. -/
def Kept (config : RecorderConfig) (s : State) : Prop :=
  ∀ i c, config.snapshotIntervals[i]? = some c →
    s.snapshotPathMap c.name = newest snapshotMaxNum (s.made i)

section Retention
variable {heap : TakeMax compare} {config : RecorderConfig} {t₀ : ℤ} {s : State} {i j : ℕ}
  {c d : IntervalConfig}

theorem index_eq_of_name (hnames : (config.snapshotIntervals.map IntervalConfig.name).Nodup)
    (hi : config.snapshotIntervals[i]? = some c) (hj : config.snapshotIntervals[j]? = some d)
    (hname : c.name = d.name) : i = j := by
  obtain ⟨hlt, -⟩ := List.getElem?_eq_some_iff.mp hi
  refine (List.getElem?_inj (by simpa using hlt) hnames).mp ?_
  rw [List.getElem?_map, List.getElem?_map, hi, hj, Option.map_some, Option.map_some, hname]

/-- A snapshot is added to the list of its own interval and to no other. -/
theorem Kept.keep (h : Kept config s)
    (hnames : (config.snapshotIntervals.map IntervalConfig.name).Nodup)
    (hcurrent : config.snapshotIntervals[s.current.index]? = some s.current.intervalConfig)
    (dir : Dir) : Kept config (s.keep dir) := by
  intro i c hi
  by_cases hindex : i = s.current.index
  · subst hindex
    obtain rfl := Option.some_inj.mp (hi.symm.trans hcurrent)
    simp only [State.keep, Function.update_self]
    rw [maintainMaxNumOfSnapshots_eq, h _ _ hcurrent, newest_newest_append]
  · have hname : c.name ≠ s.current.intervalConfig.name :=
      fun he => hindex (index_eq_of_name hnames hi hcurrent he)
    simp only [State.keep, Function.update_of_ne hname, Function.update_of_ne hindex]
    exact h i c hi

theorem kept_step {a : Action} (hinv : Inv config t₀ s) (h : Kept config s)
    (hnames : (config.snapshotIntervals.map IntervalConfig.name).Nodup) :
    Kept config (next heap s a) := by
  cases a with
  | generateSnapshot dir startTime success =>
    cases success with
    | true => exact h.keep hnames (hinv.getElem? List.mem_cons_self) dir
    | false => exact h
  | advance =>
    simp only [next]
    split <;> exact h
  | _ => exact h

theorem kept_of_run {s₀ : State} {as : List Action}
    (hnames : (config.snapshotIntervals.map IntervalConfig.name).Nodup)
    (hstart : start heap config t₀ = some s₀) (hrun : (system heap).exec s₀ as = some s) :
    Kept config s := by
  have hkept₀ : Kept config s₀ := by
    obtain ⟨_, -, rfl⟩ := Option.map_eq_some_iff.mp hstart
    exact fun _ _ _ => rfl
  have hstep : ∀ u a v, Inv config t₀ u ∧ Kept config u → (system heap).step u a = some v →
      Inv config t₀ v ∧ Kept config v := by
    intro u a v hu hv
    obtain ⟨he, rfl⟩ := step_eq_some.mp hv
    exact ⟨inv_step he hu.1, kept_step hu.1 hu.2 hnames⟩
  exact (TransitionSystem.exec_induction ⟨inv_start hstart, hkept₀⟩ hstep hrun).2

/-- The configured number of copies is kept exactly when it is the recorder's constant, or so few
snapshots were made that neither limit is reached. -/
theorem snapshot_retention {s₀ : State} {as : List Action}
    (hnames : (config.snapshotIntervals.map IntervalConfig.name).Nodup)
    (hstart : start heap config t₀ = some s₀) (hrun : (system heap).exec s₀ as = some s)
    (hi : config.snapshotIntervals[i]? = some c) :
    s.snapshotPathMap c.name = newest (min (s.made i).length c.maxNumOfCopies) (s.made i) ↔
      c.maxNumOfCopies = 48 ∨ (s.made i).length ≤ min 48 c.maxNumOfCopies := by
  have hmin : newest (min (s.made i).length c.maxNumOfCopies) (s.made i) =
      newest c.maxNumOfCopies (s.made i) := by
    rw [newest_eq_newest_iff]
    omega
  rw [hmin, kept_of_run hnames hstart hrun i c hi, newest_eq_newest_iff, snapshotMaxNum]
  omega

theorem snapshot_retention_slowSnapshotRun :
    ((system scanHeap).after slowStart slowSnapshotRun).snapshotPathMap "1 SECOND" =
      newest (min (((system scanHeap).after slowStart slowSnapshotRun).made 1).length 48)
        (((system scanHeap).after slowStart slowSnapshotRun).made 1) := by
  have hstart : start scanHeap twoIntervals 0 = some slowStart := (Option.some_get _).symm
  have hrun : ((system scanHeap).exec slowStart slowSnapshotRun).isSome = true := by decide +kernel
  have hi : twoIntervals.snapshotIntervals[1]? = some ⟨"1 SECOND", 1, 48⟩ := rfl
  exact (snapshot_retention (by decide) hstart ((system scanHeap).exec_after hrun) hi).mpr (Or.inl rfl)

/-- Every second, and only the newest copy is asked for. -/
def oneCopy : RecorderConfig :=
  { default with snapshotIntervals := [⟨"1 SECOND", 1, 1⟩] }

def oneCopyStart : State :=
  (start scanHeap oneCopy 0).get (by decide +kernel)

def twoSnapshotsRun : List Action :=
  [.testShutdown, .check 0, .generateSnapshot ["s", "0"] 0 true, .advance, .endWait 1000000000,
    .testShutdown, .check 1000000000, .generateSnapshot ["s", "1"] 1000000000 true, .advance]

/-- Both snapshots are kept. -/
theorem max_num_of_copies_ignored :
    start scanHeap oneCopy 0 = some oneCopyStart ∧
      ((system scanHeap).exec oneCopyStart twoSnapshotsRun).isSome = true ∧
      ((system scanHeap).after oneCopyStart twoSnapshotsRun).made 0 = [["s", "0"], ["s", "1"]] ∧
      ((system scanHeap).after oneCopyStart twoSnapshotsRun).snapshotPathMap "1 SECOND" =
        [["s", "0"], ["s", "1"]] :=
  ⟨(Option.some_get _).symm, by decide +kernel, by decide +kernel, by decide +kernel⟩

end Retention
end CrisCore.SnapshotWorker
