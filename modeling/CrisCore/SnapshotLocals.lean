import CrisCore.RecorderJobs

/-! The locals of `GenerateSnapshot` that its job captures by reference: `info`, the flag,
`snapshot_dir` and `interval_config`. -/
namespace CrisCore.RecorderThreads
open Strand (JobId)
variable {s : State} {op : Op} {j : JobId}

/-- The job of a call of `GenerateSnapshot` has a step left that uses the locals of the call. -/
def UsesLocals (s : State) (j : JobId) : Prop :=
  s.file j = none ∧
    match s.progress j with
    | .notStarted | .preStart | .generate | .setFlag | .postFinish => True
    | .notifyAll => s.postFinish = true
    | .write | .ended => False

/-- No call has returned while its job still uses its locals. -/
def LocalsOutlived (s : State) : Prop :=
  ∀ j, s.call j = .returned → ¬ UsesLocals s j

/-- A waiter that finds its flag set finds the callback behind it too, or none to come; and no
callback is set between the flag and the test for one. -/
def ReturnsAfterCallback (s : State) : Op → Prop
  | .testPredicate j => s.generated j = true → ¬ UsesLocals s j
  | .setPostFinishCallback callback =>
    callback = true → ∀ j, s.call j = .returned → s.file j = none → s.progress j ≠ .notifyAll
  | _ => True

theorem postFinish_next (s : State) (op : Op) :
    (next s op).postFinish = s.postFinish ∨ ∃ callback, op = .setPostFinishCallback callback := by
  cases op
  case addSnapshotJob | addRecordJob => exact Or.inl (by simp only [next, State.addJobToRunner_eq])
  case jobStep => exact Or.inl (by simp only [next, State.advance_eq])
  case stopSnapshotWorker d => exact Or.inl (by simp only [next]; split_ifs <;> rfl)
  case setPostFinishCallback callback => exact Or.inr ⟨callback, rfl⟩
  all_goals exact Or.inl rfl

/-- A job that is done with the locals stays so, unless a callback is set for it. -/
theorem usesLocals_next (he : Enabled s op) (h : Inv s) (hc : ReturnsAfterCallback s op)
    (hret : s.call j = .returned) (hu : ¬ UsesLocals s j) : ¬ UsesLocals (next s op) j := by
  rintro ⟨hfile, huse⟩
  have hf : s.file j = none := by
    rcases file_next s op j with hf | ⟨own, rfl, -⟩ | ⟨file, rfl, -⟩
    · exact hf ▸ hfile
    all_goals exact nomatch he.1.symm.trans hret
  have hu : ¬ (match s.progress j with
      | .notStarted | .preStart | .generate | .setFlag | .postFinish => True
      | .notifyAll => s.postFinish = true
      | .write | .ended => False) := fun h => hu ⟨hf, h⟩
  rcases progress_next s op j with hp | ⟨w, queue, rfl, -⟩ | ⟨w, rfl, hp⟩
  · rw [hp] at huse
    rcases postFinish_next s op with hpost | ⟨callback, rfl⟩
    · rw [hpost] at huse
      exact hu huse
    · cases hq : s.progress j <;> simp only [hq, not_true_eq_false] at hu huse
      exact hc huse j hret hf hq
  · rw [h.progress_of_pickUp he] at hu
    exact hu trivial
  · have hpost : (next s (.jobStep w j)).postFinish = s.postFinish := by
      simp only [next, State.advance_eq]
    rw [hp, hpost] at huse
    cases hq : s.progress j <;>
      simp only [hq, JobPc.next, not_true_eq_false] at hu huse
    rw [if_neg hu] at huse
    exact huse

/-- One step lets no local die too early exactly if it meets `ReturnsAfterCallback`. -/
theorem localsOutlived_next (he : Enabled s op) (h : Inv s) (hs : LocalsOutlived s) :
    LocalsOutlived (next s op) ↔ ReturnsAfterCallback s op := by
  constructor
  · intro hn
    cases op
    case testPredicate k =>
      intro hg
      exact hn k (by simp [next, State.setCall, hg])
    case setPostFinishCallback callback =>
      intro hcb k hret hfile hp
      refine hn k hret ⟨hfile, ?_⟩
      simp only [next, hp, hcb]
    all_goals trivial
  · intro hc j hret
    have hcall := call_next he j
    generalize hp : (next s op).call j = p at hcall
    rw [hp] at hret
    -- a call returns when it has seen its flag, or never had a snapshot job
    cases hcall with
    | stay => exact usesLocals_next he h hc hret (hs j hret)
    | wake | returnAddJob => cases hret
    | addSnapshotJob own => split_ifs at hret
    | addRecordJob file =>
      rintro ⟨hfile, -⟩
      simp [next, State.addJobToRunner_eq] at hfile
    | leaveRunner =>
      rintro ⟨hfile, -⟩
      have hfile : s.file j = none := hfile
      simp [hfile] at hret
    | testPredicate =>
      split_ifs at hret with hg
      exact hc hg

/-- No callback is set and none runs. -/
structure Quiet (s : State) : Prop where
  unset : s.postFinish = false
  none : ∀ j, s.progress j ≠ .postFinish

theorem Quiet.next (hq : Quiet s) (hop : op ≠ .setPostFinishCallback true) :
    Quiet (RecorderThreads.next s op) := by
  constructor
  · rcases postFinish_next s op with hp | ⟨callback, rfl⟩
    · exact hp.trans hq.unset
    · cases callback
      · rfl
      · exact absurd rfl hop
  · intro j
    rcases progress_next s op j with hp | ⟨w, queue, -, hp⟩ | ⟨w, -, hp⟩ <;> rw [hp]
    · exact hq.none j
    · rw [JobPc.first]
      split_ifs <;> simp
    · rw [hq.unset]
      cases s.progress j <;> simp [JobPc.next]

theorem Quiet.returnsAfterCallback (hq : Quiet s) (h : Inv s)
    (hop : op ≠ .setPostFinishCallback true) : ReturnsAfterCallback s op := by
  cases op
  case testPredicate j =>
    rintro hg ⟨-, huse⟩
    rcases h.flagged j hg with hp | hp | hp
    · simp only [hp] at huse
      exact nomatch huse.symm.trans hq.unset
    · exact hq.none j hp
    · simp only [hp] at huse
  case setPostFinishCallback callback =>
    rintro rfl
    exact absurd rfl hop
  all_goals trivial

theorem Quiet.stepsMeet {ops : List Op} (hq : Quiet s) (h : Inv s)
    (hops : .setPostFinishCallback true ∉ ops) :
    system.StepsMeet ReturnsAfterCallback s ops := by
  induction ops generalizing s with
  | nil => trivial
  | cons op ops ih =>
    rw [List.mem_cons, not_or] at hops
    refine ⟨hq.returnsAfterCallback h (Ne.symm hops.1), fun t ht => ?_⟩
    obtain ⟨hen, rfl⟩ := step_eq_some.mp ht
    exact ih (hq.next (Ne.symm hops.1)) (inv_step hen h) hops.2

/-- Along every run no local of a call dies before the last step of its job that uses it exactly
if every step meets `ReturnsAfterCallback`; so it is in every run that sets no callback. -/
theorem snapshot_locals_outlive_job {s t : State} {ops : List Op} (h : Init s)
    (he : system.exec s ops = some t) :
    (system.StatesMeet LocalsOutlived s ops ↔ system.StepsMeet ReturnsAfterCallback s ops) ∧
      (.setPostFinishCallback true ∉ ops → system.StatesMeet LocalsOutlived s ops) := by
  have hiff : system.StatesMeet LocalsOutlived s ops ↔
      system.StepsMeet ReturnsAfterCallback s ops := by
    refine TransitionSystem.statesMeet_iff_stepsMeet (I := Inv) (fun u op v hu hstep => ?_)
      (fun u op v hu hs hstep => ?_) (inv_init h) (fun j hret => ?_) he
    · obtain ⟨hen, rfl⟩ := step_eq_some.mp hstep
      exact inv_step hen hu
    · obtain ⟨hen, rfl⟩ := step_eq_some.mp hstep
      exact localsOutlived_next hen hu hs
    · exact nomatch (h.noJobs j).1.symm.trans hret
  have hquiet : Quiet s := ⟨h.callbacks.2, fun j hp => nomatch (h.noJobs j).2.1.symm.trans hp⟩
  exact ⟨hiff, fun hops => hiff.mpr (hquiet.stepsMeet (inv_init h) hops)⟩

/-- The waiter wakes up between the flag and the callback. -/
def returnBeforeCallbackRun : List Op :=
  [.setPostFinishCallback true, .testSnapshotShutdown, .addSnapshotJob 0 true] ++ addJobSteps 0 ++
    [.testPredicate 0, .testShutdown 0, .pickUp 0 0 0, .jobStep 0 0, .jobStep 0 0, .wakeUp 0,
      .testPredicate 0, .finishCall 0, .jobStep 0 0]

theorem exec_returnBeforeCallbackRun : system.exec (newRecorder 1) returnBeforeCallbackRun =
    some (system.after (newRecorder 1) returnBeforeCallbackRun) :=
  system.exec_after (by decide)

theorem snapshot_locals_outlive_job_returnBeforeCallbackRun :
    (system.StatesMeet LocalsOutlived (newRecorder 1) returnBeforeCallbackRun ↔
        system.StepsMeet ReturnsAfterCallback (newRecorder 1) returnBeforeCallbackRun) ∧
      (.setPostFinishCallback true ∉ returnBeforeCallbackRun →
        system.StatesMeet LocalsOutlived (newRecorder 1) returnBeforeCallbackRun) :=
  snapshot_locals_outlive_job (init_newRecorder 1) exec_returnBeforeCallbackRun

/-- The call has returned and its job is about to run the callback on the locals of the call. -/
theorem callback_runs_on_dead_locals :
    ∃ s, system.Reachable s ∧ s.call 0 = .returned ∧ s.file 0 = none ∧
      s.worker 0 = .executing 0 ∧ s.progress 0 = .postFinish :=
  ⟨system.after (newRecorder 1) returnBeforeCallbackRun, .after (init_newRecorder 1) _, by decide,
    by decide, by decide, by decide⟩

end CrisCore.RecorderThreads
