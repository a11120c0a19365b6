import CrisCore.RecorderJobs

/-! `files_.clear()` in `~MessageRecorder` against the workers inside `RecordFile::Write`. -/
namespace CrisCore.RecorderThreads
open Strand (JobId)
variable {s : State} {op : Op} {j : JobId}

/-- Worker `w` is inside `Write` on `file`. -/
def Writes (s : State) (w file : ℕ) : Prop :=
  ∃ j, s.worker w = .executing j ∧ s.progress j = .write ∧ s.file j = some file

/-- Nobody writes to a destroyed file. -/
def FilesOutlived (s : State) : Prop :=
  ∀ w file, Writes s w file → s.destroyed file = false

/-- No worker starts a job of a file that is gone, and no file goes while a worker writes to it. -/
def SparesWriters (s : State) : Op → Prop
  | .pickUp _ _ j => ∀ file, s.file j = some file → s.destroyed file = false
  | .destroyFile file => ∀ w, ¬ Writes s w file
  | _ => True

/-- The runner was joined before the files go. -/
def JoinedFirst (s : State) : Op → Prop
  | .destroyFile _ => ∀ w < s.threadNum, s.worker w = .exited
  | _ => True

theorem destroyed_next (s : State) (op : Op) (file : ℕ) :
    (next s op).destroyed file = s.destroyed file ∨ op = .destroyFile file := by
  cases op
  case addSnapshotJob | addRecordJob => exact Or.inl (by simp only [next, State.addJobToRunner_eq])
  case jobStep => exact Or.inl (by simp only [next, State.advance_eq])
  case stopSnapshotWorker d => exact Or.inl (by simp only [next]; split_ifs <;> rfl)
  case destroyFile f =>
    by_cases hf : file = f
    · exact Or.inr (by rw [hf])
    · exact Or.inl (Function.update_of_ne hf _ _)
  all_goals exact Or.inl rfl

/-- A worker comes into `Write` by picking up a record job. -/
theorem writes_next (he : Enabled s op) (h : Inv s) {w file : ℕ} (hw : Writes (next s op) w file) :
    Writes s w file ∨ ∃ queue j, op = .pickUp w queue j ∧ s.file j = some file := by
  obtain ⟨j, hexec, hwrite, hfile⟩ := hw
  rcases executing_next hexec with ⟨hexec, -⟩ | ⟨queue, rfl⟩
  · have hrun := h.executing w j hexec
    refine Or.inl ⟨j, hexec, ?_, ?_⟩
    · rcases progress_next s op j with hp | ⟨v, queue, rfl, -⟩ | ⟨v, rfl, hp⟩
      · exact hp ▸ hwrite
      · rw [h.queued_of_pickUp he] at hrun
        cases hrun
      · exact absurd (hp ▸ hwrite) (JobPc.next_ne_write _ _)
    · rcases file_next s op j with hf | ⟨own, rfl, -⟩ | ⟨f, rfl, -⟩
      · exact hf ▸ hfile
      all_goals
        rw [Strand.phase_of_idle h.coherent he.2.1] at hrun
        cases hrun
  · exact Or.inr ⟨queue, j, rfl, hfile⟩

/-- One step keeps every writer's file exactly if it meets `SparesWriters`. -/
theorem filesOutlived_next (he : Enabled s op) (h : Inv s) (hs : FilesOutlived s) :
    FilesOutlived (next s op) ↔ SparesWriters s op := by
  constructor
  · intro hn
    cases op
    case pickUp w queue j =>
      intro file hfile
      refine hn w file ⟨j, ?_, ?_, hfile⟩
      · simp [next, State.setProgress, State.setWorker, State.act]
      · simp [next, State.setProgress, State.setWorker, State.act, JobPc.first, hfile]
    case destroyFile file =>
      intro w hw
      have hkept : Function.update s.destroyed file true file = false := hn w file hw
      simp at hkept
    all_goals trivial
  · intro hc w file hw
    rcases writes_next he h hw with hw | ⟨queue, j, rfl, hfile⟩
    · rcases destroyed_next s op file with hd | rfl
      · exact hd.trans (hs w file hw)
      · exact absurd hw (hc w)
    · exact hc file hfile

/-- Once a file is gone no worker is left. -/
def JoinedBeforeClear (s : State) : Prop :=
  ∀ file, s.destroyed file = true → ∀ w < s.threadNum, s.worker w = .exited

theorem joinedBeforeClear_next (he : Enabled s op) (h : JoinedBeforeClear s)
    (hc : JoinedFirst s op) : JoinedBeforeClear (next s op) := by
  intro file hd w hlt
  rw [threadNum_next] at hlt
  apply exited_stays he
  rcases destroyed_next s op file with hf | rfl
  · exact h file (hf ▸ hd) w hlt
  · exact hc w hlt

theorem filesOutlived_of_joined (h : Inv s) (hj : JoinedBeforeClear s) : FilesOutlived s := by
  rintro w file ⟨j, hexec, -⟩
  by_contra hd
  have hexit := hj file (by simpa using hd) w (h.bound w j hexec)
  cases hexit.symm.trans hexec

/-- Along every run no job writes to a destroyed file exactly if every step meets `SparesWriters`;
it is enough that the workers of the runner have exited whenever a file goes. -/
theorem record_files_outlive_jobs {s t : State} {ops : List Op} (h : Init s)
    (he : system.exec s ops = some t) :
    (system.StatesMeet FilesOutlived s ops ↔ system.StepsMeet SparesWriters s ops) ∧
      (system.StepsMeet JoinedFirst s ops → system.StatesMeet FilesOutlived s ops) := by
  refine ⟨?_, fun hj => ?_⟩
  · refine TransitionSystem.statesMeet_iff_stepsMeet (I := Inv) (fun u op v hu hstep => ?_)
      (fun u op v hu hs hstep => ?_) (inv_init h) (fun w file hw => h.files file) he
    · obtain ⟨hen, rfl⟩ := step_eq_some.mp hstep
      exact inv_step hen hu
    · obtain ⟨hen, rfl⟩ := step_eq_some.mp hstep
      exact filesOutlived_next hen hu hs
  · have h0 : Inv s ∧ JoinedBeforeClear s :=
      ⟨inv_init h, fun file hd => nomatch hd.symm.trans (h.files file)⟩
    have hall := hj.statesMeet (P := fun u => Inv u ∧ JoinedBeforeClear u) h0 ?_
    · exact hall.mono fun u hu => filesOutlived_of_joined hu.1 hu.2
    · rintro u op v ⟨hu, hjoin⟩ hc hstep
      obtain ⟨hen, rfl⟩ := step_eq_some.mp hstep
      exact ⟨inv_step hen hu, joinedBeforeClear_next hen hjoin hc⟩

/-- A worker picks up a record job, then the recorder is destroyed. -/
def clearUnderWriterRun : List Op :=
  [.registerChannel, .addRecordJob 0 0] ++ addJobSteps 0 ++ [.testShutdown 0, .pickUp 0 0 0] ++
    stopSteps true ++ [.testSnapshotShutdown, .joinSnapshotThread, .destroyFile 0]

theorem exec_clearUnderWriterRun : system.exec (newRecorder 1) clearUnderWriterRun =
    some (system.after (newRecorder 1) clearUnderWriterRun) :=
  system.exec_after (by decide)

theorem record_files_outlive_jobs_clearUnderWriterRun :
    (system.StatesMeet FilesOutlived (newRecorder 1) clearUnderWriterRun ↔
        system.StepsMeet SparesWriters (newRecorder 1) clearUnderWriterRun) ∧
      (system.StepsMeet JoinedFirst (newRecorder 1) clearUnderWriterRun →
        system.StatesMeet FilesOutlived (newRecorder 1) clearUnderWriterRun) :=
  record_files_outlive_jobs (init_newRecorder 1) exec_clearUnderWriterRun

/-- `files_.clear()` destroys the file a worker is writing to: `Stop` waited for nobody. -/
theorem clear_destroys_file_in_use :
    ∃ s, system.Reachable s ∧ s.worker 0 = .executing 0 ∧ s.progress 0 = .write ∧
      s.file 0 = some 0 ∧ s.destroyed 0 = true :=
  ⟨system.after (newRecorder 1) clearUnderWriterRun, .after (init_newRecorder 1) _, by decide,
    by decide, by decide, by decide⟩

end CrisCore.RecorderThreads
