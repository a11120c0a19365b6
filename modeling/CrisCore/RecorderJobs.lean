import CrisCore.RecorderThreads
import CrisCore.StrandEnqueue

/-! The jobs of a recorder: how far each has come, and who executes it. -/
namespace CrisCore

namespace Strand
variable {s : State} {a : Action} {j : JobId}

def Phase.Started (p : Phase) : Prop :=
  p = .running ∨ p = .finished

theorem JobStep.started {alive : Bool} {v w : JobView} (hs : JobStep alive v w) (hv : JobOk v)
    (h : v.phase.Started) : w.phase.Started := by
  cases hs with
  | claim hu | enqueue hu =>
    rw [hv.phase_of_unaccepted hu] at h
    rcases h with h | h <;> cases h
  | startInPlace => exact Or.inl rfl
  | start => exact Or.inl rfl
  | finish => exact Or.inr rfl
  | pop a hp | hand a w hp | drop hp | discardPopped a hp | discardQueued w hp =>
    rw [hp] at h
    rcases h with h | h <;> cases h
  | share | handOver | dropToken | return_ => exact h

/-- A job that started stays so. -/
theorem started_step (he : Enabled s a) (hc : Coherent s) (h : (s.phase j).Started) :
    ((next s a).phase j).Started := by
  rcases view_step he hc.place j with hv | hv
  · have hphase : (next s a).phase j = s.phase j := congrArg JobView.phase hv
    rwa [hphase]
  · exact hv.started (hc.job j) h

theorem phase_of_head (hc : Coherent s) {w : ℕ} (h : (s.jobQueue w).head? = some j) :
    s.phase j = .queued w :=
  (hc.place.mem_queue w j).mp (List.mem_of_head? h)

/-- A job runs until its body ends. -/
theorem running_step (he : Enabled s a) (hc : Coherent s) (h : s.phase j = .running)
    (ha : a ≠ .finishJob j) : (next s a).phase j = .running := by
  rcases phase_step he hc j with hp | hp
  · exact hp.trans h
  · rw [h] at hp
    generalize (next s a).phase j = q at hp
    cases hp
    exact absurd rfl ha

theorem phase_of_idle (hc : Coherent s) (h : s.pc (.addJob, j) = .idle) : s.phase j = .absent :=
  (hc.job j).phase_of_unaccepted (by simp [State.view, h, Pc.stage])

/-- What the steps of `AddJob` and of a release do to a job. -/
inductive InternalStep (alive : Bool) : Phase → Phase → Prop
  | stay (p : Phase) : InternalStep alive p p
  | push : InternalStep alive .absent .pending
  | pop (b : Activation) : InternalStep alive .pending (.popped b)
  | hand (b : Activation) (w : ℕ) (h : alive = true) : InternalStep alive (.popped b) (.queued w)
  | discard (b : Activation) (h : alive = false) : InternalStep alive (.popped b) .discarded

theorem phase_internal {threadNum : ℕ} (hi : RecorderThreads.isInternal threadNum a = true)
    (he : Enabled s a) (hc : Coherent s) (j : JobId) :
    InternalStep s.runnerAlive (s.phase j) ((next s a).phase j) := by
  rcases phase_step he hc j with hp | hp
  · rw [hp]
    exact .stay _
  · generalize s.phase j = p at hp ⊢
    generalize (next s a).phase j = q at hp ⊢
    cases hp with
    | push => exact .push
    | consumeOne b => exact .pop b
    | hand b j w hr => exact .hand b w hr
    | discardPopped b j w hr => exact .discard b hr
    | _ => cases hi

end Strand

namespace RecorderThreads
open Strand (JobId)
variable {s : State} {op : Op} {j : JobId}

namespace State

theorem addJobToRunner_eq (s : State) (j : JobId) (p : CallPc) :
    s.addJobToRunner j p =
      { s with
        strand :=
          if s.strand.runnerAlive then Strand.next s.strand (.call j .enqueue) else s.strand
        call := Function.update s.call j (if s.strand.runnerAlive then .adding else p)
        runnerRefs := s.runnerRefs + if s.strand.runnerAlive then 1 else 0 } := by
  unfold addJobToRunner
  split_ifs <;> rfl

theorem advance_eq (s : State) (j : JobId) :
    s.advance j =
      { s with
        progress := Function.update s.progress j ((s.progress j).next s.postFinish)
        generated :=
          if s.progress j = .setFlag then Function.update s.generated j true else s.generated
        call := if s.progress j = .notifyAll then s.notifyAll.call else s.call } := by
  unfold advance
  cases s.progress j <;> rfl

end State

/-- The step of the strand that a step takes. -/
def State.strandAction (s : State) : Op → Option Strand.Action
  | .addSnapshotJob j _ | .addRecordJob j _ =>
    if s.strand.runnerAlive then some (.call j .enqueue) else none
  | .strand a => some a
  | .returnAddJob j => some (.return_ j)
  | .pickUp _ queue j => some (.startJob queue j)
  | .finishJob _ j => some (.finishJob j)
  | .leaveRunner _ | .leaveStop | .releaseRunner =>
    if s.runnerRefs = 1 then some .expireRunner else none
  | .discardQueued queue j => some (.discardQueued queue j)
  | _ => none

theorem strand_next (s : State) (op : Op) :
    (next s op).strand = (s.strandAction op).elim s.strand (Strand.next s.strand) := by
  cases op
  case addSnapshotJob | addRecordJob =>
    simp only [next, State.addJobToRunner_eq, State.strandAction]
    split_ifs <;> rfl
  case leaveRunner | leaveStop | releaseRunner =>
    simp only [next, State.dropRunner, State.setCall, State.strandAction]
    split_ifs <;> rfl
  case jobStep w j => simp only [next, State.advance_eq, State.strandAction, Option.elim_none]
  case stopSnapshotWorker d =>
    simp only [next, State.strandAction, Option.elim_none]
    split_ifs <;> rfl
  all_goals rfl

theorem strandAction_enabled (he : Enabled s op) {a : Strand.Action}
    (h : s.strandAction op = some a) : Strand.Enabled s.strand a := by
  cases op <;> simp only [Enabled] at he <;>
    simp only [State.strandAction, Option.some.injEq, reduceCtorEq] at h
  case addSnapshotJob | addRecordJob =>
    split_ifs at h
    cases h
    exact he.2.1
  case leaveRunner | leaveStop | releaseRunner =>
    split_ifs at h
    cases h
    trivial
  case strand | returnAddJob | discardQueued => exact h ▸ he.2
  case pickUp => exact h ▸ he.2.2
  case finishJob => exact h ▸ he.2.2.2

/-- What every step of the strand keeps, every step keeps. -/
theorem strand_invariant {P : Strand.State → Prop} (he : Enabled s op) (h : P s.strand)
    (hstep : ∀ a, s.strandAction op = some a → Strand.Enabled s.strand a →
      P (Strand.next s.strand a)) : P (next s op).strand := by
  rw [strand_next]
  cases ha : s.strandAction op with
  | none => exact h
  | some a => exact hstep a ha (strandAction_enabled he ha)

/-- The body of a job moves only in the hands of a worker. -/
theorem progress_next (s : State) (op : Op) (j : JobId) :
    (next s op).progress j = s.progress j ∨
      (∃ w queue, op = .pickUp w queue j ∧
        (next s op).progress j = .first (s.file j) s.preStart) ∨
      ∃ w, op = .jobStep w j ∧ (next s op).progress j = (s.progress j).next s.postFinish := by
  cases op
  case pickUp w queue k =>
    by_cases hj : j = k
    · subst hj
      exact Or.inr (Or.inl ⟨w, queue, rfl, by simp [next, State.setProgress, State.setWorker,
        State.act]⟩)
    · exact Or.inl (by simp [next, State.setProgress, State.setWorker, State.act, hj])
  case jobStep w k =>
    by_cases hj : j = k
    · subst hj
      exact Or.inr (Or.inr ⟨w, rfl, by simp [next, State.advance_eq]⟩)
    · exact Or.inl (by simp [next, State.advance_eq, hj])
  case addSnapshotJob | addRecordJob => exact Or.inl (by simp [next, State.addJobToRunner_eq])
  case stopSnapshotWorker d => exact Or.inl (by simp only [next]; split_ifs <;> rfl)
  all_goals exact Or.inl rfl

theorem generated_next (s : State) (op : Op) (j : JobId) :
    (next s op).generated j = s.generated j ∨
      ∃ w, op = .jobStep w j ∧ s.progress j = .setFlag ∧ (next s op).generated j = true := by
  cases op
  case jobStep w k =>
    by_cases hp : s.progress k = .setFlag ∧ j = k
    · obtain ⟨hp, rfl⟩ := hp
      exact Or.inr ⟨w, rfl, hp, by simp [next, State.advance_eq, hp]⟩
    · refine Or.inl ?_
      simp only [next, State.advance_eq]
      split_ifs with hflag
      · exact Function.update_of_ne (fun hj => hp ⟨hflag, hj⟩) _ _
      · rfl
  case addSnapshotJob | addRecordJob => exact Or.inl (by simp [next, State.addJobToRunner_eq])
  case stopSnapshotWorker d => exact Or.inl (by simp only [next]; split_ifs <;> rfl)
  all_goals exact Or.inl rfl

/-- A job gets its file with its call. -/
theorem file_next (s : State) (op : Op) (j : JobId) :
    (next s op).file j = s.file j ∨
      (∃ own, op = .addSnapshotJob j own ∧ (next s op).file j = none) ∨
      ∃ file, op = .addRecordJob j file ∧ (next s op).file j = some file := by
  cases op
  case addSnapshotJob k own =>
    by_cases hj : j = k
    · subst hj
      exact Or.inr (Or.inl ⟨own, rfl, by simp [next, State.addJobToRunner_eq]⟩)
    · exact Or.inl (by simp [next, State.addJobToRunner_eq, hj])
  case addRecordJob k file =>
    by_cases hj : j = k
    · subst hj
      exact Or.inr (Or.inr ⟨file, rfl, by simp [next, State.addJobToRunner_eq]⟩)
    · exact Or.inl (by simp [next, State.addJobToRunner_eq, hj])
  case jobStep w k => exact Or.inl (by simp only [next, State.advance_eq])
  case stopSnapshotWorker d => exact Or.inl (by simp only [next]; split_ifs <;> rfl)
  all_goals exact Or.inl rfl

/-- The moves of a call. -/
inductive CallStep (s : State) (j : JobId) : Op → CallPc → Prop
  | stay (op : Op) : CallStep s j op (s.call j)
  | wake (op : Op) (h : s.call j = .asleep) : CallStep s j op .testing
  | addSnapshotJob (own : Bool) :
    CallStep s j (.addSnapshotJob j own) (if s.strand.runnerAlive then .adding else .testing)
  | addRecordJob (file : ℕ) :
    CallStep s j (.addRecordJob j file) (if s.strand.runnerAlive then .adding else .returned)
  | returnAddJob : CallStep s j (.returnAddJob j) .leaving
  | leaveRunner :
    CallStep s j (.leaveRunner j) (if (s.file j).isNone then .testing else .returned)
  | testPredicate :
    CallStep s j (.testPredicate j) (if s.generated j then .returned else .asleep)

theorem call_next (he : Enabled s op) (j : JobId) : CallStep s j op ((next s op).call j) := by
  have hset {k : JobId} {p : CallPc} (hn : (next s op).call = Function.update s.call k p)
      (hk : CallStep s k op p) : CallStep s j op ((next s op).call j) := by
    rw [hn, Function.update_apply]
    split_ifs with hj
    · exact hj ▸ hk
    · exact .stay op
  have hnotify (hn : (next s op).call = s.notifyAll.call) :
      CallStep s j op ((next s op).call j) := by
    rw [hn]
    simp only [State.notifyAll]
    split_ifs with hj
    · exact .wake op hj
    · exact .stay op
  cases op
  case addSnapshotJob k own =>
    exact hset (by simp only [next, State.addJobToRunner_eq]) (.addSnapshotJob own)
  case addRecordJob k file =>
    exact hset (by simp only [next, State.addJobToRunner_eq]) (.addRecordJob file)
  case returnAddJob k => exact hset rfl .returnAddJob
  case leaveRunner k => exact hset rfl .leaveRunner
  case testPredicate k => exact hset rfl .testPredicate
  case wakeUp k => exact hset rfl (.wake _ he)
  case jobStep w k =>
    by_cases hp : s.progress k = .notifyAll
    · exact hnotify (by simp only [next, State.advance_eq, if_pos hp])
    · have hn : (next s (.jobStep w k)).call = s.call := by
        simp only [next, State.advance_eq, if_neg hp]
      exact hn ▸ .stay _
  case notifyStopped => exact hnotify rfl
  case stopSnapshotWorker d =>
    have hn : (next s (.stopSnapshotWorker d)).call = s.call := by
      simp only [next]
      split_ifs <;> rfl
    exact hn ▸ .stay _
  all_goals exact .stay _

/-- A waiter returns on its flag only. -/
theorem returned_next (he : Enabled s op) (h : (next s op).call j = .returned) :
    s.call j = .returned ∨ (next s op).file j ≠ none ∨ s.generated j = true := by
  have hc := call_next he j
  generalize hp : (next s op).call j = p at hc
  cases hc with
  | stay => exact Or.inl (hp ▸ h)
  | wake | returnAddJob => cases hp.symm.trans h
  | addSnapshotJob own =>
    rw [hp] at h
    split_ifs at h
  | addRecordJob file => exact Or.inr (Or.inl (by simp [next, State.addJobToRunner_eq]))
  | leaveRunner =>
    rw [hp] at h
    split_ifs at h with hf
    have hfile : s.file j ≠ none := by simpa using hf
    exact Or.inr (Or.inl hfile)
  | testPredicate =>
    rw [hp] at h
    split_ifs at h with hg
    exact Or.inr (Or.inr hg)

/-- The worker that takes a step, and where it goes on. -/
def State.turn (s : State) : Op → Option (ℕ × WorkerPc)
  | .testShutdown w => some (w, if s.shutdown w then .exited else .polling)
  | .pickUp w _ j => some (w, .executing j)
  | .pickUpOther w => some (w, .busy)
  | .findNothing w =>
    some (w, if s.worker w = .polling ∧ s.readyForStealing = true then .stealing else .idle)
  | .breakIdle w => some (w, .exited)
  | .finishJob w j => some (w, .releasing j)
  | .leaveIdle w | .finishRelease w _ | .finishOther w => some (w, .test)
  | _ => none

theorem worker_next (s : State) (op : Op) (w : ℕ) :
    (next s op).worker w = s.worker w ∨ s.turn op = some (w, (next s op).worker w) := by
  have hset {v : ℕ} {p : WorkerPc} (hn : (next s op).worker = Function.update s.worker v p)
      (ht : s.turn op = some (v, p)) :
      (next s op).worker w = s.worker w ∨ s.turn op = some (w, (next s op).worker w) := by
    rw [hn, ht, Function.update_apply]
    split_ifs with hw
    · exact Or.inr (by rw [hw])
    · exact Or.inl rfl
  cases op
  case addSnapshotJob | addRecordJob => exact Or.inl (by simp only [next, State.addJobToRunner_eq])
  case jobStep v k => exact Or.inl (by simp only [next, State.advance_eq])
  case stopSnapshotWorker d => exact Or.inl (by simp only [next]; split_ifs <;> rfl)
  case testShutdown | pickUp | pickUpOther | findNothing | leaveIdle | breakIdle | finishJob |
      finishRelease | finishOther => exact hset rfl rfl
  all_goals exact Or.inl rfl

/-- A worker executes what it picked up, until the end of its body. -/
theorem executing_next {w : ℕ} (h : (next s op).worker w = .executing j) :
    (s.worker w = .executing j ∧ op ≠ .finishJob w j) ∨ ∃ queue, op = .pickUp w queue j := by
  rcases worker_next s op w with hw | hw
  · refine Or.inl ⟨hw ▸ h, fun hop => ?_⟩
    subst hop
    simp [next, State.setWorker, State.act] at h
  · rw [h] at hw
    cases op <;> simp only [State.turn, Option.some.injEq, Prod.mk.injEq, reduceCtorEq, and_false]
      at hw
    case pickUp v queue k =>
      obtain ⟨rfl, hk⟩ := hw
      cases hk
      exact Or.inr ⟨queue, rfl⟩
    all_goals
      have hw := hw.2
      split_ifs at hw

theorem exited_stays (he : Enabled s op) {w : ℕ} (hw : s.worker w = .exited) :
    (next s op).worker w = .exited := by
  rcases worker_next s op w with hn | hn
  · exact hn.trans hw
  · exfalso
    cases op <;> simp only [State.turn, Option.some.injEq, Prod.mk.injEq, reduceCtorEq] at hn <;>
      simp [Enabled, hn.1, hw] at he

theorem exited_next (he : Enabled s op) {w : ℕ} (h : (next s op).worker w = .exited) :
    s.worker w = .exited ∨ s.shutdown w = true := by
  rcases worker_next s op w with hw | hw
  · exact Or.inl (hw ▸ h)
  · right
    rw [h] at hw
    cases op <;> simp only [State.turn, Option.some.injEq, Prod.mk.injEq, reduceCtorEq, and_false]
      at hw
    case testShutdown v =>
      obtain ⟨rfl, hv⟩ := hw
      split_ifs at hv with hs
      exact hs
    case findNothing v =>
      have hw := hw.2
      split_ifs at hw
    case breakIdle v =>
      obtain ⟨rfl, -⟩ := hw
      exact he.2.2

/-- A shutdown flag is set by a stop. -/
theorem shutdown_next (s : State) (op : Op) (w : ℕ) :
    (next s op).shutdown w = s.shutdown w ∨
      (next s op).shutdown w = true ∧ (op = .stopWorker w ∨ op = .stopNextWorker w) := by
  have hset {v : ℕ} (hn : (next s op).shutdown = Function.update s.shutdown v true)
      (hop : op = .stopWorker v ∨ op = .stopNextWorker v) :
      (next s op).shutdown w = s.shutdown w ∨
        (next s op).shutdown w = true ∧ (op = .stopWorker w ∨ op = .stopNextWorker w) := by
    rw [hn, Function.update_apply]
    split_ifs with hw
    · exact Or.inr ⟨rfl, hw ▸ hop⟩
    · exact Or.inl rfl
  cases op
  case addSnapshotJob | addRecordJob => exact Or.inl (by simp only [next, State.addJobToRunner_eq])
  case jobStep v k => exact Or.inl (by simp only [next, State.advance_eq])
  case stopSnapshotWorker d => exact Or.inl (by simp only [next]; split_ifs <;> rfl)
  case stopWorker => exact hset rfl (Or.inl rfl)
  case stopNextWorker => exact hset rfl (Or.inr rfl)
  all_goals exact Or.inl rfl

/-- The moves of a job. -/
inductive PhaseStep (s : State) (j : JobId) : Op → Strand.Phase → Prop
  | stay (op : Op) : PhaseStep s j op (s.strand.phase j)
  | internal (a : Strand.Action) (p : Strand.Phase)
    (h : Strand.InternalStep s.strand.runnerAlive (s.strand.phase j) p) :
    PhaseStep s j (.strand a) p
  | start (w queue : ℕ) : PhaseStep s j (.pickUp w queue j) .running
  | finish (w : ℕ) : PhaseStep s j (.finishJob w j) .finished
  | discardQueued (queue : ℕ) : PhaseStep s j (.discardQueued queue j) .discarded

theorem phase_next (he : Enabled s op) (hc : Strand.Coherent s.strand) (j : JobId) :
    PhaseStep s j op ((next s op).strand.phase j) := by
  have hset {k : JobId} {p : Strand.Phase}
      (hn : (next s op).strand.phase = Function.update s.strand.phase k p)
      (hk : PhaseStep s k op p) : PhaseStep s j op ((next s op).strand.phase j) := by
    rw [hn, Function.update_apply]
    split_ifs with hj
    · exact hj ▸ hk
    · exact .stay op
  have hkeep (hn : (next s op).strand.phase = s.strand.phase) :
      PhaseStep s j op ((next s op).strand.phase j) := hn ▸ .stay op
  cases op
  case addSnapshotJob k own | addRecordJob k file =>
    apply hkeep
    simp only [next, State.addJobToRunner_eq]
    split_ifs <;> rfl
  case strand a => exact .internal a _ (Strand.phase_internal he.1 he.2 hc j)
  case pickUp w queue k => exact hset rfl (.start w queue)
  case finishJob w k =>
    refine hset ?_ (.finish w)
    simp only [next, State.act, State.setWorker, Strand.next, Strand.State.destroyJob_eq]
  case discardQueued queue k =>
    refine hset ?_ (.discardQueued queue)
    simp only [next, State.act, Strand.next, Strand.State.destroyJob_eq]
  case leaveRunner | leaveStop | releaseRunner =>
    apply hkeep
    simp only [next, State.dropRunner, State.setCall]
    split_ifs <;> rfl
  case jobStep w k => exact hkeep (by simp only [next, State.advance_eq])
  case stopSnapshotWorker d => exact hkeep (by simp only [next]; split_ifs <;> rfl)
  all_goals exact hkeep rfl

def Op.dropsRunner : Op → Bool
  | .leaveRunner _ | .leaveStop | .releaseRunner => true
  | _ => false

/-- The runner expires with its last reference. -/
theorem runnerAlive_next (he : Enabled s op) :
    (next s op).strand.runnerAlive =
      (s.strand.runnerAlive && !(op.dropsRunner && s.runnerRefs == 1)) := by
  rw [strand_next]
  cases op <;> simp only [State.strandAction, Op.dropsRunner]
  case addSnapshotJob | addRecordJob =>
    split_ifs <;> simp [Strand.next_runnerAlive]
  case leaveRunner | leaveStop | releaseRunner =>
    split_ifs with h <;> simp [Strand.next_runnerAlive, h]
  case strand a =>
    have ha : a ≠ .expireRunner := by
      rintro rfl
      simp [Enabled, isInternal] at he
    simp [Strand.next_runnerAlive, ha]
  all_goals simp [Strand.next_runnerAlive]

theorem threadNum_next (s : State) (op : Op) : (next s op).threadNum = s.threadNum := by
  cases op
  case addSnapshotJob | addRecordJob => simp only [next, State.addJobToRunner_eq]
  case jobStep => simp only [next, State.advance_eq]
  case stopSnapshotWorker d => simp only [next]; split_ifs <;> rfl
  all_goals rfl

theorem readyForStealing_next (s : State) (op : Op) :
    (next s op).readyForStealing = (s.readyForStealing && op != .stopStealing) := by
  cases op
  case addSnapshotJob | addRecordJob => simp [next, State.addJobToRunner_eq]
  case jobStep w j => simp [next, State.advance_eq]
  case stopSnapshotWorker d =>
    simp only [next]
    split_ifs <;> simp
  all_goals simp [next, State.act, State.setWorker, State.setCall, State.setProgress,
    State.setShutdown, State.dropRunner, State.notifyAll]

/-- Past the step of the snapshot job that sets the flag. -/
def JobPc.PastFlag (p : JobPc) : Prop :=
  p = .notifyAll ∨ p = .postFinish ∨ p = .ended

/-- The body of a job, the phase of the job and its call agree. -/
structure Inv (s : State) : Prop where
  strand : Strand.system.Reachable s.strand
  started : ∀ j, s.progress j ≠ .notStarted → (s.strand.phase j).Started
  executing : ∀ w j, s.worker w = .executing j → s.strand.phase j = .running
  bound : ∀ w j, s.worker w = .executing j → w < s.threadNum
  single : ∀ w w' j, s.worker w = .executing j → s.worker w' = .executing j → w = w'
  write : ∀ j, s.progress j = .write → s.file j ≠ none
  flagged : ∀ j, s.generated j = true → (s.progress j).PastFlag
  generated : ∀ j, s.file j = none → (s.progress j).PastFlag → s.generated j = true
  returned : ∀ j, s.file j = none → s.call j = .returned → s.generated j = true
  exited : ∀ w, s.worker w = .exited → s.shutdown w = true
  stealing : s.strand.runnerAlive = true → s.readyForStealing = true

theorem inv_init (h : Init s) : Inv s := by
  constructor
  case strand => exact .init h.strand
  case started => exact fun j hj => absurd (h.noJobs j).2.1 hj
  case executing => exact fun w j hw => nomatch (h.running w).2.symm.trans hw
  case bound => exact fun w j hw => nomatch (h.running w).2.symm.trans hw
  case single => exact fun w _ j hw => nomatch (h.running w).2.symm.trans hw
  case write => exact fun j hj => nomatch (h.noJobs j).2.1.symm.trans hj
  case flagged => exact fun j hj => nomatch (h.noJobs j).2.2.symm.trans hj
  case generated =>
    intro j _ hp
    rw [JobPc.PastFlag, (h.noJobs j).2.1] at hp
    rcases hp with hp | hp | hp <;> cases hp
  case returned => exact fun j _ hj => nomatch (h.noJobs j).1.symm.trans hj
  case exited => exact fun w hw => nomatch (h.running w).2.symm.trans hw
  case stealing => exact fun _ => h.stealing

theorem started_next (he : Enabled s op) (h : Strand.Coherent s.strand)
    (hj : (s.strand.phase j).Started) : ((next s op).strand.phase j).Started :=
  strand_invariant (P := fun t => (t.phase j).Started) he hj fun _ _ ha =>
    Strand.started_step ha h hj

theorem running_next (he : Enabled s op) (h : Strand.Coherent s.strand)
    (hj : s.strand.phase j = .running) (hop : ∀ w, op ≠ .finishJob w j) :
    (next s op).strand.phase j = .running := by
  refine strand_invariant (P := fun t => t.phase j = .running) he hj fun a hact ha =>
    Strand.running_step ha h hj fun hfin => ?_
  subst hfin
  cases op <;> simp only [State.strandAction, Option.some.injEq, reduceCtorEq] at hact
  case finishJob w k =>
    cases hact
    exact hop w rfl
  case strand b =>
    subst hact
    simp [Enabled, isInternal] at he
  case addSnapshotJob | addRecordJob | leaveRunner | leaveStop | releaseRunner =>
    split_ifs at hact
    cases hact

namespace Inv
variable (h : Inv s)
include h

theorem coherent : Strand.Coherent s.strand :=
  (Strand.reachable_refines h.strand).1

/-- A job has no progress before a worker starts it. -/
theorem progress_of_not_started (hj : ¬ (s.strand.phase j).Started) :
    s.progress j = .notStarted := by
  by_contra hp
  exact hj (h.started j hp)

theorem progress_of_idle (hj : s.strand.pc (.addJob, j) = .idle) :
    s.progress j = .notStarted := by
  refine h.progress_of_not_started fun hs => ?_
  rw [Strand.phase_of_idle h.coherent hj] at hs
  rcases hs with hs | hs <;> cases hs

theorem queued_of_pickUp {w queue : ℕ} (he : Enabled s (.pickUp w queue j)) :
    s.strand.phase j = .queued queue :=
  Strand.phase_of_head h.coherent he.2.2

theorem progress_of_pickUp {w queue : ℕ} (he : Enabled s (.pickUp w queue j)) :
    s.progress j = .notStarted := by
  refine h.progress_of_not_started fun hs => ?_
  rw [h.queued_of_pickUp he] at hs
  rcases hs with hs | hs <;> cases hs

end Inv

theorem phase_finishJob (s : State) (w : ℕ) (j : JobId) :
    (next s (.finishJob w j)).strand.phase j = .finished := by
  simp [next, State.setWorker, State.act, Strand.next, Strand.State.destroyJob_eq]

theorem phase_pickUp (s : State) (w queue : ℕ) (j : JobId) :
    (next s (.pickUp w queue j)).strand.phase j = .running := by
  simp [next, State.setProgress, State.setWorker, State.act, Strand.next, Strand.State.setPhase]

theorem JobPc.PastFlag.next {p : JobPc} (h : p.PastFlag) (postFinish : Bool) :
    (p.next postFinish).PastFlag := by
  rcases h with rfl | rfl | rfl <;> cases postFinish <;> simp [JobPc.next, JobPc.PastFlag]

theorem JobPc.pastFlag_of_next {p : JobPc} {postFinish : Bool}
    (h : (p.next postFinish).PastFlag) : p.PastFlag ∨ p = .setFlag ∨ p = .write := by
  cases p <;> simp_all [JobPc.next, JobPc.PastFlag]

theorem JobPc.next_ne_write (p : JobPc) (postFinish : Bool) : p.next postFinish ≠ .write := by
  cases p <;> cases postFinish <;> exact nofun

theorem JobPc.first_ne_write (preStart : Bool) : JobPc.first none preStart ≠ .write := by
  cases preStart <;> exact nofun

theorem JobPc.first_ne_notStarted (file : Option ℕ) (preStart : Bool) :
    JobPc.first file preStart ≠ .notStarted := by
  cases file <;> cases preStart <;> exact nofun

theorem JobPc.next_ne_notStarted {p : JobPc} (h : p ≠ .notStarted) (postFinish : Bool) :
    p.next postFinish ≠ .notStarted := by
  cases p
  case notStarted => exact absurd rfl h
  all_goals cases postFinish <;> exact nofun

theorem JobPc.not_pastFlag_first (file : Option ℕ) (preStart : Bool) :
    ¬ (JobPc.first file preStart).PastFlag := by
  cases file <;> cases preStart <;> simp [JobPc.first, JobPc.PastFlag]

theorem generated_mono (s : State) (op : Op) (hj : s.generated j = true) :
    (next s op).generated j = true := by
  rcases generated_next s op j with hg | ⟨w, -, -, hg⟩
  · exact hg.trans hj
  · exact hg

theorem inv_step (he : Enabled s op) (h : Inv s) : Inv (next s op) := by
  constructor
  case strand =>
    exact strand_invariant he h.strand fun a _ ha =>
      h.strand.step (Strand.step_eq_some.mpr ⟨ha, rfl⟩)
  case started =>
    intro j hj
    -- a job makes progress only while it runs
    rcases progress_next s op j with hp | ⟨w, queue, rfl, hp⟩ | ⟨w, rfl, -⟩
    · exact started_next he h.coherent (h.started j (hp ▸ hj))
    · exact Or.inl (phase_pickUp s w queue j)
    · exact started_next he h.coherent (Or.inl (h.executing w j he.2.1))
  case executing =>
    -- `finishJob` frees the worker in the same step
    intro w j hnext
    rcases executing_next hnext with ⟨hw, hop⟩ | ⟨queue, rfl⟩
    · refine running_next he h.coherent (h.executing w j hw) fun v hv => ?_
      subst hv
      exact hop (by rw [h.single w v j hw he.2.1])
    · exact phase_pickUp s w queue j
  case bound =>
    intro w j hw
    rw [threadNum_next]
    rcases executing_next hw with ⟨hw, -⟩ | ⟨queue, rfl⟩
    · exact h.bound w j hw
    · exact he.1
  case single =>
    -- a queued job is on no worker yet
    have hfresh {v w queue : ℕ} {j : JobId} (hv : s.worker v = .executing j)
        (hop : op = .pickUp w queue j) : False := by
      subst hop
      have hrun := h.executing v j hv
      rw [h.queued_of_pickUp he] at hrun
      cases hrun
    intro w w' j hw hw'
    rcases executing_next hw with ⟨hw, -⟩ | ⟨queue, hop⟩ <;>
      rcases executing_next hw' with ⟨hw', -⟩ | ⟨queue', hop'⟩
    · exact h.single w w' j hw hw'
    · exact (hfresh hw hop').elim
    · exact (hfresh hw' hop).elim
    · cases hop.symm.trans hop'
      rfl
  case write =>
    intro j hj
    -- `write` is where a record job begins, and no step goes back to it
    rcases progress_next s op j with hp | ⟨w, queue, rfl, hp⟩ | ⟨w, rfl, hp⟩
    · rw [hp] at hj
      rcases file_next s op j with hf | ⟨own, rfl, -⟩ | ⟨file, -, hf⟩
      · rw [hf]
        exact h.write j hj
      · cases (h.progress_of_idle he.2.1).symm.trans hj
      · exact hf ▸ Option.some_ne_none file
    · intro hf
      exact JobPc.first_ne_write s.preStart (hf ▸ hp ▸ hj)
    · exact absurd (hp ▸ hj) (JobPc.next_ne_write _ _)
  case flagged =>
    intro j hj
    -- only the job itself sets its flag, and is past it from then on
    rcases generated_next s op j with hg | ⟨w, rfl, hp, -⟩
    · have hpast := h.flagged j (hg ▸ hj)
      rcases progress_next s op j with hp | ⟨w, queue, rfl, -⟩ | ⟨w, rfl, hp⟩
      · rwa [hp]
      · rw [h.progress_of_pickUp he] at hpast
        rcases hpast with hpast | hpast | hpast <;> cases hpast
      · rw [hp]
        exact hpast.next s.postFinish
    · left
      simp [next, State.advance_eq, hp, JobPc.next]
  case generated =>
    intro j hf hj
    rcases progress_next s op j with hp | ⟨w, queue, rfl, hp⟩ | ⟨w, rfl, hp⟩
    · rw [hp] at hj
      rcases file_next s op j with hfile | ⟨own, rfl, -⟩ | ⟨file, -, hfile⟩
      · exact generated_mono s op (h.generated j (hfile ▸ hf) hj)
      · rw [h.progress_of_idle he.2.1] at hj
        rcases hj with hj | hj | hj <;> cases hj
      · cases hfile.symm.trans hf
    · exact absurd (hp ▸ hj) (JobPc.not_pastFlag_first _ _)
    · have hfile : s.file j = none := by simpa [next, State.advance_eq] using hf
      -- a snapshot job comes past the flag by setting it
      rcases JobPc.pastFlag_of_next (hp ▸ hj) with hj | hj | hj
      · exact generated_mono s _ (h.generated j hfile hj)
      · simp [next, State.advance_eq, hj]
      · exact absurd hfile (h.write j hj)
  case returned =>
    intro j hf hj
    rcases returned_next he hj with hret | hfile | hgen
    · rcases file_next s op j with hfile | ⟨own, rfl, -⟩ | ⟨file, rfl, -⟩
      · exact generated_mono s op (h.returned j (hfile ▸ hf) hret)
      all_goals cases he.1.symm.trans hret
    · exact absurd hf hfile
    · exact generated_mono s op hgen
  case exited =>
    intro w hw
    have hset : s.shutdown w = true := (exited_next he hw).elim (h.exited w) id
    rcases shutdown_next s op w with hs | ⟨hs, -⟩
    · exact hs.trans hset
    · exact hs
  case stealing =>
    intro halive
    rw [runnerAlive_next he, Bool.and_eq_true] at halive
    rw [readyForStealing_next, h.stealing halive.1, Bool.true_and, bne_iff_ne]
    rintro rfl
    exact nomatch he.symm.trans halive.1

end RecorderThreads
end CrisCore
