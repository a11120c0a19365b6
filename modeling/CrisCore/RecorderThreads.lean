import CrisCore.StrandModel

/-! The threads around a `MessageRecorder`: callers of `GenerateSnapshot`, among them the thread of
`SnapshotWorker`, publishers of recorded messages, the workers of the runner, and one thread that
calls `StopMainLoop` and at last the destructor. The jobs go through `record_strand_`, whose steps
are those of `Strand`; a job and the call of `AddJobToRunner` that adds it share an identifier.
What `snapshot_mtx_` guards is one step. -/
namespace CrisCore.RecorderThreads
open Strand (JobId)

/-- Where a call of `AddJobToRunner` is, and that of `GenerateSnapshot` around it. -/
inductive CallPc
  | idle
  -- in `runner->AddJob`, then after it, with a reference to the runner
  | adding
  | leaving
  -- `snapshot_cv_.wait`
  | testing
  | asleep
  | returned
  deriving DecidableEq

/-- Where the body of a job is. -/
inductive JobPc
  | notStarted
  -- the job of `GenerateSnapshot`
  | preStart
  | generate
  | setFlag
  | notifyAll
  | postFinish
  -- the job of a recorded message, inside `RecordFile::Write`
  | write
  | ended
  deriving DecidableEq

def JobPc.first (file : Option ℕ) (preStart : Bool) : JobPc :=
  if file.isSome then .write else if preStart then .preStart else .generate

def JobPc.next (postFinish : Bool) : JobPc → JobPc
  | .preStart => .generate
  | .generate => .setFlag
  | .setFlag => .notifyAll
  | .notifyAll => if postFinish then .postFinish else .ended
  | .postFinish | .write | .ended => .ended
  | .notStarted => .notStarted

/-- `WorkerLoop`; a worker is busy with a job that is not of this recorder. -/
inductive WorkerPc
  | test
  -- `TryProcessOne`, then the search of `Steal` after its own test, then the idle section
  | polling
  | stealing
  | idle
  | executing (j : JobId)
  | releasing (j : JobId)
  | busy
  | exited
  deriving DecidableEq

/-- `SnapshotWorker`. -/
inductive SnapshotPc
  | test
  | ready
  | inCall (j : JobId)
  | waiting
  | exited
  deriving DecidableEq

/-- `StopSnapshotWorker`, the rest of `~MessageRecorder`, and `~CRNode`. -/
inductive CloserPc
  | idle
  | stopping (worker : ℕ)
  | storing
  | notifying
  | joining
  | clearing (file : ℕ)
  | unsubscribing (channel : ℕ)
  deriving DecidableEq

structure State where
  strand : Strand.State
  /-- References to the runner, and how many of them are its owners'. -/
  runnerRefs : ℕ
  ownerRefs : ℕ
  threadNum : ℕ
  readyForStealing : Bool
  shutdown : ℕ → Bool
  worker : ℕ → WorkerPc
  /-- The file a job writes to; none for the job of `GenerateSnapshot`. -/
  file : JobId → Option ℕ
  progress : JobId → JobPc
  call : JobId → CallPc
  /-- `snapshot_generated_flag` of each call. -/
  generated : JobId → Bool
  /-- `pre_start_` and `post_finish_` are not empty. -/
  preStart : Bool
  postFinish : Bool
  snapshotThread : SnapshotPc
  snapshotShutdown : Bool
  closer : CloserPc
  /-- The closer is in the destructor. -/
  destructing : Bool
  /-- `files_`, one for each registered channel. -/
  fileCount : ℕ
  destroyed : ℕ → Bool

inductive Op
  -- AddJobToRunner in GenerateSnapshot, called by the snapshot thread or not, and by publishers
  | addSnapshotJob (j : JobId) (bySnapshotThread : Bool)
  | addRecordJob (j : JobId) (file : ℕ)
  | strand (a : Strand.Action)
  | returnAddJob (j : JobId)
  | leaveRunner (j : JobId)
  | testPredicate (j : JobId)
  | wakeUp (j : JobId)
  -- the workers
  | testShutdown (w : ℕ)
  | pickUp (w queue : ℕ) (j : JobId)
  | pickUpOther (w : ℕ)
  | findNothing (w : ℕ)
  | leaveIdle (w : ℕ)
  | breakIdle (w : ℕ)
  | jobStep (w : ℕ) (j : JobId)
  | finishJob (w : ℕ) (j : JobId)
  | finishRelease (w : ℕ) (j : JobId)
  | finishOther (w : ℕ)
  -- the owners of the runner, and its end
  | stopWorker (w : ℕ)
  | releaseRunner
  | stopStealing
  | discardQueued (queue : ℕ) (j : JobId)
  -- SnapshotWorker
  | testSnapshotShutdown
  | skipSnapshot
  | finishCall (j : JobId)
  | endWait
  -- StopMainLoop, the destructor, RegisterChannel, and the setters of the callbacks
  | stopSnapshotWorker (destructor : Bool)
  | stopNextWorker (w : ℕ)
  | leaveStop
  | storeShutdown
  | notifyStopped
  | joinSnapshotThread
  | destroyFile (file : ℕ)
  | finishClear
  | unsubscribe (channel : ℕ)
  | registerChannel
  | setPreStartCallback (callback : Bool)
  | setPostFinishCallback (callback : Bool)
  deriving DecidableEq

/-- The steps of the strand that a call of `AddJob` or the release of a token takes by itself. -/
def isInternal (threadNum : ℕ) : Strand.Action → Bool
  | .push _ | .lock _ | .testReady _ | .consumeOne _ | .storeReady _ _ | .unlock _ _ => true
  | .pushToRunner _ _ worker => worker < threadNum
  | _ => false

/-- `~CRNode` has not come to the channel yet. -/
def CloserPc.keepsSubscribed (file : ℕ) : CloserPc → Bool
  | .unsubscribing channel => channel ≤ file
  | _ => true

def Enabled (s : State) : Op → Prop
  | .addSnapshotJob j bySnapshotThread =>
    s.call j = .idle ∧ s.strand.pc (.addJob, j) = .idle ∧
      (if bySnapshotThread then s.snapshotThread = .ready else s.destructing = false)
  | .addRecordJob j file =>
    s.call j = .idle ∧ s.strand.pc (.addJob, j) = .idle ∧ file < s.fileCount ∧
      s.closer.keepsSubscribed file = true
  | .strand a => isInternal s.threadNum a = true ∧ Strand.Enabled s.strand a
  | .returnAddJob j => s.call j = .adding ∧ Strand.Enabled s.strand (.return_ j)
  | .leaveRunner j => s.call j = .leaving
  | .testPredicate j => s.call j = .testing
  | .wakeUp j => s.call j = .asleep
  | .testShutdown w => w < s.threadNum ∧ s.worker w = .test
  | .pickUp w queue j => w < s.threadNum ∧
      ((s.worker w = .polling ∧ queue = w) ∨ s.worker w = .stealing) ∧
      Strand.Enabled s.strand (.startJob queue j)
  | .pickUpOther w | .findNothing w => w < s.threadNum ∧
      (s.worker w = .polling ∨ s.worker w = .stealing)
  | .leaveIdle w => w < s.threadNum ∧ s.worker w = .idle
  | .breakIdle w => w < s.threadNum ∧ s.worker w = .idle ∧ s.shutdown w = true
  | .jobStep w j => w < s.threadNum ∧ s.worker w = .executing j ∧ s.progress j ≠ .ended
  | .finishJob w j => w < s.threadNum ∧ s.worker w = .executing j ∧ s.progress j = .ended ∧
      Strand.Enabled s.strand (.finishJob j)
  | .finishRelease w j => w < s.threadNum ∧ s.worker w = .releasing j ∧
      (s.strand.pc (.aliveToken, j) = .idle ∨ s.strand.pc (.aliveToken, j) = .done)
  | .finishOther w => w < s.threadNum ∧ s.worker w = .busy
  | .stopWorker w => w < s.threadNum
  | .releaseRunner => 0 < s.ownerRefs
  | .stopStealing => s.strand.runnerAlive = false
  | .discardQueued queue j => (∀ w < s.threadNum, s.worker w = .exited) ∧
      Strand.Enabled s.strand (.discardQueued queue j)
  | .testSnapshotShutdown => s.snapshotThread = .test
  | .skipSnapshot => s.snapshotThread = .ready
  | .finishCall j => s.snapshotThread = .inCall j ∧ s.call j = .returned
  | .endWait => s.snapshotThread = .waiting
  | .stopSnapshotWorker _ => s.closer = .idle
  | .stopNextWorker w => s.closer = .stopping w ∧ w < s.threadNum
  | .leaveStop => s.closer = .stopping s.threadNum
  | .storeShutdown => s.closer = .storing
  | .notifyStopped => s.closer = .notifying
  | .joinSnapshotThread => s.closer = .joining ∧ s.snapshotThread = .exited
  | .destroyFile file => s.closer = .clearing file ∧ file < s.fileCount
  | .finishClear => s.closer = .clearing s.fileCount
  | .unsubscribe channel => s.closer = .unsubscribing channel ∧ channel < s.fileCount
  | .registerChannel | .setPreStartCallback _ | .setPostFinishCallback _ => s.destructing = false

instance (s : State) : (op : Op) → Decidable (Enabled s op)
  | .addSnapshotJob _ _ => inferInstanceAs (Decidable (_ ∧ _ ∧ ite _ _ _))
  | .breakIdle _ | .jobStep _ _ => inferInstanceAs (Decidable (_ ∧ _ ∧ _))
  | .pickUp _ _ _ => inferInstanceAs (Decidable (_ ∧ (_ ∨ _) ∧ _))
  | .pickUpOther _ | .findNothing _ => inferInstanceAs (Decidable (_ ∧ (_ ∨ _)))
  | .addRecordJob _ _ | .finishJob _ _ => inferInstanceAs (Decidable (_ ∧ _ ∧ _ ∧ _))
  | .finishRelease _ _ => inferInstanceAs (Decidable (_ ∧ _ ∧ (_ ∨ _)))
  | .strand _ | .returnAddJob _ | .testShutdown _ | .leaveIdle _ | .finishOther _
  | .finishCall _ | .stopNextWorker _ | .joinSnapshotThread | .destroyFile _
  | .unsubscribe _ => inferInstanceAs (Decidable (_ ∧ _))
  | .discardQueued _ _ => inferInstanceAs (Decidable ((∀ w < _, _) ∧ _))
  | .leaveRunner _ | .testPredicate _ | .wakeUp _ | .testSnapshotShutdown | .skipSnapshot
  | .endWait | .stopSnapshotWorker _ | .leaveStop | .storeShutdown | .notifyStopped | .finishClear
  | .registerChannel | .setPreStartCallback _ | .setPostFinishCallback _ | .stopStealing =>
    inferInstanceAs (Decidable (_ = _))
  | .stopWorker _ | .releaseRunner => inferInstanceAs (Decidable (_ < _))

namespace State
variable (s : State)

def setWorker (w : ℕ) (p : WorkerPc) : State :=
  { s with worker := Function.update s.worker w p }

def setCall (j : JobId) (p : CallPc) : State :=
  { s with call := Function.update s.call j p }

def setProgress (j : JobId) (p : JobPc) : State :=
  { s with progress := Function.update s.progress j p }

def setShutdown (w : ℕ) : State :=
  { s with shutdown := Function.update s.shutdown w true }

def act (a : Strand.Action) : State :=
  { s with strand := Strand.next s.strand a }

/-- A reference to the runner goes; with the last one the runner can no longer be locked. -/
def dropRunner : State :=
  { s with
    runnerRefs := s.runnerRefs - 1
    strand := if s.runnerRefs = 1 then Strand.next s.strand .expireRunner else s.strand }

/-- `snapshot_cv_.notify_all()`. -/
def notifyAll : State :=
  { s with call := fun j => if s.call j = .asleep then .testing else s.call j }

/-- `AddJobToRunner` with the record strand; `failed` is where the caller goes on if it cannot lock
the runner. -/
def addJobToRunner (j : JobId) (failed : CallPc) : State :=
  if s.strand.runnerAlive then
    { (s.act (.call j .enqueue)).setCall j .adding with runnerRefs := s.runnerRefs + 1 }
  else s.setCall j failed

/-- The next step of the body of a job. -/
def advance (j : JobId) : State :=
  let t := s.setProgress j ((s.progress j).next s.postFinish)
  match s.progress j with
  | .setFlag => { t with generated := Function.update s.generated j true }
  | .notifyAll => t.notifyAll
  | _ => t

end State

def next (s : State) : Op → State
  | .addSnapshotJob j bySnapshotThread =>
    { s with
      file := Function.update s.file j none
      snapshotThread := if bySnapshotThread then .inCall j else s.snapshotThread }.addJobToRunner
      j .testing
  | .addRecordJob j file =>
    { s with file := Function.update s.file j (some file) }.addJobToRunner j .returned
  | .strand a => s.act a
  | .returnAddJob j => (s.act (.return_ j)).setCall j .leaving
  | .leaveRunner j => s.dropRunner.setCall j (if (s.file j).isNone then .testing else .returned)
  | .testPredicate j => s.setCall j (if s.generated j then .returned else .asleep)
  | .wakeUp j => s.setCall j .testing
  | .testShutdown w => s.setWorker w (if s.shutdown w then .exited else .polling)
  | .pickUp w queue j =>
    ((s.act (.startJob queue j)).setWorker w (.executing j)).setProgress j
      (.first (s.file j) s.preStart)
  | .pickUpOther w => s.setWorker w .busy
  | .findNothing w =>
    s.setWorker w (if s.worker w = .polling ∧ s.readyForStealing = true then .stealing else .idle)
  | .leaveIdle w => s.setWorker w .test
  | .breakIdle w => s.setWorker w .exited
  | .jobStep _ j => s.advance j
  | .finishJob w j => (s.act (.finishJob j)).setWorker w (.releasing j)
  | .finishRelease w _ => s.setWorker w .test
  | .finishOther w => s.setWorker w .test
  | .stopWorker w => s.setShutdown w
  | .releaseRunner => { s.dropRunner with ownerRefs := s.ownerRefs - 1 }
  | .stopStealing => { s with readyForStealing := false }
  | .discardQueued queue j => s.act (.discardQueued queue j)
  | .testSnapshotShutdown =>
    { s with snapshotThread := if s.snapshotShutdown then .exited else .ready }
  | .skipSnapshot | .finishCall _ => { s with snapshotThread := .waiting }
  | .endWait => { s with snapshotThread := .test }
  | .stopSnapshotWorker destructor =>
    if s.strand.runnerAlive then
      { s with
        closer := .stopping 0, destructing := destructor, runnerRefs := s.runnerRefs + 1 }
    else { s with closer := .storing, destructing := destructor }
  | .stopNextWorker w => { s.setShutdown w with closer := .stopping (w + 1) }
  | .leaveStop => { s.dropRunner with closer := .storing }
  | .storeShutdown => { s with snapshotShutdown := true, closer := .notifying }
  | .notifyStopped => { s.notifyAll with closer := .joining }
  | .joinSnapshotThread => { s with closer := if s.destructing then .clearing 0 else .idle }
  | .destroyFile file =>
    { s with
      destroyed := Function.update s.destroyed file true
      closer := .clearing (file + 1) }
  | .finishClear => { s with closer := .unsubscribing 0 }
  | .unsubscribe channel => { s with closer := .unsubscribing (channel + 1) }
  | .registerChannel => { s with fileCount := s.fileCount + 1 }
  | .setPreStartCallback callback => { s with preStart := callback }
  | .setPostFinishCallback callback => { s with postFinish := callback }

def step (s : State) (op : Op) : Option State :=
  if Enabled s op then some (next s op) else none

/-- The recorder is made while its runner is alive; without intervals the snapshot thread ends at
once. -/
structure Init (s : State) : Prop where
  strand : s.strand = Strand.initial
  refs : 0 < s.ownerRefs ∧ s.runnerRefs = s.ownerRefs
  running : ∀ w, s.shutdown w = false ∧ s.worker w = .test
  stealing : s.readyForStealing = true
  noJobs : ∀ j, s.call j = .idle ∧ s.progress j = .notStarted ∧ s.generated j = false
  thread : s.snapshotThread = .test ∨ s.snapshotThread = .exited
  callbacks : s.preStart = false ∧ s.postFinish = false
  serving : s.snapshotShutdown = false ∧ s.closer = .idle ∧ s.destructing = false
  files : ∀ file, s.destroyed file = false

def system : TransitionSystem State Op where
  init := Init
  step := step

theorem step_eq_some {s t : State} {op : Op} :
    system.step s op = some t ↔ Enabled s op ∧ next s op = t := by
  change (if Enabled s op then some (next s op) else none) = some t ↔ _
  split_ifs with h <;> simp [h]

/-- A recorder that was just made, with the only reference to its runner outside. -/
def newRecorder (threadNum : ℕ) : State where
  strand := Strand.initial
  runnerRefs := 1
  ownerRefs := 1
  threadNum := threadNum
  readyForStealing := true
  shutdown := fun _ => false
  worker := fun _ => .test
  file := fun _ => none
  progress := fun _ => .notStarted
  call := fun _ => .idle
  generated := fun _ => false
  preStart := false
  postFinish := false
  snapshotThread := .test
  snapshotShutdown := false
  closer := .idle
  destructing := false
  fileCount := 0
  destroyed := fun _ => false

theorem init_newRecorder (threadNum : ℕ) : Init (newRecorder threadNum) where
  strand := rfl
  refs := ⟨Nat.one_pos, rfl⟩
  running := fun _ => ⟨rfl, rfl⟩
  stealing := rfl
  noJobs := fun _ => ⟨rfl, rfl, rfl⟩
  thread := Or.inl rfl
  callbacks := ⟨rfl, rfl⟩
  serving := ⟨rfl, rfl, rfl⟩
  files := fun _ => rfl

/-- `runner->AddJob` for a job of an idle strand, into the queue of worker 0, and the way back. -/
def addJobSteps (j : JobId) : List Op :=
  [.push j, .lock (.addJob, j), .testReady (.addJob, j), .consumeOne (.addJob, j),
    .storeReady (.addJob, j) (some j), .unlock (.addJob, j) (some j),
    .pushToRunner (.addJob, j) j 0].map .strand ++ [.returnAddJob j, .leaveRunner j]

/-- `StopSnapshotWorker` with a runner of one worker, up to the join. -/
def stopSteps (destructor : Bool) : List Op :=
  [.stopSnapshotWorker destructor, .stopNextWorker 0, .leaveStop, .storeShutdown, .notifyStopped]

end CrisCore.RecorderThreads
