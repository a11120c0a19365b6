import CrisCore.TransitionSystem
import Mathlib.Data.Bool.Basic
import Mathlib.Logic.Function.Basic

/-! `JobRunnerStrand`, its `JobAliveToken`s and the queues of the runner's workers.

One call of `AddJob` and the job it adds share an identifier. Every call, and every release of
an alive token, is an activation with a program counter of its own; activations take turns in
any order, which covers every way threads may carry and nest them. One strand and one runner are
in view; jobs without this strand only matter as holders of copies of its tokens. -/
namespace CrisCore.Strand

abbrev JobId := ℕ

/-- The ways to call `AddJob` with a strand. -/
inductive Form
  | enqueue
  | forceRunImmediately
  | tryRunImmediately
  deriving DecidableEq

/-- Who runs `PushToRunnerIfNeeded`: the call that added a job, or `~JobAliveToken`. -/
inductive Role
  | addJob
  | aliveToken
  deriving DecidableEq

def Role.isInRunningJob : Role → Bool
  | .addJob => false
  | .aliveToken => true

/-- What `AddJob` tells its caller: `false`, or `true` after a run in place (FINISHED for
`TryRunImmediately`), or `true` after a push (ENQUEUED). -/
inductive Result
  | rejected
  | finished
  | enqueued
  deriving DecidableEq

inductive Pc
  | idle
  -- AddJob(job, ForceRunImmediately)
  | tryLock
  | testEmpty
  | setReady
  | unlockForce (accepted : Bool)
  | inPlace
  -- AddJob(job)
  | push
  -- PushToRunnerIfNeeded
  | lock
  | testReady
  | consumeOne
  | storeReady (next : Option JobId)
  | unlock (next : Option JobId)
  | pushToRunner (next : JobId)
  | done
  | returned (result : Result)
  deriving DecidableEq

abbrev Activation := Role × JobId

/-- Where a job is. The containers of the state say the same from the code's side. -/
inductive Phase
  | absent
  | claimed
  | pending
  | popped (a : Activation)
  | queued (worker : ℕ)
  | running
  | finished
  | discarded
  | dropped
  deriving DecidableEq

structure State where
  /-- `hybrid_spin_mtx_` -/
  locked : Bool
  hasReadyJob : Bool
  pendingJobs : List JobId
  strandAlive : Bool
  runnerAlive : Bool
  /-- `job_queue_` of each worker -/
  jobQueue : ℕ → List JobId
  form : JobId → Form
  pc : Activation → Pc
  phase : JobId → Phase
  /-- The job's own frame (or the queue it is in) still holds a reference to its token. -/
  ownsToken : JobId → Bool
  /-- References to the job's token held elsewhere. -/
  sharedTokens : JobId → ℕ
  /-- The job moved its own reference away while it ran. -/
  handedOver : JobId → Bool
  /-- History: calls of `pending_jobs_.Push`, of `runner->AddJob`, and jobs run in place. -/
  pushed : List JobId
  handed : List JobId
  ranInPlace : List JobId

def initial : State where
  locked := false
  hasReadyJob := false
  pendingJobs := []
  strandAlive := true
  runnerAlive := true
  jobQueue := fun _ => []
  form := fun _ => .enqueue
  pc := fun _ => .idle
  phase := fun _ => .absent
  ownsToken := fun _ => false
  sharedTokens := fun _ => 0
  handedOver := fun _ => false
  pushed := []
  handed := []
  ranInPlace := []

namespace State

def setPc (s : State) (a : Activation) (p : Pc) : State :=
  { s with pc := Function.update s.pc a p }

def setPhase (s : State) (j : JobId) (p : Phase) : State :=
  { s with phase := Function.update s.phase j p }

/-- The last reference to the token of `j` is gone: `~JobAliveToken` calls
`PushToRunnerIfNeeded` if it can still lock the strand. -/
def releaseToken (s : State) (j : JobId) : State :=
  if s.strandAlive then s.setPc (.aliveToken, j) .lock else s

/-- The function object of `j` is destroyed, and with it the reference it still holds. -/
def destroyJob (s : State) (j : JobId) (p : Phase) : State :=
  let t := { s.setPhase j p with ownsToken := Function.update s.ownsToken j false }
  if s.ownsToken j && s.sharedTokens j == 0 then t.releaseToken j else t

theorem releaseToken_eq (s : State) (j : JobId) :
    s.releaseToken j =
      { s with
        pc := if s.strandAlive then Function.update s.pc (.aliveToken, j) .lock else s.pc } := by
  unfold releaseToken
  split_ifs <;> rfl

theorem destroyJob_eq (s : State) (j : JobId) (p : Phase) :
    s.destroyJob j p =
      { s with
        phase := Function.update s.phase j p
        ownsToken := Function.update s.ownsToken j false
        pc := if (s.strandAlive && s.ownsToken j && s.sharedTokens j == 0) = true then
          Function.update s.pc (.aliveToken, j) .lock else s.pc } := by
  simp only [destroyJob, releaseToken_eq, setPhase]
  cases s.strandAlive <;> cases s.ownsToken j <;> simp
  split_ifs <;> rfl

end State

inductive Action
  | call (j : JobId) (form : Form)
  -- AddJob(job, ForceRunImmediately)
  | tryLock (j : JobId)
  | testEmpty (j : JobId)
  | setReady (j : JobId)
  | unlockForce (j : JobId) (accepted : Bool)
  -- AddJob(job)
  | push (j : JobId)
  -- PushToRunnerIfNeeded
  | lock (a : Activation)
  | testReady (a : Activation)
  | consumeOne (a : Activation)
  | storeReady (a : Activation) (next : Option JobId)
  | unlock (a : Activation) (next : Option JobId)
  | pushToRunner (a : Activation) (next : JobId) (worker : ℕ)
  | return_ (j : JobId)
  -- the workers
  | startJob (worker : ℕ) (j : JobId)
  | finishJob (j : JobId)
  -- the copies of a token
  | shareToken (j : JobId)
  | handOverToken (j : JobId)
  | dropToken (j : JobId)
  -- the end of the runner, then of the jobs left in its queues, and the end of the strand
  | expireRunner
  | discardQueued (worker : ℕ) (j : JobId)
  | expireStrand
  deriving DecidableEq

/-- When an action may be taken. `hybrid_spin_mtx_.lock()` spins until it is free. -/
def Enabled (s : State) : Action → Prop
  | .call j _ => s.pc (.addJob, j) = .idle
  | .tryLock j => s.pc (.addJob, j) = .tryLock
  | .testEmpty j => s.pc (.addJob, j) = .testEmpty
  | .setReady j => s.pc (.addJob, j) = .setReady
  | .unlockForce j accepted => s.pc (.addJob, j) = .unlockForce accepted
  | .push j => s.pc (.addJob, j) = .push
  | .lock a => s.pc a = .lock ∧ s.locked = false
  | .testReady a => s.pc a = .testReady
  | .consumeOne a => s.pc a = .consumeOne
  | .storeReady a next => s.pc a = .storeReady next
  | .unlock a next => s.pc a = .unlock next
  | .pushToRunner a next _ => s.pc a = .pushToRunner next
  | .return_ j =>
    s.pc (.addJob, j) = .done ∨ (s.pc (.addJob, j) = .inPlace ∧ s.phase j = .finished)
  | .startJob worker j => (s.jobQueue worker).head? = some j
  | .finishJob j => s.phase j = .running
  | .shareToken j => (s.phase j = .running ∧ s.ownsToken j = true) ∨ 0 < s.sharedTokens j
  | .handOverToken j => s.phase j = .running ∧ s.ownsToken j = true
  | .dropToken j => 0 < s.sharedTokens j
  | .expireRunner => True
  | .discardQueued worker j => s.runnerAlive = false ∧ (s.jobQueue worker).head? = some j
  | .expireStrand => True

instance (s : State) : (e : Action) → Decidable (Enabled s e)
  | .call _ _ | .tryLock _ | .testEmpty _ | .setReady _ | .unlockForce _ _ | .push _
  | .testReady _ | .consumeOne _ | .storeReady _ _ | .unlock _ _ | .pushToRunner _ _ _
  | .startJob _ _ | .finishJob _ => inferInstanceAs (Decidable (_ = _))
  | .lock _ | .handOverToken _ | .discardQueued _ _ => inferInstanceAs (Decidable (_ ∧ _))
  | .return_ _ | .shareToken _ => inferInstanceAs (Decidable (_ ∨ _))
  | .dropToken _ => inferInstanceAs (Decidable (_ < _))
  | .expireRunner | .expireStrand => inferInstanceAs (Decidable True)

/-- `ForceRunImmediately` gives up, `TryRunImmediately` falls back to the queue. -/
def reject (s : State) (j : JobId) : Pc :=
  match s.form j with
  | .tryRunImmediately => .push
  | _ => .returned .rejected

def next (s : State) : Action → State
  | .call j form =>
    let t := { s with form := Function.update s.form j form }
    match form with
    | .enqueue => t.setPc (.addJob, j) .push
    | _ => t.setPc (.addJob, j) .tryLock
  | .tryLock j =>
    if s.locked then s.setPc (.addJob, j) (reject s j)
    else { s.setPc (.addJob, j) .testEmpty with locked := true }
  | .testEmpty j =>
    if s.hasReadyJob || !s.pendingJobs.isEmpty then s.setPc (.addJob, j) (.unlockForce false)
    else (s.setPc (.addJob, j) .setReady).setPhase j .claimed
  | .setReady j => { s.setPc (.addJob, j) (.unlockForce true) with hasReadyJob := true }
  | .unlockForce j false => { s.setPc (.addJob, j) (reject s j) with locked := false }
  | .unlockForce j true =>
    { (s.setPc (.addJob, j) .inPlace).setPhase j .running with
      locked := false
      ownsToken := Function.update s.ownsToken j true
      ranInPlace := s.ranInPlace ++ [j] }
  | .push j =>
    { (s.setPc (.addJob, j) .lock).setPhase j .pending with
      pendingJobs := s.pendingJobs ++ [j]
      ownsToken := Function.update s.ownsToken j true
      pushed := s.pushed ++ [j] }
  | .lock a => { s.setPc a .testReady with locked := true }
  | .testReady a =>
    if !a.1.isInRunningJob && s.hasReadyJob then s.setPc a (.unlock none)
    else s.setPc a .consumeOne
  | .consumeOne a =>
    match s.pendingJobs with
    | [] => s.setPc a (.storeReady none)
    | k :: rest =>
      { (s.setPc a (.storeReady (some k))).setPhase k (.popped a) with pendingJobs := rest }
  | .storeReady a next => { s.setPc a (.unlock next) with hasReadyJob := next.isSome }
  | .unlock a none => { s.setPc a .done with locked := false }
  | .unlock a (some k) => { s.setPc a (.pushToRunner k) with locked := false }
  | .pushToRunner a k worker =>
    if s.runnerAlive then
      { (s.setPc a .done).setPhase k (.queued worker) with
        jobQueue := Function.update s.jobQueue worker (s.jobQueue worker ++ [k])
        handed := s.handed ++ [k] }
    else (s.setPc a .done).destroyJob k .discarded
  | .return_ j =>
    s.setPc (.addJob, j)
      (.returned (if s.pc (.addJob, j) = .inPlace then .finished else .enqueued))
  | .startJob worker j =>
    { s.setPhase j .running with
      jobQueue := Function.update s.jobQueue worker (s.jobQueue worker).tail }
  | .finishJob j => s.destroyJob j .finished
  | .shareToken j =>
    { s with sharedTokens := Function.update s.sharedTokens j (s.sharedTokens j + 1) }
  | .handOverToken j =>
    { s with
      ownsToken := Function.update s.ownsToken j false
      sharedTokens := Function.update s.sharedTokens j (s.sharedTokens j + 1)
      handedOver := Function.update s.handedOver j true }
  | .dropToken j =>
    let t := { s with sharedTokens := Function.update s.sharedTokens j (s.sharedTokens j - 1) }
    if s.sharedTokens j == 1 && !s.ownsToken j then t.releaseToken j else t
  | .expireRunner => { s with runnerAlive := false }
  | .discardQueued worker j =>
    { s with jobQueue := Function.update s.jobQueue worker (s.jobQueue worker).tail }.destroyJob
      j .discarded
  | .expireStrand =>
    { s with
      strandAlive := false
      pendingJobs := []
      phase := fun j => if j ∈ s.pendingJobs then .dropped else s.phase j
      ownsToken := fun j => if j ∈ s.pendingJobs then false else s.ownsToken j }

def step (s : State) (e : Action) : Option State :=
  if Enabled s e then some (next s e) else none

def system : TransitionSystem State Action where
  init s := s = initial
  step := step

/-- Where a list of actions leads from the start. -/
def afterRun (as : List Action) : State :=
  system.after initial as

theorem reachable_afterRun (as : List Action) : system.Reachable (afterRun as) :=
  TransitionSystem.Reachable.after rfl as

theorem exec_afterRun {as bs : List Action} (h : (system.exec initial (as ++ bs)).isSome = true) :
    system.exec (afterRun as) bs = some (afterRun (as ++ bs)) :=
  system.exec_after_append h

theorem step_eq_some {s t : State} {e : Action} :
    system.step s e = some t ↔ Enabled s e ∧ next s e = t := by
  change (if Enabled s e then some (next s e) else none) = some t ↔ _
  split_ifs with h <;> simp [h]

end CrisCore.Strand
