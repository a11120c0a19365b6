import CrisCore.ListSums
import CrisCore.WorkerLoop

/-! `AddJob` and `AddJobs` beside the workers of a runner that is not stopped: a call pushes its jobs
and notifies the worker without taking `inactive_cv_mutex_`. -/
namespace CrisCore.WorkerWakeUp
open WorkerLoop (Config Pc)

/-- Where a call of `AddJob` or `AddJobs` is: how many jobs are left to push and how many it has
pushed; after the notification of the worker; after `ready_for_stealing_` was found false. -/
inductive Phase
  | pushing (left pushed : ℕ)
  | notified
  | notReady
  deriving DecidableEq

structure Call where
  worker : ℕ
  phase : Phase
  deriving DecidableEq

structure State where
  runner : WorkerLoop.State
  /-- A worker in `wait_for` has been notified and has not gone on. -/
  notified : ℕ → Bool
  calls : List Call
  /-- History: the jobs of the calls that have notified a worker when it was not waiting, since it
  tested its own queue. -/
  lost : ℕ → ℕ

def initial (config : Config) : State where
  runner := WorkerLoop.initial config
  notified := fun _ => false
  calls := []
  lost := fun _ => 0

inductive Action
  | worker (e : WorkerLoop.Action)
  /-- `AddJob` pushes one job. -/
  | addJobs (schedulerHint jobNum : ℕ)
  | push (k : ℕ)
  | notify (k : ℕ)
  | testReady (k : ℕ)
  | notifyOneWorker (k idx : ℕ)
  deriving DecidableEq

/-- What the workers and the constructor do; jobs are added by the calls. -/
def Running : WorkerLoop.Action → Bool
  | .addJob _ | .stopLock _ | .stopExchange _ | .stopUnlock _ | .join _ => false
  | .setReadyForStealing ready => ready
  | _ => true

namespace State

/-- `notify_one` does nothing when the worker does not wait. -/
def notifyOne (s : State) (i : ℕ) : State :=
  if s.runner.pc i = .wait then { s with notified := Function.update s.notified i true } else s

def workerIdx (s : State) (schedulerHint : ℕ) : ℕ :=
  if schedulerHint < s.runner.config.threadNum then schedulerHint
  else schedulerHint % s.runner.config.threadNum

def workerStep (s : State) (e : WorkerLoop.Action) : State :=
  let s := { s with runner := WorkerLoop.next s.runner e }
  match e with
  | .wakeUp i => { s with notified := Function.update s.notified i false }
  | .tryProcessOne i => { s with lost := Function.update s.lost i 0 }
  | _ => s

/-- There is no step where `NotifyOneWorker` draws the index behind the last worker. -/
def next (s : State) : Action → Option State
  | .worker e =>
    if Running e = true ∧ WorkerLoop.Enabled s.runner e then some (s.workerStep e) else none
  | .addJobs hint jobNum =>
    if 0 < s.runner.config.threadNum ∧ s.runner.created = s.runner.config.threadNum then
      some { s with calls := s.calls ++ [⟨s.workerIdx hint, .pushing jobNum 0⟩] }
    else none
  | .push k =>
    match s.calls[k]? with
    | some ⟨i, .pushing (left + 1) pushed⟩ =>
      some { s with
        runner := WorkerLoop.next s.runner (.addJob i)
        calls := s.calls.set k ⟨i, .pushing left (pushed + 1)⟩ }
    | _ => none
  | .notify k =>
    match s.calls[k]? with
    | some ⟨i, .pushing 0 pushed⟩ =>
      some { s.notifyOne i with
        calls := s.calls.set k ⟨i, .notified⟩
        lost := if s.runner.pc i = .wait then s.lost
          else Function.update s.lost i (s.lost i + pushed) }
    | _ => none
  | .testReady k =>
    match s.calls[k]? with
    | some ⟨i, .notified⟩ =>
      some { s with
        calls := if s.runner.readyForStealing then s.calls.eraseIdx k
          else s.calls.set k ⟨i, .notReady⟩ }
    | _ => none
  | .notifyOneWorker k idx =>
    match s.calls[k]? with
    | some ⟨_, .notReady⟩ =>
      if idx < s.runner.config.threadNum then
        some { s.notifyOne idx with calls := s.calls.eraseIdx k }
      else none
    | _ => none

end State

def system : TransitionSystem State Action where
  init s := ∃ config, s = initial config
  step := State.next

theorem init_initial (config : Config) : system.init (initial config) := ⟨config, rfl⟩

/-- Blocked on `inactive_cv_`, with no notification pending. -/
def State.Blocked (s : State) (i : ℕ) : Prop :=
  s.runner.pc i = .wait ∧ s.notified i = false

instance (s : State) (i : ℕ) : Decidable (s.Blocked i) := inferInstanceAs (Decidable (_ ∧ _))

/-- From the test of its own queue to the end of the wait. -/
def behind : Pc → Bool
  | .steal | .scan _ _ | .foundNothing | .deactivate | .lock | .testShutdown | .wait => true
  | _ => false

/-- From the end of the wait to the test of its own queue, or on the way out of the loop. -/
def ahead : Pc → Bool
  | .relock | .activate | .unlock | .test | .tryProcessOne | .breakLoop | .leave _ | .storeStopped
  | .exited => true
  | _ => false

def holdsMutex : Pc → Bool
  | .testShutdown | .activate | .unlock | .breakLoop => true
  | _ => false

section WorkerSteps
variable {r : WorkerLoop.State} {e : WorkerLoop.Action} {i : ℕ}

theorem jobQueue_next_le (he : e ≠ .addJob i) : (WorkerLoop.next r e).jobQueue i ≤ r.jobQueue i := by
  have htake (j q : ℕ) (p : Pc) : (r.takeJob j q p).jobQueue i ≤ r.jobQueue i := by
    unfold WorkerLoop.State.takeJob
    split_ifs
    · simp only [Function.update_apply]
      split_ifs with hi
      · rw [hi]
        exact Nat.sub_le _ _
      · exact Nat.le_refl _
    · exact Nat.le_refl _
  cases e with
  | addJob j =>
    have hij : i ≠ j := fun h => he (by rw [h])
    simp [WorkerLoop.next, hij]
  | tryProcessOne j => exact htake j j .steal
  | scan j idx tried =>
    simp only [WorkerLoop.next]
    split
    · exact htake ..
    · exact Nat.le_refl _
  | checkTime j now now' =>
    simp only [WorkerLoop.next]
    split <;> exact Nat.le_refl _
  | testShutdown j =>
    simp only [WorkerLoop.next]
    split <;> exact Nat.le_refl _
  | _ => exact Nat.le_refl _

theorem pc_setPc (j : ℕ) (p : Pc) : (r.setPc j p).pc i = if i = j then p else r.pc i := by
  simp only [WorkerLoop.State.setPc, Function.update_apply]

/-- Where a step of worker `i` takes it. -/
inductive Turn (r : WorkerLoop.State) (i : ℕ) : WorkerLoop.Action → Pc → Prop
  | createWorker (hi : i = r.created) : Turn r i .createWorker .start
  | start (now : ℤ) : Turn r i (.start i now) .test
  | test {p : Pc} (hp : p = .leave false ∨ p = .tryProcessOne) : Turn r i (.test i) p
  | ownJob (h : 0 < r.jobQueue i) : Turn r i (.tryProcessOne i) .processing
  | noOwnJob (h : r.jobQueue i = 0) : Turn r i (.tryProcessOne i) .steal
  | steal (idx : ℕ) {p : Pc} (hp : p = .scan idx 0 ∨ p = .foundNothing) : Turn r i (.steal i idx) p
  | scan {idx tried : ℕ} {p : Pc}
      (hp : p = .processing ∨ (∃ idx', p = .scan idx' (tried + 1)) ∨ p = .foundNothing) :
      Turn r i (.scan i idx tried) p
  | finishJob : Turn r i (.finishJob i) .test
  | checkTime (now now' : ℤ) {p : Pc} (hp : p = .test ∨ p = .deactivate) :
      Turn r i (.checkTime i now now') p
  | deactivate : Turn r i (.deactivate i) .lock
  | lock : Turn r i (.lock i) .testShutdown
  | testShutdown {p : Pc} (hp : p = .breakLoop ∨ p = .wait) : Turn r i (.testShutdown i) p
  | wakeUp : Turn r i (.wakeUp i) .relock
  | relock : Turn r i (.relock i) .activate
  | activate : Turn r i (.activate i) .unlock
  | unlock : Turn r i (.unlock i) .test
  | breakLoop : Turn r i (.breakLoop i) (.leave true)
  | leave (byBreak : Bool) : Turn r i (.leave i byBreak) .storeStopped
  | storeStopped : Turn r i (.storeStopped i) .exited

/-- The place of a worker changes only by its own steps, and by its creation. -/
theorem pc_next (r : WorkerLoop.State) (e : WorkerLoop.Action) (i : ℕ) :
    (WorkerLoop.next r e).pc i = r.pc i ∨ Turn r i e ((WorkerLoop.next r e).pc i) := by
  have hset (j : ℕ) (p : Pc) (hp : i = j → Turn r i e p) :
      (r.setPc j p).pc i = r.pc i ∨ Turn r i e ((r.setPc j p).pc i) := by
    rw [pc_setPc]
    split_ifs with hij
    · exact .inr (hp hij)
    · exact .inl rfl
  have htake (j q : ℕ) (p : Pc) (hjob : i = j → 0 < r.jobQueue q → Turn r i e .processing)
      (hnone : i = j → r.jobQueue q = 0 → Turn r i e p) :
      (r.takeJob j q p).pc i = r.pc i ∨ Turn r i e ((r.takeJob j q p).pc i) := by
    unfold WorkerLoop.State.takeJob
    split_ifs with hq
    · exact hset j .processing fun hij => hjob hij hq
    · exact hset j p fun hij => hnone hij (Nat.eq_zero_of_not_pos hq)
  cases e with
  | createWorker => exact hset _ _ .createWorker
  | setReadyForStealing | addJob | stopLock | stopExchange | stopUnlock | join => exact .inl rfl
  | start j now => exact hset j _ fun hij => hij ▸ .start now
  | test j =>
    exact hset j _ fun hij => hij ▸ .test (ite_eq_or_eq ..)
  | tryProcessOne j =>
    refine htake j j _ (fun hij hq => ?_) fun hij hq => ?_
    · subst hij
      exact .ownJob hq
    · subst hij
      exact .noOwnJob hq
  | steal j idx =>
    exact hset j _ fun hij => hij ▸ .steal idx (ite_eq_or_eq ..)
  | scan j idx tried =>
    simp only [WorkerLoop.next]
    split
    · exact htake j _ _ (fun hij _ => hij ▸ .scan (.inl rfl)) fun hij _ =>
        hij ▸ .scan (.inr (.inl ⟨_, rfl⟩))
    · exact hset j _ fun hij => hij ▸ .scan (.inr (.inr rfl))
  | finishJob j => exact hset j _ fun hij => hij ▸ .finishJob
  | checkTime j now now' =>
    simp only [WorkerLoop.next]
    split
    · exact hset j _ fun hij => hij ▸ .checkTime now now' (.inl rfl)
    · exact hset j _ fun hij => hij ▸ .checkTime now now' (ite_eq_or_eq ..)
  | deactivate j => exact hset j _ fun hij => hij ▸ .deactivate
  | lock j => exact hset j _ fun hij => hij ▸ .lock
  | testShutdown j =>
    simp only [WorkerLoop.next]
    split
    · exact hset j _ fun hij => hij ▸ .testShutdown (.inl rfl)
    · exact hset j _ fun hij => hij ▸ .testShutdown (.inr rfl)
  | wakeUp j => exact hset j _ fun hij => hij ▸ .wakeUp
  | relock j => exact hset j _ fun hij => hij ▸ .relock
  | activate j => exact hset j _ fun hij => hij ▸ .activate
  | unlock j => exact hset j _ fun hij => hij ▸ .unlock
  | breakLoop j => exact hset j _ fun hij => hij ▸ .breakLoop
  | leave j byBreak => exact hset j _ fun hij => hij ▸ .leave byBreak
  | storeStopped j => exact hset j _ fun hij => hij ▸ .storeStopped

/-- A worker gets behind its queue only by finding it empty. -/
theorem behind_of_next (he : WorkerLoop.Enabled r e)
    (h : behind ((WorkerLoop.next r e).pc i) = true) :
    behind (r.pc i) = true ∨ (e = .tryProcessOne i ∧ r.jobQueue i = 0) := by
  rcases pc_next r e i with hp | hturn
  · rw [hp] at h
    exact .inl h
  · generalize (WorkerLoop.next r e).pc i = p at h hturn
    cases hturn with
    | noOwnJob hq => exact .inr ⟨rfl, hq⟩
    | steal => exact .inl (by rw [he.1]; rfl)
    | scan | deactivate | testShutdown => exact .inl (by rw [he]; rfl)
    | checkTime now now' hp => exact .inl (by rw [he]; rfl)
    | lock => exact .inl (by rw [he.1]; rfl)
    | test hp => rcases hp with rfl | rfl <;> cases h
    | _ => cases h

/-- A worker that has gone on from its wait does not come back to it without testing its queue. -/
theorem ahead_next (hr : WorkerLoop.Inv r) (he : WorkerLoop.Enabled r e)
    (h : ahead (r.pc i) = true) (hne : e ≠ .tryProcessOne i) :
    ahead ((WorkerLoop.next r e).pc i) = true := by
  rcases pc_next r e i with hp | hturn
  · rw [hp]
    exact h
  · generalize (WorkerLoop.next r e).pc i = p at hturn
    cases hturn with
    | createWorker hi =>
      have hcreated : i < r.created := hr.created i fun hp => by rw [hp] at h; cases h
      omega
    | ownJob | noOwnJob => exact absurd rfl hne
    | test hp => rcases hp with rfl | rfl <;> rfl
    | steal idx | lock =>
      rw [he.1] at h
      cases h
    | scan | checkTime | deactivate | testShutdown =>
      rw [he] at h
      cases h
    | _ => rfl

theorem shutdown_next (he : Running e = true) :
    (WorkerLoop.next r e).shutdown = r.shutdown := by
  cases e <;> simp only [WorkerLoop.next, WorkerLoop.State.takeJob] <;> (repeat' split) <;>
    first
    | rfl
    | cases he

/-- A runner that is not stopped: only the worker takes its `inactive_cv_mutex_`. -/
theorem cvMutex_next (hr : WorkerLoop.Inv r) (hrun : Running e = true)
    (he : WorkerLoop.Enabled r e)
    (h : holdsMutex (r.pc i) = false → r.cvMutex i = none)
    (hp : holdsMutex ((WorkerLoop.next r e).pc i) = false) :
    (WorkerLoop.next r e).cvMutex i = none := by
  have hset (j : ℕ) (p : Pc) (hj : holdsMutex (r.pc j) = false)
      (hp : holdsMutex ((r.setPc j p).pc i) = false) : r.cvMutex i = none := by
    rw [pc_setPc] at hp
    split_ifs at hp with hij
    · exact h (hij ▸ hj)
    · exact h hp
  have htake (j q : ℕ) (p : Pc) (hj : holdsMutex (r.pc j) = false)
      (hp : holdsMutex ((r.takeJob j q p).pc i) = false) : (r.takeJob j q p).cvMutex i = none := by
    unfold WorkerLoop.State.takeJob at hp ⊢
    split_ifs at hp ⊢
    · exact hset j _ hj hp
    · exact hset j _ hj hp
  -- the worker takes or gives up the mutex
  have hchange (j : ℕ) (p : Pc) (holder : Option WorkerLoop.Holder)
      (hself : holdsMutex p = false → holder = none)
      (hp : holdsMutex ((r.setPc j p).pc i) = false) :
      Function.update r.cvMutex j holder i = none := by
    rw [pc_setPc] at hp
    rw [Function.update_apply]
    split_ifs at hp ⊢ with hij
    · exact hself hp
    · exact h hp
  cases e with
  | addJob | stopLock | stopExchange | stopUnlock | join => cases hrun
  | setReadyForStealing => exact h hp
  | createWorker =>
    have hnew : r.pc r.created = .notCreated := by
      by_contra hne
      exact Nat.lt_irrefl _ (hr.created _ hne)
    exact hset _ _ (by rw [hnew]; rfl) hp
  | tryProcessOne j => exact htake j j _ (by rw [he]; rfl) hp
  | scan j idx tried =>
    simp only [WorkerLoop.next] at hp ⊢
    split at hp
    · next ht =>
      rw [if_pos ht]
      exact htake j _ _ (by rw [he]; rfl) hp
    · next ht =>
      rw [if_neg ht]
      exact hset j _ (by rw [he]; rfl) hp
  | checkTime j now now' =>
    simp only [WorkerLoop.next] at hp ⊢
    split at hp
    · next ht =>
      rw [if_pos ht]
      exact hset j _ (by rw [he]; rfl) hp
    · next ht =>
      rw [if_neg ht]
      exact hset j _ (by rw [he]; rfl) hp
  | testShutdown j =>
    simp only [WorkerLoop.next] at hp ⊢
    split at hp
    · next ht =>
      rw [pc_setPc] at hp
      rw [if_pos ht]
      split_ifs at hp with hij
      · cases hp
      · exact h hp
    · next ht =>
      rw [if_neg ht]
      exact hchange j _ _ (fun _ => rfl) hp
  | lock j | relock j => exact hchange j _ _ (fun hp => by cases hp) hp
  | unlock j | breakLoop j => exact hchange j _ _ (fun _ => rfl) hp
  | activate j =>
    have hp : holdsMutex ((r.setPc j .unlock).pc i) = false := hp
    rw [pc_setPc] at hp
    split_ifs at hp with hij
    · cases hp
    · exact h hp
  | steal j => exact hset j _ (by rw [he.1]; rfl) hp
  | start j | test j | finishJob j | deactivate j | wakeUp j | leave j | storeStopped j =>
    exact hset j _ (by rw [he]; rfl) hp

end WorkerSteps

/-- What a call has pushed to worker `i` and not notified it of. -/
def Call.unnotified (i : ℕ) (call : Call) : ℕ :=
  match call.phase with
  | .pushing _ pushed => if call.worker = i then pushed else 0
  | .notified | .notReady => 0

def State.unnotified (s : State) (i : ℕ) : ℕ := (s.calls.map (Call.unnotified i)).sum

/-- A worker that is behind its queue has jobs in it only from calls that have not notified it or
have done so for nothing. -/
structure Inv (s : State) : Prop where
  runner : WorkerLoop.Inv s.runner
  calls : ∀ call ∈ s.calls, call.worker < s.runner.created
  behind : ∀ i, behind (s.runner.pc i) = true → s.notified i = false →
    s.runner.jobQueue i ≤ s.lost i + s.unnotified i
  shutdown : ∀ i, s.runner.shutdown i = false
  mutex : ∀ i, holdsMutex (s.runner.pc i) = false → s.runner.cvMutex i = none

theorem inv_initial (config : Config) : Inv (initial config) where
  runner := WorkerLoop.inv_initial config
  calls _ h := nomatch h
  behind _ h := nomatch h
  shutdown _ := rfl
  mutex _ _ := rfl

theorem inv_worker {s : State} {e : WorkerLoop.Action} (h : Inv s) (hrun : Running e = true)
    (he : WorkerLoop.Enabled s.runner e) : Inv (s.workerStep e) := by
  have hrunner : (s.workerStep e).runner = WorkerLoop.next s.runner e := by cases e <;> rfl
  have hcalls : (s.workerStep e).calls = s.calls := by cases e <;> rfl
  have hjob (i : ℕ) : e ≠ .addJob i := fun heq => by rw [heq] at hrun; cases hrun
  refine ⟨?_, fun call hc => ?_, fun i hb hn => ?_, fun i => ?_, fun i hp => ?_⟩
  · rw [hrunner]
    exact WorkerLoop.inv_step he h.runner
  · rw [hcalls] at hc
    have hold := h.calls call hc
    rw [hrunner, WorkerLoop.created_next]
    split_ifs <;> omega
  · rw [hrunner] at hb ⊢
    rw [State.unnotified, hcalls]
    have hle : (WorkerLoop.next s.runner e).jobQueue i ≤ s.runner.jobQueue i :=
      jobQueue_next_le (hjob i)
    rcases behind_of_next he hb with hold | ⟨rfl, hempty⟩
    · by_cases hwake : e = .wakeUp i
      · -- the worker is not behind its queue any more
        subst hwake
        rw [WorkerLoop.next, pc_setPc, if_pos rfl] at hb
        cases hb
      · have hnotified : s.notified i = false := by
          cases e with
          | wakeUp j =>
            have hij : i ≠ j := fun heq => hwake (by rw [heq])
            simpa [State.workerStep, hij] using hn
          | _ => exact hn
        by_cases htest : e = .tryProcessOne i
        · -- it was not behind before it tested its queue
          subst htest
          rw [WorkerLoop.Enabled] at he
          rw [he] at hold
          cases hold
        · have hlost : (s.workerStep e).lost i = s.lost i := by
            cases e with
            | tryProcessOne j =>
              have hij : i ≠ j := fun heq => htest (by rw [heq])
              simp [State.workerStep, hij]
            | _ => rfl
          rw [hlost]
          exact hle.trans (h.behind i hold hnotified)
    · -- it has just found its queue empty
      omega
  · rw [hrunner, shutdown_next hrun]
    exact h.shutdown i
  · rw [hrunner] at hp ⊢
    exact cvMutex_next h.runner hrun he (h.mutex i) hp

theorem inv_push {s : State} {k i left pushed : ℕ} (h : Inv s)
    (hk : s.calls[k]? = some ⟨i, .pushing (left + 1) pushed⟩) :
    Inv { s with
      runner := WorkerLoop.next s.runner (.addJob i)
      calls := s.calls.set k ⟨i, .pushing left (pushed + 1)⟩ } := by
  have hi : i < s.runner.created := h.calls _ (List.mem_of_getElem? hk)
  refine ⟨WorkerLoop.inv_step (e := .addJob i) hi h.runner, fun call hc => ?_, fun j hb hn => ?_,
    h.shutdown, h.mutex⟩
  · rcases List.mem_or_eq_of_mem_set hc with hc | rfl
    · exact h.calls call hc
    · exact hi
  · have hold := h.behind j hb hn
    have hsum := ListSums.sum_map_set_add (Call.unnotified j) hk ⟨i, .pushing left (pushed + 1)⟩
    simp only [State.unnotified, WorkerLoop.next, Function.update_apply, Call.unnotified] at *
    by_cases hij : j = i
    · subst hij
      simp only [if_true] at *
      omega
    · simp only [if_neg hij, if_neg (Ne.symm hij)] at *
      omega

/-- The notification of the worker: what the call has pushed is known to the worker, or lost. -/
theorem inv_notify {s : State} {k i pushed : ℕ} (h : Inv s)
    (hk : s.calls[k]? = some ⟨i, .pushing 0 pushed⟩) :
    Inv { s.notifyOne i with
      calls := s.calls.set k ⟨i, .notified⟩
      lost := if s.runner.pc i = .wait then s.lost
        else Function.update s.lost i (s.lost i + pushed) } := by
  have hi : i < s.runner.created := h.calls _ (List.mem_of_getElem? hk)
  have hrunner : (s.notifyOne i).runner = s.runner := by
    unfold State.notifyOne
    split_ifs <;> rfl
  refine ⟨by rw [hrunner]; exact h.runner, fun call hc => ?_, fun j hb hn => ?_,
    by rw [hrunner]; exact h.shutdown, by rw [hrunner]; exact h.mutex⟩
  · rw [hrunner]
    rcases List.mem_or_eq_of_mem_set hc with hc | rfl
    · exact h.calls call hc
    · exact hi
  · rw [hrunner] at hb ⊢
    have hsum := ListSums.sum_map_set_add (Call.unnotified j) hk ⟨i, .notified⟩
    simp only [Call.unnotified] at hsum
    -- the worker that is notified still counts as not notified only when it did not wait
    have hn' : s.notified j = false ∧ (j = i → s.runner.pc i ≠ .wait) := by
      simp only [State.notifyOne] at hn
      split_ifs at hn with hwait
      · by_cases hij : j = i
        · simp [hij] at hn
        · simp only [Function.update_of_ne hij] at hn
          exact ⟨hn, fun heq => absurd heq hij⟩
      · exact ⟨hn, fun _ => hwait⟩
    have hold := h.behind j hb hn'.1
    simp only [State.unnotified] at *
    by_cases hij : j = i
    · subst hij
      simp only [if_true, if_neg (hn'.2 rfl), Function.update_self] at *
      omega
    · have hlost : (if s.runner.pc i = .wait then s.lost
          else Function.update s.lost i (s.lost i + pushed)) j = s.lost j := by
        split_ifs
        · rfl
        · exact Function.update_of_ne hij ..
      rw [hlost]
      simp only [if_neg (Ne.symm hij)] at hsum
      omega

/-- A call that has nothing left to notify its worker of goes on or returns. -/
theorem inv_calls {s s' : State} (h : Inv s) (hrunner : s'.runner = s.runner)
    (hlost : s'.lost = s.lost) (hnotified : ∀ i, s'.notified i = false → s.notified i = false)
    (hcalls : ∀ call ∈ s'.calls, call.worker < s.runner.created)
    (hsum : ∀ i, s.unnotified i ≤ s'.unnotified i) : Inv s' := by
  refine ⟨hrunner ▸ h.runner, hrunner ▸ hcalls, fun i hb hn => ?_, hrunner ▸ h.shutdown,
    hrunner ▸ h.mutex⟩
  rw [hrunner] at hb ⊢
  rw [hlost]
  exact (h.behind i hb (hnotified i hn)).trans (Nat.add_le_add_left (hsum i) _)

theorem notifyOne_notified (s : State) (idx i : ℕ) (h : (s.notifyOne idx).notified i = false) :
    s.notified i = false := by
  unfold State.notifyOne at h
  split_ifs at h
  · simp only [Function.update_apply] at h
    split_ifs at h
    exact h
  · exact h

theorem inv_step {s s' : State} {a : Action} (h : Inv s) (hs : system.step s a = some s') :
    Inv s' := by
  change s.next a = some s' at hs
  cases a with
  | worker e =>
    simp only [State.next] at hs
    split_ifs at hs with he
    cases hs
    exact inv_worker h he.1 he.2
  | addJobs hint jobNum =>
    simp only [State.next] at hs
    split_ifs at hs with hready
    cases hs
    refine inv_calls h rfl rfl (fun _ hn => hn) (fun call hc => ?_) fun i => ?_
    · rcases List.mem_append.mp hc with hc | hc
      · exact h.calls call hc
      · rw [List.mem_singleton.mp hc, hready.2]
        simp only [State.workerIdx]
        split_ifs with hlt
        · exact hlt
        · exact Nat.mod_lt _ hready.1
    · simp [State.unnotified]
  | push k =>
    simp only [State.next] at hs
    split at hs
    · next hk =>
      cases hs
      exact inv_push h hk
    · cases hs
  | notify k =>
    simp only [State.next] at hs
    split at hs
    · next hk =>
      cases hs
      exact inv_notify h hk
    · cases hs
  | testReady k =>
    simp only [State.next] at hs
    split at hs
    · next i hk =>
      cases hs
      have hi : i < s.runner.created := h.calls _ (List.mem_of_getElem? hk)
      refine inv_calls h rfl rfl (fun _ hn => hn) (fun call hc => ?_) fun j => ?_
      · simp only at hc
        split at hc
        · exact h.calls call (List.mem_of_mem_eraseIdx hc)
        · rcases List.mem_or_eq_of_mem_set hc with hc | rfl
          · exact h.calls call hc
          · exact hi
      · have herase := ListSums.sum_map_eraseIdx (Call.unnotified j) hk
        have hset := ListSums.sum_map_set_add (Call.unnotified j) hk ⟨i, .notReady⟩
        simp only [Call.unnotified, State.unnotified, Nat.add_zero] at *
        split <;> omega
    · cases hs
  | notifyOneWorker k idx =>
    simp only [State.next] at hs
    split at hs
    · next i hk =>
      split_ifs at hs
      cases hs
      have hframe : (s.notifyOne idx).runner = s.runner ∧ (s.notifyOne idx).lost = s.lost := by
        unfold State.notifyOne
        split_ifs <;> exact ⟨rfl, rfl⟩
      refine inv_calls h hframe.1 hframe.2 (notifyOne_notified s idx)
        (fun call hc => h.calls call (List.mem_of_mem_eraseIdx hc)) fun j => ?_
      have herase := ListSums.sum_map_eraseIdx (Call.unnotified j) hk
      simp only [Call.unnotified, State.unnotified, Nat.add_zero] at *
      omega
    · cases hs

theorem reachable_inv {s : State} (h : system.Reachable s) : Inv s := by
  refine h.invariant ?_ fun _ _ _ h hs => inv_step h hs
  rintro s ⟨config, rfl⟩
  exact inv_initial config

/-- What a worker does after `wait_for` until it has looked at its own queue. -/
def goesOn (i : ℕ) : List Action :=
  [.worker (.wakeUp i), .worker (.relock i), .worker (.activate i), .worker (.unlock i),
    .worker (.test i), .worker (.tryProcessOne i)]

theorem step_worker {s : State} {e : WorkerLoop.Action} (hrun : Running e = true)
    (he : WorkerLoop.Enabled s.runner e) : system.step s (.worker e) = some (s.workerStep e) :=
  if_pos ⟨hrun, he⟩

/-- A worker whose wait has timed out takes a job of its own queue. -/
theorem exec_goesOn {s : State} {i : ℕ} (h : Inv s) (hwait : s.runner.pc i = .wait)
    (hjob : 0 < s.runner.jobQueue i) :
    ∃ s', system.exec s (goesOn i) = some s' ∧ s'.runner.pc i = .processing ∧
      s'.runner.jobQueue i + 1 = s.runner.jobQueue i := by
  have hmutex : s.runner.cvMutex i = none := h.mutex i (by rw [hwait]; rfl)
  let s1 := s.workerStep (.wakeUp i)
  let s2 := s1.workerStep (.relock i)
  let s3 := s2.workerStep (.activate i)
  let s4 := s3.workerStep (.unlock i)
  let s5 := s4.workerStep (.test i)
  let s6 := s5.workerStep (.tryProcessOne i)
  have h1 : s1.runner.pc i = .relock := Function.update_self ..
  have h2 : s2.runner.pc i = .activate := Function.update_self ..
  have h3 : s3.runner.pc i = .unlock := Function.update_self ..
  have h4 : s4.runner.pc i = .test := Function.update_self ..
  have hshutdown : s4.runner.shutdown i = false := h.shutdown i
  have h5 : s5.runner.pc i = .tryProcessOne := by
    change (s4.runner.setPc i _).pc i = _
    rw [pc_setPc, if_pos rfl, hshutdown]
    rfl
  have hjob5 : 0 < s5.runner.jobQueue i := hjob
  have h6 : s6.runner = { s5.runner.setPc i .processing with
      jobQueue := Function.update s5.runner.jobQueue i (s5.runner.jobQueue i - 1) } :=
    if_pos hjob5
  refine ⟨s6, ?_, ?_, ?_⟩
  · have e1 : system.step s (.worker (.wakeUp i)) = some s1 := step_worker rfl hwait
    have e2 : system.step s1 (.worker (.relock i)) = some s2 := step_worker rfl ⟨h1, hmutex⟩
    have e3 : system.step s2 (.worker (.activate i)) = some s3 := step_worker rfl h2
    have e4 : system.step s3 (.worker (.unlock i)) = some s4 := step_worker rfl h3
    have e5 : system.step s4 (.worker (.test i)) = some s5 := step_worker rfl h4
    have e6 : system.step s5 (.worker (.tryProcessOne i)) = some s6 := step_worker rfl h5
    simp only [goesOn, TransitionSystem.exec_cons, TransitionSystem.exec_nil, Option.bind_some,
      e1, e2, e3, e4, e5, e6]
  · rw [h6]
    exact Function.update_self ..
  · rw [h6]
    simp only [Function.update_self]
    exact Nat.sub_add_cancel hjob5

theorem ahead_step {s s' : State} {a : Action} {i : ℕ} (h : Inv s)
    (hahead : ahead (s.runner.pc i) = true) (hne : a ≠ .worker (.tryProcessOne i))
    (hs : system.step s a = some s') : ahead (s'.runner.pc i) = true := by
  change s.next a = some s' at hs
  have hnotify (j : ℕ) : (s.notifyOne j).runner = s.runner := by
    unfold State.notifyOne
    split_ifs <;> rfl
  cases a with
  | worker e =>
    simp only [State.next] at hs
    split_ifs at hs with he
    cases hs
    have hrunner : (s.workerStep e).runner = WorkerLoop.next s.runner e := by cases e <;> rfl
    rw [hrunner]
    exact ahead_next h.runner he.2 hahead fun heq => hne (by rw [heq])
  | addJobs hint jobNum =>
    simp only [State.next] at hs
    split_ifs at hs
    cases hs
    exact hahead
  | push k | testReady k =>
    simp only [State.next] at hs
    split at hs <;> cases hs
    exact hahead
  | notify k =>
    simp only [State.next] at hs
    split at hs <;> cases hs
    rwa [hnotify]
  | notifyOneWorker k idx =>
    simp only [State.next] at hs
    split at hs
    · split_ifs at hs
      cases hs
      rwa [hnotify]
    · cases hs

/-- A worker that has gone on tests its own queue before it waits again. -/
theorem test_before_wait {s s' : State} {i : ℕ} {as : List Action} (h : Inv s)
    (hahead : ahead (s.runner.pc i) = true) (he : system.exec s as = some s')
    (hwait : s'.runner.pc i = .wait) : .worker (.tryProcessOne i) ∈ as := by
  induction as generalizing s with
  | nil =>
    cases he
    rw [hwait] at hahead
    cases hahead
  | cons a as ih =>
    obtain ⟨u, hu, he⟩ := Option.bind_eq_some_iff.mp he
    by_cases ha : a = .worker (.tryProcessOne i)
    · rw [ha]
      exact List.mem_cons_self
    · exact List.mem_cons_of_mem a (ih (inv_step h hu) (ahead_step h hahead ha hu) he)

/-- With no call under way, the queue of a worker that is blocked and has no notification pending holds
no more jobs than were added by calls that notified the worker between its last test of the queue and
its wait. The wait is timed: whenever it ends, the worker can take a job of its own queue at once,
and it tests the queue before it waits again. -/
theorem lost_wake_up_is_timed {s : State} (h : system.Reachable s) :
    (s.calls = [] → ∀ i, s.Blocked i → s.runner.jobQueue i ≤ s.lost i) ∧
    (∀ i, s.runner.pc i = .wait → 0 < s.runner.jobQueue i →
      ∃ s', system.exec s (goesOn i) = some s' ∧ s'.runner.pc i = .processing ∧
        s'.runner.jobQueue i + 1 = s.runner.jobQueue i) ∧
    ∀ i as s', system.exec s (.worker (.wakeUp i) :: as) = some s' → s'.runner.pc i = .wait →
      .worker (.tryProcessOne i) ∈ as := by
  have hi := reachable_inv h
  refine ⟨fun hcalls i ⟨hwait, hn⟩ => ?_, fun i hwait hjob => exec_goesOn hi hwait hjob,
    fun i as s' he hwait => ?_⟩
  · have hbehind := hi.behind i (by rw [hwait]; rfl) hn
    simpa [State.unnotified, hcalls] using hbehind
  · obtain ⟨u, hu, he⟩ := Option.bind_eq_some_iff.mp he
    have hrelock : u.runner.pc i = .relock := by
      change s.next (.worker (.wakeUp i)) = some u at hu
      simp only [State.next] at hu
      split_ifs at hu
      cases hu
      exact Function.update_self ..
    exact test_before_wait (inv_step hi hu) (by rw [hrelock]; rfl) he hwait

/-- One worker, which does not stay active. -/
def oneWorker : Config where
  threadNum := 1
  alwaysActiveThreadNum := 0
  activeTime := 0
  threadNum_lt := WorkerLoop.oneWorker.threadNum_lt

/-- The job comes after the worker has tested its queue and before it waits. -/
def missedRun : List Action :=
  [.worker .createWorker, .worker (.setReadyForStealing true), .worker (.start 0 0), .worker (.test 0),
    .worker (.tryProcessOne 0), .worker (.steal 0 0), .worker (.scan 0 0 0), .worker (.scan 0 1 1),
    .worker (.checkTime 0 0 0), .worker (.deactivate 0), .worker (.lock 0), .addJobs 0 1, .push 0,
    .notify 0, .testReady 0, .worker (.testShutdown 0)]

theorem lost_wake_up_is_timed_missedRun :
    ∃ s', system.exec (system.after (initial oneWorker) missedRun) (goesOn 0) = some s' ∧
      s'.runner.pc 0 = .processing ∧ s'.runner.jobQueue 0 + 1 = 1 :=
  (lost_wake_up_is_timed (.after (init_initial oneWorker) missedRun)).2.1 0 (by decide) (by decide)

/-- The worker is blocked with a job in its queue, and nobody is going to notify it. -/
theorem wake_up_lost :
    ¬ ∀ s, system.Reachable s → s.calls = [] → ∀ i, s.Blocked i → s.runner.jobQueue i = 0 := by
  intro h
  have hempty := h _ (.after (init_initial oneWorker) missedRun) (by decide) 0 (by decide)
  exact absurd hempty (by decide)

end CrisCore.WorkerWakeUp
