import CrisCore.TransitionSystem
import Mathlib.Algebra.Group.Nat.Defs
import Mathlib.Data.Finset.Card
import Mathlib.Data.Int.Basic
import Mathlib.Logic.Function.Basic

/-! The workers of a `JobRunner`: each turn of `WorkerLoop` access by access, together with the
constructor, `AddJob`, `Stop` and `Join` of any threads. Jobs are counted; what a job does on the
runner is one of the actions of the other threads. -/
namespace CrisCore.WorkerLoop

structure Config where
  threadNum : ℕ
  alwaysActiveThreadNum : ℕ
  activeTime : ℤ
  /-- `std::size_t` -/
  threadNum_lt : threadNum < 2 ^ 64

/-- Where a worker is. From `testShutdown` to `activate` it holds `inactive_cv_mutex_`, but in
`wait`. -/
inductive Pc
  | notCreated
  | start
  -- while (!shutdown_flag_.load())
  | test
  | tryProcessOne
  | steal
  -- the loop of Steal: the next index, and how many queues were tried
  | scan (idx tried : ℕ)
  | processing
  | foundNothing
  | deactivate
  | lock
  | testShutdown
  | wait
  | relock
  | activate
  | unlock
  -- after the loop, which was left by its condition or by the break
  | breakLoop
  | leave (byBreak : Bool)
  | storeStopped
  | exited
  deriving DecidableEq

/-- The worker has added itself to `active_workers_num_` and not taken itself off since. -/
def Pc.active : Pc → Bool
  | .test | .tryProcessOne | .steal | .scan _ _ | .processing | .foundNothing | .deactivate
  | .unlock => true
  | .leave byBreak => !byBreak
  | .notCreated | .start | .lock | .testShutdown | .wait | .relock | .activate | .breakLoop
  | .storeStopped | .exited => false

/-- Who holds `inactive_cv_mutex_`; `Stop` before or after its compare-and-exchange. -/
inductive Holder
  | worker
  | stop (exchanged : Bool)
  deriving DecidableEq

structure State where
  config : Config
  /-- Workers made by the constructor so far. -/
  created : ℕ
  readyForStealing : Bool
  /-- `active_workers_num_` -/
  activeWorkersNum : BitVec 64
  pc : ℕ → Pc
  hasPendingJobs : ℕ → Bool
  lastActiveTimestamp : ℕ → ℤ
  /-- Jobs in `job_queue_` of each worker. -/
  jobQueue : ℕ → ℕ
  shutdown : ℕ → Bool
  stopped : ℕ → Bool
  cvMutex : ℕ → Option Holder
  joined : ℕ → Bool

def initial (config : Config) : State where
  config := config
  created := 0
  readyForStealing := false
  activeWorkersNum := 0
  pc := fun _ => .notCreated
  hasPendingJobs := fun _ => false
  lastActiveTimestamp := fun _ => 0
  jobQueue := fun _ => 0
  shutdown := fun _ => false
  stopped := fun _ => false
  cvMutex := fun _ => none
  joined := fun _ => false

inductive Action
  -- the constructor and the destructor
  | createWorker
  | setReadyForStealing (ready : Bool)
  -- the worker `i`; `now` is what GetSystemTimestampNsec answers
  | start (i : ℕ) (now : ℤ)
  | test (i : ℕ)
  | tryProcessOne (i : ℕ)
  | steal (i idx : ℕ)
  | scan (i idx tried : ℕ)
  | finishJob (i : ℕ)
  | checkTime (i : ℕ) (now now' : ℤ)
  | deactivate (i : ℕ)
  | lock (i : ℕ)
  | testShutdown (i : ℕ)
  | wakeUp (i : ℕ)
  | relock (i : ℕ)
  | activate (i : ℕ)
  | unlock (i : ℕ)
  | breakLoop (i : ℕ)
  | leave (i : ℕ) (byBreak : Bool)
  | storeStopped (i : ℕ)
  -- AddJob, Stop and Join
  | addJob (i : ℕ)
  | stopLock (i : ℕ)
  | stopExchange (i : ℕ)
  | stopUnlock (i : ℕ)
  | join (i : ℕ)
  deriving DecidableEq

namespace State

def setPc (s : State) (i : ℕ) (p : Pc) : State :=
  { s with pc := Function.update s.pc i p }

/-- `fetch_add(1)` and `fetch_sub(1)` on `active_workers_num_`, then on to `p`. -/
def fetchAdd (s : State) (i : ℕ) (p : Pc) : State :=
  { s.setPc i p with activeWorkersNum := s.activeWorkersNum + 1 }

def fetchSub (s : State) (i : ℕ) (p : Pc) : State :=
  { s.setPc i p with activeWorkersNum := s.activeWorkersNum - 1 }

/-- `TryProcessOne` on the queue of worker `q`: run a job, or go on with `p`. -/
def takeJob (s : State) (i q : ℕ) (p : Pc) : State :=
  if 0 < s.jobQueue q then
    { s.setPc i .processing with jobQueue := Function.update s.jobQueue q (s.jobQueue q - 1) }
  else s.setPc i p

end State

def Enabled (s : State) : Action → Prop
  | .createWorker => s.created < s.config.threadNum
  | .setReadyForStealing ready => ready = true → s.created = s.config.threadNum
  | .start i _ => s.pc i = .start
  | .test i => s.pc i = .test
  | .tryProcessOne i => s.pc i = .tryProcessOne
  | .steal i idx => s.pc i = .steal ∧ idx ≤ s.config.threadNum
  | .scan i idx tried => s.pc i = .scan idx tried
  | .finishJob i => s.pc i = .processing
  | .checkTime i _ _ => s.pc i = .foundNothing
  | .deactivate i => s.pc i = .deactivate
  | .lock i => s.pc i = .lock ∧ s.cvMutex i = none
  | .testShutdown i => s.pc i = .testShutdown
  | .wakeUp i => s.pc i = .wait
  | .relock i => s.pc i = .relock ∧ s.cvMutex i = none
  | .activate i => s.pc i = .activate
  | .unlock i => s.pc i = .unlock
  | .breakLoop i => s.pc i = .breakLoop
  | .leave i byBreak => s.pc i = .leave byBreak
  | .storeStopped i => s.pc i = .storeStopped
  | .addJob i => i < s.created
  | .stopLock i => i < s.created ∧ s.cvMutex i = none
  | .stopExchange i => s.cvMutex i = some (.stop false)
  | .stopUnlock i => s.cvMutex i = some (.stop true)
  | .join i => s.pc i = .exited

instance (s : State) : (e : Action) → Decidable (Enabled s e)
  | .createWorker | .addJob _ => inferInstanceAs (Decidable (_ < _))
  | .setReadyForStealing _ => inferInstanceAs (Decidable (_ → _))
  | .steal _ _ | .lock _ | .relock _ | .stopLock _ => inferInstanceAs (Decidable (_ ∧ _))
  | .scan _ _ _ | .unlock _ | .breakLoop _ | .leave _ _
  | .start _ _ | .test _ | .tryProcessOne _ | .finishJob _ | .checkTime _ _ _ | .deactivate _
  | .testShutdown _ | .wakeUp _ | .activate _ | .storeStopped _ | .stopExchange _
  | .stopUnlock _ | .join _ => inferInstanceAs (Decidable (_ = _))

def next (s : State) : Action → State
  | .createWorker => { s.setPc s.created .start with created := s.created + 1 }
  | .setReadyForStealing ready => { s with readyForStealing := ready }
  | .start i now =>
    { s.fetchAdd i .test with
      lastActiveTimestamp := Function.update s.lastActiveTimestamp i now }
  | .test i => s.setPc i (if s.shutdown i then .leave false else .tryProcessOne)
  | .tryProcessOne i => s.takeJob i i .steal
  | .steal i idx => s.setPc i (if s.readyForStealing then .scan idx 0 else .foundNothing)
  | .scan i idx tried =>
    if tried < s.config.threadNum then
      let idx := if s.config.threadNum ≤ idx then idx - s.config.threadNum else idx
      s.takeJob i idx (.scan (idx + 1) (tried + 1))
    else s.setPc i .foundNothing
  | .finishJob i =>
    { s.setPc i .test with hasPendingJobs := Function.update s.hasPendingJobs i true }
  | .checkTime i now now' =>
    if i < s.config.alwaysActiveThreadNum then s.setPc i .test
    else
      let lastActive := if s.hasPendingJobs i then now else s.lastActiveTimestamp i
      { s.setPc i (if now' < lastActive + s.config.activeTime then .test else .deactivate) with
        lastActiveTimestamp := Function.update s.lastActiveTimestamp i lastActive
        hasPendingJobs := Function.update s.hasPendingJobs i false }
  | .deactivate i => s.fetchSub i .lock
  | .lock i =>
    { s.setPc i .testShutdown with cvMutex := Function.update s.cvMutex i (some .worker) }
  | .testShutdown i =>
    if s.shutdown i then s.setPc i .breakLoop
    else { s.setPc i .wait with cvMutex := Function.update s.cvMutex i none }
  | .wakeUp i => s.setPc i .relock
  | .relock i =>
    { s.setPc i .activate with cvMutex := Function.update s.cvMutex i (some .worker) }
  | .activate i => s.fetchAdd i .unlock
  | .unlock i => { s.setPc i .test with cvMutex := Function.update s.cvMutex i none }
  | .breakLoop i => { s.setPc i (.leave true) with cvMutex := Function.update s.cvMutex i none }
  | .leave i _ => s.fetchSub i .storeStopped
  | .storeStopped i =>
    { s.setPc i .exited with stopped := Function.update s.stopped i true }
  | .addJob i => { s with jobQueue := Function.update s.jobQueue i (s.jobQueue i + 1) }
  | .stopLock i => { s with cvMutex := Function.update s.cvMutex i (some (.stop false)) }
  | .stopExchange i =>
    { s with
      shutdown := Function.update s.shutdown i true
      cvMutex := Function.update s.cvMutex i (some (.stop true)) }
  | .stopUnlock i => { s with cvMutex := Function.update s.cvMutex i none }
  | .join i => { s with joined := Function.update s.joined i true }

def system : TransitionSystem State Action where
  init s := ∃ config, s = initial config
  step s e := if Enabled s e then some (next s e) else none

theorem step_eq_some {s t : State} {e : Action} :
    system.step s e = some t ↔ Enabled s e ∧ next s e = t := by
  change (if Enabled s e then some (next s e) else none) = some t ↔ _
  split_ifs with h <;> simp [h]

/-- The workers that are in their active phase. -/
def activeWorkers (s : State) : Finset ℕ :=
  (Finset.range s.config.threadNum).filter fun i => (s.pc i).active = true

/-- `active_workers_num_` counts them; so it stays within `ThreadNum()` and ends at zero. -/
structure CounterExact (s : State) : Prop where
  exact_ : s.activeWorkersNum.toNat = (activeWorkers s).card
  le_threadNum : s.activeWorkersNum.toNat ≤ s.config.threadNum
  of_joined : (∀ i, i < s.config.threadNum → s.joined i = true) → s.activeWorkersNum = 0

/-- Workers run once created, and a joined one has exited. -/
structure Inv (s : State) : Prop where
  created_le : s.created ≤ s.config.threadNum
  created : ∀ i, s.pc i ≠ .notCreated → i < s.created
  joined : ∀ i, s.joined i = true → s.pc i = .exited

section Steps
variable {s t : State} {e : Action} {i : ℕ} {p : Pc}

theorem setPc_active (h : p.active = (s.pc i).active) (j : ℕ) :
    ((s.setPc i p).pc j).active = (s.pc j).active := by
  simp only [State.setPc, Function.update_apply]
  split_ifs with hj
  · rw [h, hj]
  · rfl

/-- What a step may do to the counter and to the phases of the workers. -/
inductive CounterStep (s : State) (e : Action) (t : State) : Prop
  | quiet (hn : t.activeWorkersNum = s.activeWorkersNum)
      (hp : ∀ j, (t.pc j).active = (s.pc j).active)
  | enter (i : ℕ) (hi : s.pc i ≠ .notCreated) (hs : (s.pc i).active = false)
      (ht : (t.pc i).active = true) (hp : ∀ j, j ≠ i → t.pc j = s.pc j)
      (hn : t.activeWorkersNum = s.activeWorkersNum + 1)
  | leave (i : ℕ) (hs : (s.pc i).active = true) (ht : (t.pc i).active = false)
      (hp : ∀ j, j ≠ i → t.pc j = s.pc j) (hn : t.activeWorkersNum = s.activeWorkersNum - 1)
  /-- The worker took itself off before the break. -/
  | leaveTwice (i : ℕ) (he : e = .leave i true)
      (hp : ∀ j, (t.pc j).active = (s.pc j).active)
      (hn : t.activeWorkersNum = s.activeWorkersNum - 1)

theorem counterStep_setPc (h : p.active = (s.pc i).active) : CounterStep s e (s.setPc i p) :=
  .quiet rfl (setPc_active h)

theorem counterStep_takeJob {q : ℕ} (hs : (s.pc i).active = true) (hp : p.active = true) :
    CounterStep s e (s.takeJob i q p) := by
  unfold State.takeJob
  split_ifs
  · exact .quiet rfl (setPc_active (s := s) (p := .processing) (hs ▸ rfl))
  · exact counterStep_setPc (hp.trans hs.symm)

theorem pc_setPc_of_ne (j : ℕ) (hj : j ≠ i) : (s.setPc i p).pc j = s.pc j := by
  simp [State.setPc, hj]

theorem pc_setPc_self : (s.setPc i p).pc i = p := by
  simp [State.setPc]

theorem counterStep_fetchAdd (hi : s.pc i ≠ .notCreated) (hs : (s.pc i).active = false)
    (hp : p.active = true) : CounterStep s e (s.fetchAdd i p) :=
  .enter i hi hs (by rw [State.fetchAdd, pc_setPc_self]; exact hp) pc_setPc_of_ne rfl

theorem counterStep_fetchSub (hs : (s.pc i).active = true) (hp : p.active = false) :
    CounterStep s e (s.fetchSub i p) :=
  .leave i hs (by rw [State.fetchSub, pc_setPc_self]; exact hp) pc_setPc_of_ne rfl

theorem counterStep_next (he : Enabled s e) (h : Inv s) : CounterStep s e (next s e) := by
  cases e <;> simp only [Enabled] at he
  case createWorker =>
    have hpc : s.pc s.created = .notCreated := by
      by_contra hne
      exact Nat.lt_irrefl _ (h.created _ hne)
    exact .quiet rfl (setPc_active (s := s) (p := .start) (by rw [hpc]; rfl))
  case start i now =>
    have ht : (s.setPc i .test).pc i = .test := pc_setPc_self
    exact .enter i (by simp [he]) (by rw [he]; rfl) (congrArg Pc.active ht) pc_setPc_of_ne rfl
  case test i =>
    apply counterStep_setPc
    rw [he]
    split_ifs <;> rfl
  case tryProcessOne i => exact counterStep_takeJob (by rw [he]; rfl) rfl
  case steal i idx =>
    apply counterStep_setPc
    rw [he.1]
    split_ifs <;> rfl
  case scan i idx tried =>
    simp only [next]
    split_ifs
    · exact counterStep_takeJob (by rw [he]; rfl) rfl
    · exact counterStep_takeJob (by rw [he]; rfl) rfl
    · exact counterStep_setPc (by rw [he]; rfl)
  case checkTime i now now' =>
    simp only [next]
    split_ifs
    · exact counterStep_setPc (by rw [he]; rfl)
    -- to go on or to deactivate does not change the counter yet
    all_goals exact .quiet rfl (setPc_active (s := s) (by rw [he]; rfl))
  case deactivate i => exact counterStep_fetchSub (by rw [he]; rfl) rfl
  case testShutdown i =>
    simp only [next]
    split_ifs
    · exact counterStep_setPc (by rw [he]; rfl)
    · exact .quiet rfl (setPc_active (s := s) (by rw [he]; rfl))
  case lock i | relock i => exact .quiet rfl (setPc_active (s := s) (by rw [he.1]; rfl))
  case wakeUp i => exact counterStep_setPc (by rw [he]; rfl)
  case activate i => exact counterStep_fetchAdd (by simp [he]) (by rw [he]; rfl) rfl
  case finishJob i | unlock i | breakLoop i | storeStopped i =>
    exact .quiet rfl (setPc_active (s := s) (by rw [he]; rfl))
  case leave i byBreak =>
    cases byBreak with
    | false => exact counterStep_fetchSub (by rw [he]; rfl) rfl
    | true =>
      -- the worker left the count before it waited, and is subtracted once more
      exact .leaveTwice i rfl (setPc_active (s := s) (by rw [he]; rfl)) rfl
  case setReadyForStealing | addJob | stopLock | stopExchange | stopUnlock | join =>
    exact .quiet rfl fun _ => rfl

theorem config_next (s : State) (e : Action) : (next s e).config = s.config := by
  cases e <;> simp only [next, State.takeJob] <;> (repeat' split) <;> rfl

theorem created_next (s : State) (e : Action) :
    (next s e).created = if e = .createWorker then s.created + 1 else s.created := by
  cases e <;> simp only [next, State.takeJob] <;> (repeat' split) <;>
    first
    | rfl
    | contradiction

/-- A program counter that changes is that of the worker the action names. -/
theorem pc_next (he : Enabled s e) (j : ℕ) :
    (next s e).pc j = s.pc j ∨ (s.pc j ≠ .exited ∧ s.pc j ≠ .notCreated) ∨
      (e = .createWorker ∧ j = s.created) := by
  have hset (i : ℕ) (p : Pc) (hi : s.pc i ≠ .exited ∧ s.pc i ≠ .notCreated) :
      (s.setPc i p).pc j = s.pc j ∨ (s.pc j ≠ .exited ∧ s.pc j ≠ .notCreated) := by
    by_cases hj : j = i
    · exact Or.inr (hj ▸ hi)
    · exact Or.inl (pc_setPc_of_ne j hj)
  cases e <;> simp only [Enabled] at he
  case createWorker =>
    by_cases hj : j = s.created
    · exact Or.inr (Or.inr ⟨rfl, hj⟩)
    · exact Or.inl (pc_setPc_of_ne j hj)
  case tryProcessOne i =>
    simp only [next, State.takeJob]
    split_ifs <;> exact (hset i _ (by simp [he])).imp_right Or.inl
  case scan i idx tried =>
    simp only [next, State.takeJob]
    split_ifs <;> exact (hset i _ (by simp [he])).imp_right Or.inl
  case checkTime i now now' =>
    simp only [next]
    split_ifs <;> exact (hset i _ (by simp [he])).imp_right Or.inl
  case testShutdown i =>
    simp only [next]
    split_ifs <;> exact (hset i _ (by simp [he])).imp_right Or.inl
  case setReadyForStealing | addJob | stopLock | stopExchange | stopUnlock | join =>
    exact Or.inl rfl
  all_goals exact (hset _ _ (by simp [he])).imp_right Or.inl

theorem joined_next (he : Enabled s e) {j : ℕ} (hj : (next s e).joined j = true) :
    s.joined j = true ∨ s.pc j = .exited := by
  cases e
  case join i =>
    by_cases hji : j = i
    · subst hji
      exact Or.inr he
    · left
      simpa [next, hji] using hj
  all_goals
    left
    simp only [next, State.takeJob] at hj
    (repeat' split at hj) <;> exact hj

theorem inv_initial (config : Config) : Inv (initial config) :=
  ⟨Nat.zero_le _, fun _ hi => absurd rfl hi, fun _ hi => nomatch hi⟩

theorem inv_step (he : Enabled s e) (h : Inv s) : Inv (next s e) := by
  have hle : s.created ≤ (next s e).created := by
    rw [created_next]
    split_ifs <;> omega
  refine ⟨?_, fun j hj => ?_, fun j hj => ?_⟩
  · rw [created_next, config_next]
    split_ifs with hc
    · subst hc
      exact he
    · exact h.created_le
  · rcases pc_next he j with hp | ⟨-, hp⟩ | ⟨hc, hp⟩
    · rw [hp] at hj
      exact (h.created j hj).trans_le hle
    · exact (h.created j hp).trans_le hle
    · rw [created_next, if_pos hc, hp]
      exact Nat.lt_succ_self _
  · have hex : s.pc j = .exited := (joined_next he hj).elim (h.joined j) id
    rcases pc_next he j with hp | ⟨hp, -⟩ | ⟨-, hp⟩
    · rw [hp, hex]
    · exact absurd hex hp
    · exact absurd (h.created j (by simp [hex])) (by omega)

end Steps

section Counting
variable {s t : State} {i : ℕ}

theorem mem_activeWorkers {j : ℕ} :
    j ∈ activeWorkers s ↔ j < s.config.threadNum ∧ (s.pc j).active = true := by
  simp [activeWorkers]

theorem activeWorkers_congr (hc : t.config = s.config)
    (hp : ∀ j, (t.pc j).active = (s.pc j).active) : activeWorkers t = activeWorkers s := by
  ext j
  rw [mem_activeWorkers, mem_activeWorkers, hc, hp]

theorem card_enter (hc : t.config = s.config) (hi : i < s.config.threadNum)
    (hs : (s.pc i).active = false) (ht : (t.pc i).active = true)
    (hp : ∀ j, j ≠ i → t.pc j = s.pc j) :
    (activeWorkers t).card = (activeWorkers s).card + 1 := by
  have hnot : i ∉ activeWorkers s := by simp [mem_activeWorkers, hs]
  have hins : activeWorkers t = insert i (activeWorkers s) := by
    ext j
    rw [Finset.mem_insert, mem_activeWorkers, mem_activeWorkers, hc]
    by_cases hj : j = i
    · simp [hj, hi, ht]
    · simp [hj, hp j hj]
  rw [hins, Finset.card_insert_of_notMem hnot]

theorem card_leave (hc : t.config = s.config) (hi : i < s.config.threadNum)
    (hs : (s.pc i).active = true) (ht : (t.pc i).active = false)
    (hp : ∀ j, j ≠ i → t.pc j = s.pc j) :
    (activeWorkers s).card = (activeWorkers t).card + 1 :=
  card_enter hc.symm (hc ▸ hi) ht hs fun j hj => (hp j hj).symm

theorem card_le_threadNum (s : State) : (activeWorkers s).card ≤ s.config.threadNum := by
  calc (activeWorkers s).card ≤ (Finset.range s.config.threadNum).card :=
        Finset.card_filter_le _ _
    _ = s.config.threadNum := Finset.card_range _

/-- The bounds follow from the count. -/
theorem counterExact_iff (h : Inv s) :
    CounterExact s ↔ s.activeWorkersNum.toNat = (activeWorkers s).card := by
  refine ⟨fun hc => hc.exact_, fun hc => ⟨hc, hc ▸ card_le_threadNum s, fun hj => ?_⟩⟩
  have hnone : activeWorkers s = ∅ := by
    ext i
    rw [mem_activeWorkers]
    refine iff_of_false (fun ⟨hi, ha⟩ => ?_) (Finset.notMem_empty i)
    rw [h.joined i (hj i hi)] at ha
    cases ha
  apply BitVec.eq_of_toNat_eq
  rw [hc, hnone]
  rfl

/-- One step keeps the count unless it takes a worker off for the second time. -/
theorem counterExact_step {e : Action} (he : Enabled s e) (h : Inv s) (hc : CounterExact s) :
    CounterExact (next s e) ↔ ∀ i, e ≠ .leave i true := by
  have hnum := hc.exact_
  have hlt : (activeWorkers s).card < 2 ^ 64 :=
    (card_le_threadNum s).trans_lt s.config.threadNum_lt
  rw [counterExact_iff (inv_step he h)]
  have hconfig := config_next s e
  by_cases htwice : ∃ i, e = .leave i true
  · obtain ⟨i, rfl⟩ := htwice
    refine iff_of_false (fun hn => ?_) (fun hall => hall i rfl)
    have hsame : activeWorkers (next s (.leave i true)) = activeWorkers s :=
      activeWorkers_congr rfl (setPc_active (s := s) (by rw [he]; rfl))
    rw [hsame, ← hnum] at hn
    have hsub : s.activeWorkersNum - 1 = s.activeWorkersNum := BitVec.eq_of_toNat_eq hn
    bv_omega
  · have hall : ∀ i, e ≠ .leave i true := fun i hi => htwice ⟨i, hi⟩
    refine iff_of_true ?_ hall
    cases counterStep_next he h with
    | quiet hn hp => rw [hn, activeWorkers_congr hconfig hp, hnum]
    | enter i hi hs ht hp hn =>
      have hi' := (h.created i hi).trans_le h.created_le
      have hcard := card_enter hconfig hi' hs ht hp
      have hroom := card_le_threadNum (next s e)
      have hbound := s.config.threadNum_lt
      rw [hconfig] at hroom
      rw [hn, hcard]
      bv_omega
    | leave i hs ht hp hn =>
      have hi' := (h.created i (by intro hp; simp [hp, Pc.active] at hs)).trans_le h.created_le
      have hcard := card_leave hconfig hi' hs ht hp
      rw [hn]
      bv_omega
    | leaveTwice i hi => exact absurd hi (hall i)

end Counting

/-- The second `fetch_sub` of a worker that left the loop by the `break`: it had already taken
itself off when it found `shutdown_flag_` set. -/
def Action.leavesAfterBreak : Action → Bool
  | .leave _ byBreak => byBreak
  | _ => false

theorem leavesAfterBreak_iff (e : Action) :
    e.leavesAfterBreak = false ↔ ∀ i, e ≠ .leave i true := by
  cases e with
  | leave i byBreak => cases byBreak <;> simp [Action.leavesAfterBreak]
  | _ => simp [Action.leavesAfterBreak]

/-- The counter is exact in every state of a run exactly when no worker leaves by the `break`. -/
theorem active_workers_counter_exact {config : Config} {as : List Action} {t : State}
    (h : system.exec (initial config) as = some t) :
    system.StatesMeet CounterExact (initial config) as ↔
      system.StepsMeet (fun _ e => e.leavesAfterBreak = false) (initial config) as := by
  refine TransitionSystem.statesMeet_iff_stepsMeet (I := Inv) ?_ ?_ (inv_initial config) ?_ h
  · intro u e v hu hv
    obtain ⟨he, rfl⟩ := step_eq_some.mp hv
    exact inv_step he hu
  · intro u e v hu hc hv
    obtain ⟨he, rfl⟩ := step_eq_some.mp hv
    rw [counterExact_step he hu hc]
    exact (leavesAfterBreak_iff e).symm
  · have hnone : activeWorkers (initial config) = ∅ := by
      ext i
      simp [mem_activeWorkers, initial, Pc.active]
    rw [counterExact_iff (inv_initial config), hnone]
    rfl

/-- One worker, no time to stay active. -/
def oneWorker : Config :=
  ⟨1, 0, 0, by decide⟩

/-- The worker starts, finds no job, goes inactive and waits, is woken up and told to stop. -/
def stopWhileActiveRun : List Action :=
  [.createWorker, .setReadyForStealing true, .start 0 5, .test 0, .tryProcessOne 0, .steal 0 0,
    .scan 0 0 0, .scan 0 1 1, .checkTime 0 6 7, .deactivate 0, .lock 0, .testShutdown 0, .addJob 0,
    .wakeUp 0, .relock 0, .activate 0, .unlock 0, .stopLock 0, .stopExchange 0, .stopUnlock 0,
    .test 0, .leave 0 false, .storeStopped 0, .join 0]

theorem active_workers_counter_exact_stopWhileActiveRun :
    system.StatesMeet CounterExact (initial oneWorker) stopWhileActiveRun :=
  (active_workers_counter_exact (system.exec_after (by decide))).mpr (by decide)

/-- The worker is told to stop after it has gone inactive and before it waits. -/
def stopWhileGoingInactiveRun : List Action :=
  [.createWorker, .setReadyForStealing true, .start 0 5, .test 0, .tryProcessOne 0, .steal 0 0,
    .scan 0 0 0, .scan 0 1 1, .checkTime 0 6 7, .deactivate 0, .stopLock 0, .stopExchange 0,
    .stopUnlock 0, .lock 0, .testShutdown 0, .breakLoop 0, .leave 0 true, .storeStopped 0, .join 0]

/-- All workers are joined, and `ActiveThreadNum()` answers 2^64 - 1. -/
theorem counter_wraps_below_zero :
    ¬ system.StatesMeet CounterExact (initial oneWorker) stopWhileGoingInactiveRun ∧
      (system.after (initial oneWorker) stopWhileGoingInactiveRun).joined 0 = true ∧
      (system.after (initial oneWorker) stopWhileGoingInactiveRun).activeWorkersNum =
        BitVec.ofNat 64 (2 ^ 64 - 1) := by
  refine ⟨fun h => ?_, by decide, by decide⟩
  have hlast := h.last (system.exec_after (by decide))
  exact absurd hlast.le_threadNum (by decide)

end CrisCore.WorkerLoop
