import CrisCore.WorkerWakeUp

/-! `Stop` of a worker beside the steps of its `WorkerLoop`. Here the worker looks at
`shutdown_flag_` under the mutex and begins to wait in two steps, and `Stop` notifies only when it has
set the flag itself. -/
namespace CrisCore.WorkerStop
open WorkerLoop (Config Pc)
open WorkerWakeUp (Turn pc_next pc_setPc holdsMutex)

structure State where
  runner : WorkerLoop.State
  /-- The worker found the flag clear under the mutex and has not begun to wait. -/
  foundClear : ℕ → Bool
  /-- A worker in `wait_for` has been notified and has not gone on. -/
  notified : ℕ → Bool
  /-- The `Stop` that holds the mutex has set the flag and has not notified. -/
  notifyDue : ℕ → Bool
  /-- History: a call of `Stop` has returned. -/
  stopReturned : ℕ → Bool

def initial (config : Config) : State where
  runner := WorkerLoop.initial config
  foundClear := fun _ => false
  notified := fun _ => false
  notifyDue := fun _ => false
  stopReturned := fun _ => false

/-- `notifyOne` comes from a call that adds jobs. -/
inductive Action
  | runner (e : WorkerLoop.Action)
  | beginWait (i : ℕ)
  | notifyAll (i : ℕ)
  | notifyOne (i : ℕ)
  deriving DecidableEq

namespace State

/-- A notification does nothing when the worker does not wait. -/
def notify (s : State) (i : ℕ) : State :=
  if s.runner.pc i = .wait then { s with notified := Function.update s.notified i true } else s

def runnerStep (s : State) : WorkerLoop.Action → Option State
  | .testShutdown i =>
    if s.foundClear i then none
    else if s.runner.shutdown i then
      some { s with runner := WorkerLoop.next s.runner (.testShutdown i) }
    else some { s with foundClear := Function.update s.foundClear i true }
  | .wakeUp i => some { s with
      runner := WorkerLoop.next s.runner (.wakeUp i)
      notified := Function.update s.notified i false }
  | .stopExchange i => some { s with
      runner := WorkerLoop.next s.runner (.stopExchange i)
      notifyDue := Function.update s.notifyDue i (!s.runner.shutdown i) }
  | .stopUnlock i =>
    if s.notifyDue i then none
    else some { s with
      runner := WorkerLoop.next s.runner (.stopUnlock i)
      stopReturned := Function.update s.stopReturned i true }
  | e => some { s with runner := WorkerLoop.next s.runner e }

def next (s : State) : Action → Option State
  | .runner e => if WorkerLoop.Enabled s.runner e then s.runnerStep e else none
  | .beginWait i =>
    if s.foundClear i then some { s with
      runner := { s.runner.setPc i .wait with cvMutex := Function.update s.runner.cvMutex i none }
      foundClear := Function.update s.foundClear i false }
    else none
  | .notifyAll i =>
    if s.notifyDue i then some { s.notify i with notifyDue := Function.update s.notifyDue i false }
    else none
  | .notifyOne i => if i < s.runner.created then some (s.notify i) else none

end State

def system : TransitionSystem State Action where
  init s := ∃ config, s = initial config
  step := State.next

theorem init_initial (config : Config) : system.init (initial config) := ⟨config, rfl⟩

/-- Blocked on `inactive_cv_`, with no notification pending. -/
def State.Blocked (s : State) (i : ℕ) : Prop :=
  s.runner.pc i = .wait ∧ s.notified i = false

instance (s : State) (i : ℕ) : Decidable (s.Blocked i) := inferInstanceAs (Decidable (_ ∧ _))

section RunnerSteps
variable {r : WorkerLoop.State} {e : WorkerLoop.Action} {i : ℕ}

/-- The steps that take or release the mutex of a worker. -/
def mutexSteps (i : ℕ) : List WorkerLoop.Action :=
  [.lock i, .testShutdown i, .relock i, .unlock i, .breakLoop i, .stopLock i, .stopExchange i,
    .stopUnlock i]

theorem mem_mutexSteps : e ∈ mutexSteps i ↔ e = .lock i ∨ e = .testShutdown i ∨ e = .relock i ∨
    e = .unlock i ∨ e = .breakLoop i ∨ e = .stopLock i ∨ e = .stopExchange i ∨
    e = .stopUnlock i := by
  simp only [mutexSteps, List.mem_cons, List.not_mem_nil, or_false]

theorem cvMutex_frame (he : e ∉ mutexSteps i) : (WorkerLoop.next r e).cvMutex i = r.cvMutex i := by
  have hother {j : ℕ} {f : ℕ → WorkerLoop.Action} (he : f j ∉ mutexSteps i) (hf : f i ∈ mutexSteps i)
      (holder : Option WorkerLoop.Holder) :
      Function.update r.cvMutex j holder i = r.cvMutex i := by
    refine Function.update_of_ne (fun hij => he ?_) ..
    rw [← hij]
    exact hf
  cases e with
  | lock j | relock j | unlock j | breakLoop j | stopLock j | stopExchange j | stopUnlock j =>
    exact hother he (by simp [mutexSteps]) _
  | testShutdown j =>
    simp only [WorkerLoop.next]
    split
    · rfl
    · exact hother he (by simp [mutexSteps]) _
  | tryProcessOne j =>
    simp only [WorkerLoop.next, WorkerLoop.State.takeJob]
    split <;> rfl
  | scan j idx tried =>
    simp only [WorkerLoop.next, WorkerLoop.State.takeJob]
    (repeat' split) <;> rfl
  | checkTime j now now' =>
    simp only [WorkerLoop.next]
    split <;> rfl
  | _ => rfl

theorem shutdown_next :
    (WorkerLoop.next r e).shutdown i = true ↔ r.shutdown i = true ∨ e = .stopExchange i := by
  cases e with
  | stopExchange j =>
    simp only [WorkerLoop.next, Function.update_apply]
    by_cases hij : i = j
    · simp [hij]
    · simp [hij, Ne.symm hij]
  | tryProcessOne j =>
    simp only [WorkerLoop.next, WorkerLoop.State.takeJob]
    split <;> simp [WorkerLoop.State.setPc]
  | scan j idx tried =>
    simp only [WorkerLoop.next, WorkerLoop.State.takeJob]
    (repeat' split) <;> simp [WorkerLoop.State.setPc]
  | checkTime j now now' =>
    simp only [WorkerLoop.next]
    split <;> simp [WorkerLoop.State.setPc]
  | testShutdown j =>
    simp only [WorkerLoop.next]
    split <;> simp [WorkerLoop.State.setPc]
  | _ => simp [WorkerLoop.next, WorkerLoop.State.setPc, WorkerLoop.State.fetchAdd,
      WorkerLoop.State.fetchSub]

/-- The worker has the mutex wherever it should. -/
theorem cvMutex_worker (he : WorkerLoop.Enabled r e)
    (h : holdsMutex (r.pc i) = true → r.cvMutex i = some .worker)
    (hp : holdsMutex ((WorkerLoop.next r e).pc i) = true) :
    (WorkerLoop.next r e).cvMutex i = some .worker := by
  by_cases hmem : e ∈ mutexSteps i
  · rcases mem_mutexSteps.mp hmem with rfl | rfl | rfl | rfl | rfl | rfl | rfl | rfl
    · exact Function.update_self ..
    · -- the worker keeps the mutex on its way out of the loop
      have hworker := h (by rw [he]; rfl)
      simp only [WorkerLoop.next] at hp ⊢
      split at hp
      · next hs =>
        rw [if_pos hs]
        exact hworker
      · rw [pc_setPc, if_pos rfl] at hp
        cases hp
    · exact Function.update_self ..
    · rw [WorkerLoop.next, pc_setPc, if_pos rfl] at hp
      cases hp
    · rw [WorkerLoop.next, pc_setPc, if_pos rfl] at hp
      cases hp
    -- a `Stop` has no business while the worker has the mutex
    · exact absurd (he.2.symm.trans (h hp)) (by decide)
    · exact absurd (he.symm.trans (h hp)) (by decide)
    · exact absurd (he.symm.trans (h hp)) (by decide)
  · rw [cvMutex_frame hmem]
    apply h
    rcases pc_next r e i with hsame | hturn
    · rw [hsame] at hp
      exact hp
    · generalize (WorkerLoop.next r e).pc i = p at hp hturn
      cases hturn with
      | activate => rw [he]; rfl
      | lock | relock | testShutdown => simp [mutexSteps] at hmem
      | test hp' | steal idx hp' | checkTime now now' hp' => rcases hp' with rfl | rfl <;> cases hp
      | scan hp' => rcases hp' with rfl | ⟨idx', rfl⟩ | rfl <;> cases hp
      | _ => cases hp

/-- A worker begins to wait only after it has found the flag clear. -/
theorem wait_of_next (hp : (WorkerLoop.next r e).pc i = .wait) :
    r.pc i = .wait ∨ (e = .testShutdown i ∧ r.shutdown i = false) := by
  rcases pc_next r e i with hsame | hturn
  · rw [hsame] at hp
    exact .inl hp
  · right
    by_cases he : e = .testShutdown i
    · subst he
      refine ⟨rfl, ?_⟩
      by_contra hs
      rw [Bool.not_eq_false] at hs
      rw [WorkerLoop.next, if_pos hs, pc_setPc, if_pos rfl] at hp
      cases hp
    · generalize (WorkerLoop.next r e).pc i = p at hp hturn
      subst hp
      cases hturn with
      | testShutdown => exact absurd rfl he
      | test hp' | steal idx hp' | checkTime now now' hp' => rcases hp' with hp' | hp' <;> cases hp'
      | scan hp' => rcases hp' with hp' | ⟨idx', hp'⟩ | hp' <;> cases hp'

/-- A worker that looks at the flag goes on only by its own step. -/
theorem testShutdown_next (hr : WorkerLoop.Inv r) (he : WorkerLoop.Enabled r e)
    (hp : r.pc i = .testShutdown) (hne : e ≠ .testShutdown i) :
    (WorkerLoop.next r e).pc i = .testShutdown := by
  rcases pc_next r e i with hsame | hturn
  · rw [hsame, hp]
  · generalize (WorkerLoop.next r e).pc i = p at hturn
    have hcreated : i < r.created := hr.created i (by simp [hp])
    cases hturn with
    | createWorker hi => omega
    | testShutdown => exact absurd rfl hne
    | steal | lock | relock => exact nomatch hp.symm.trans he.1
    | _ => exact nomatch hp.symm.trans he

/-- A `Stop` that is behind its compare-and-exchange finds the flag set. -/
theorem exchanged_next (h : r.cvMutex i = some (.stop true) → r.shutdown i = true)
    (hp : (WorkerLoop.next r e).cvMutex i = some (.stop true)) :
    (WorkerLoop.next r e).shutdown i = true := by
  apply shutdown_next.mpr
  by_cases hmem : e ∈ mutexSteps i
  · rcases mem_mutexSteps.mp hmem with rfl | rfl | rfl | rfl | rfl | rfl | rfl | rfl
    case inr.inr.inr.inr.inr.inr.inl => exact .inr rfl
    case inr.inl =>
      -- the look at the flag keeps the mutex or gives it to the wait
      simp only [WorkerLoop.next] at hp
      split at hp
      · exact .inl (h hp)
      · simp at hp
    -- the others leave the mutex free or with someone else
    all_goals simp [WorkerLoop.next] at hp
  · rw [cvMutex_frame hmem] at hp
    exact .inl (h hp)

theorem created_le_next : r.created ≤ (WorkerLoop.next r e).created := by
  rw [WorkerLoop.created_next]
  split_ifs
  · exact Nat.le_succ _
  · exact Nat.le_refl _

/-- Only the mutex of a worker that there is gets locked. -/
theorem cvMutex_created (hr : WorkerLoop.Inv r) (he : WorkerLoop.Enabled r e)
    (h : r.cvMutex i ≠ none → i < r.created) (hp : (WorkerLoop.next r e).cvMutex i ≠ none) :
    i < (WorkerLoop.next r e).created := by
  refine Nat.lt_of_lt_of_le ?_ created_le_next
  by_cases hmem : e ∈ mutexSteps i
  · have hat {p : Pc} (hpc : r.pc i = p) (hne : p ≠ .notCreated) : i < r.created :=
      hr.created i (hpc ▸ hne)
    rcases mem_mutexSteps.mp hmem with rfl | rfl | rfl | rfl | rfl | rfl | rfl | rfl
    · exact hat he.1 nofun
    · exact hat he nofun
    · exact hat he.1 nofun
    · exact hat he nofun
    · exact hat he nofun
    · exact he.1
    · exact h fun hnone => nomatch he.symm.trans hnone
    · exact h fun hnone => nomatch he.symm.trans hnone
  · rw [cvMutex_frame hmem] at hp
    exact h hp

end RunnerSteps

/-- The steps of the runner that do nothing else here. -/
def Plain (s : State) : WorkerLoop.Action → Prop
  | .testShutdown i => s.foundClear i = false ∧ s.runner.shutdown i = true
  | .wakeUp _ | .stopExchange _ | .stopUnlock _ => False
  | _ => True

/-- All that a step does. -/
inductive Step (s : State) : Action → State → Prop
  | plain {e : WorkerLoop.Action} (he : WorkerLoop.Enabled s.runner e) (hplain : Plain s e) :
      Step s (.runner e) { s with runner := WorkerLoop.next s.runner e }
  | findClear {i : ℕ} (hpc : s.runner.pc i = .testShutdown) (hs : s.runner.shutdown i = false) :
      Step s (.runner (.testShutdown i)) { s with foundClear := Function.update s.foundClear i true }
  | wakeUp {i : ℕ} (hpc : s.runner.pc i = .wait) :
      Step s (.runner (.wakeUp i)) { s with
        runner := WorkerLoop.next s.runner (.wakeUp i)
        notified := Function.update s.notified i false }
  | stopExchange {i : ℕ} (hmutex : s.runner.cvMutex i = some (.stop false)) :
      Step s (.runner (.stopExchange i)) { s with
        runner := WorkerLoop.next s.runner (.stopExchange i)
        notifyDue := Function.update s.notifyDue i (!s.runner.shutdown i) }
  | stopUnlock {i : ℕ} (hmutex : s.runner.cvMutex i = some (.stop true))
      (hdue : s.notifyDue i = false) :
      Step s (.runner (.stopUnlock i)) { s with
        runner := WorkerLoop.next s.runner (.stopUnlock i)
        stopReturned := Function.update s.stopReturned i true }
  | beginWait {i : ℕ} (hclear : s.foundClear i = true) :
      Step s (.beginWait i) { s with
        runner := { s.runner.setPc i .wait with
          cvMutex := Function.update s.runner.cvMutex i none }
        foundClear := Function.update s.foundClear i false }
  | notifyAll {i : ℕ} (hdue : s.notifyDue i = true) :
      Step s (.notifyAll i)
        { s.notify i with notifyDue := Function.update s.notifyDue i false }
  | notifyOne {i : ℕ} : Step s (.notifyOne i) (s.notify i)

theorem step_of_next {s s' : State} {a : Action} (hs : s.next a = some s') : Step s a s' := by
  cases a with
  | runner e =>
    simp only [State.next] at hs
    split_ifs at hs with he
    cases e
    case testShutdown i =>
      simp only [State.runnerStep] at hs
      split_ifs at hs with hclear hshutdown
      · cases hs
        exact .plain he ⟨Bool.eq_false_iff.mpr hclear, hshutdown⟩
      · cases hs
        exact .findClear he (Bool.eq_false_iff.mpr hshutdown)
    case wakeUp i =>
      cases hs
      exact .wakeUp he
    case stopExchange i =>
      cases hs
      exact .stopExchange he
    case stopUnlock i =>
      simp only [State.runnerStep] at hs
      split_ifs at hs with hdue
      cases hs
      exact .stopUnlock he (Bool.eq_false_iff.mpr hdue)
    all_goals
      cases hs
      exact .plain he trivial
  | beginWait i =>
    simp only [State.next] at hs
    split_ifs at hs with hclear
    cases hs
    exact .beginWait hclear
  | notifyAll i =>
    simp only [State.next] at hs
    split_ifs at hs with hdue
    cases hs
    exact .notifyAll hdue
  | notifyOne i =>
    simp only [State.next] at hs
    split_ifs at hs
    cases hs
    exact .notifyOne

/-- A worker that is going to wait has the mutex and the flag is still clear; once the flag is set,
a worker that waits has been notified or is going to be. -/
structure Inv (s : State) : Prop where
  runner : WorkerLoop.Inv s.runner
  worker : ∀ i, holdsMutex (s.runner.pc i) = true → s.runner.cvMutex i = some .worker
  exchanged : ∀ i, s.runner.cvMutex i = some (.stop true) → s.runner.shutdown i = true
  locked : ∀ i, s.runner.cvMutex i ≠ none → i < s.runner.created
  foundClear : ∀ i, s.foundClear i = true →
    s.runner.pc i = .testShutdown ∧ s.runner.shutdown i = false
  due : ∀ i, s.notifyDue i = true → s.runner.cvMutex i = some (.stop true)
  told : ∀ i, s.runner.shutdown i = true → s.runner.pc i = .wait →
    s.notified i = true ∨ s.notifyDue i = true
  returned : ∀ i, s.stopReturned i = true →
    i < s.runner.created ∧ s.runner.shutdown i = true ∧ s.notifyDue i = false

theorem inv_initial (config : Config) : Inv (initial config) where
  runner := WorkerLoop.inv_initial config
  worker _ h := nomatch h
  exchanged _ h := nomatch h
  locked _ h := absurd rfl h
  foundClear _ h := nomatch h
  due _ h := nomatch h
  told _ h := nomatch h
  returned _ h := nomatch h

theorem notify_runner (s : State) (i : ℕ) : (s.notify i).runner = s.runner := by
  unfold State.notify
  split_ifs <;> rfl

theorem notify_foundClear (s : State) (i : ℕ) : (s.notify i).foundClear = s.foundClear := by
  unfold State.notify
  split_ifs <;> rfl

theorem notify_notifyDue (s : State) (i : ℕ) : (s.notify i).notifyDue = s.notifyDue := by
  unfold State.notify
  split_ifs <;> rfl

theorem notify_stopReturned (s : State) (i : ℕ) : (s.notify i).stopReturned = s.stopReturned := by
  unfold State.notify
  split_ifs <;> rfl

theorem notify_notified (s : State) (i j : ℕ) :
    (s.notify i).notified j = true ↔ s.notified j = true ∨ (j = i ∧ s.runner.pc i = .wait) := by
  unfold State.notify
  split_ifs with hwait
  · simp only [Function.update_apply]
    split_ifs with hji
    · simp [hji, hwait]
    · simp [hji]
  · simp [hwait]

section Steps
variable {s s' : State} {a : Action}

/-- A step here is a step of the runner, or the runner stays as it is. To begin to wait is what is
left of the look at the flag. -/
theorem runner_step (h : Inv s) (hs : Step s a s') :
    s'.runner = s.runner ∨
      ∃ e, WorkerLoop.Enabled s.runner e ∧ s'.runner = WorkerLoop.next s.runner e := by
  cases hs with
  | plain he hplain => exact .inr ⟨_, he, rfl⟩
  | findClear hpc hclear => exact .inl rfl
  | @wakeUp i hpc => exact .inr ⟨.wakeUp i, hpc, rfl⟩
  | @stopExchange i hmutex => exact .inr ⟨.stopExchange i, hmutex, rfl⟩
  | @stopUnlock i hmutex hdue => exact .inr ⟨.stopUnlock i, hmutex, rfl⟩
  | @beginWait i hclear =>
    obtain ⟨hpc, hshutdown⟩ := h.foundClear i hclear
    refine .inr ⟨.testShutdown i, hpc, ?_⟩
    rw [WorkerLoop.next, hshutdown]
    rfl
  | @notifyAll i hdue => exact .inl (notify_runner s i)
  | @notifyOne i => exact .inl (notify_runner s i)

/-- Nothing happens to a worker between its look at the flag and the beginning of its wait. -/
theorem foundClear_next {e : WorkerLoop.Action} {i : ℕ} (h : Inv s)
    (he : WorkerLoop.Enabled s.runner e) (hclear : s.foundClear i = true)
    (hne : e ≠ .testShutdown i) : (WorkerLoop.next s.runner e).pc i = .testShutdown ∧
      (WorkerLoop.next s.runner e).shutdown i = false := by
  obtain ⟨hpc, hshutdown⟩ := h.foundClear i hclear
  refine ⟨testShutdown_next h.runner he hpc hne, Bool.eq_false_iff.mpr fun hs => ?_⟩
  rcases shutdown_next.mp hs with hs | rfl
  · rw [hshutdown] at hs
    cases hs
  · -- no `Stop` has the mutex
    exact absurd (he.symm.trans (h.worker i (by rw [hpc]; rfl))) (by decide)

/-- A `Stop` keeps the mutex until it has notified. -/
theorem due_next {e : WorkerLoop.Action} {i : ℕ} (h : Inv s) (he : WorkerLoop.Enabled s.runner e)
    (hdue : s.notifyDue i = true) (hne : e ≠ .stopUnlock i) :
    (WorkerLoop.next s.runner e).cvMutex i = some (.stop true) := by
  have hmutex := h.due i hdue
  have hworker (hp : holdsMutex (s.runner.pc i) = true) : False :=
    absurd (hmutex.symm.trans (h.worker i hp)) (by decide)
  by_cases hmem : e ∈ mutexSteps i
  · rcases mem_mutexSteps.mp hmem with rfl | rfl | rfl | rfl | rfl | rfl | rfl | rfl
    -- whoever takes the mutex finds it locked, and the worker does not have it
    · exact nomatch hmutex.symm.trans he.2
    · exact (hworker (by rw [he]; rfl)).elim
    · exact nomatch hmutex.symm.trans he.2
    · exact (hworker (by rw [he]; rfl)).elim
    · exact (hworker (by rw [he]; rfl)).elim
    · exact nomatch hmutex.symm.trans he.2
    · exact absurd (hmutex.symm.trans he) (by decide)
    · exact absurd rfl hne
  · rw [cvMutex_frame hmem]
    exact hmutex

theorem foundClear_step (h : Inv s) (hs : Step s a s') (i : ℕ) (hclear : s'.foundClear i = true) :
    s'.runner.pc i = .testShutdown ∧ s'.runner.shutdown i = false := by
  cases hs with
  | plain he hplain =>
    refine foundClear_next h he hclear fun heq => ?_
    subst heq
    exact absurd (hplain.1.symm.trans hclear) (by decide)
  | @findClear j hpc hshutdown =>
    simp only [Function.update_apply] at hclear
    split_ifs at hclear with hij
    · rw [hij]
      exact ⟨hpc, hshutdown⟩
    · exact h.foundClear i hclear
  | @wakeUp j hpc => exact foundClear_next (e := .wakeUp j) h hpc hclear nofun
  | @stopExchange j hmutex => exact foundClear_next (e := .stopExchange j) h hmutex hclear nofun
  | @stopUnlock j hmutex hdue => exact foundClear_next (e := .stopUnlock j) h hmutex hclear nofun
  | @beginWait j hold =>
    simp only [Function.update_apply] at hclear
    split_ifs at hclear with hij
    rw [pc_setPc, if_neg hij]
    exact h.foundClear i hclear
  | @notifyAll j hdue | @notifyOne j =>
    rw [notify_foundClear] at hclear
    rw [notify_runner]
    exact h.foundClear i hclear

theorem due_step (h : Inv s) (hs : Step s a s') (i : ℕ) (hdue : s'.notifyDue i = true) :
    s'.runner.cvMutex i = some (.stop true) := by
  cases hs with
  | plain he hplain =>
    refine due_next h he hdue fun heq => ?_
    subst heq
    exact hplain
  | findClear hpc hshutdown => exact h.due i hdue
  | @wakeUp j hpc => exact due_next (e := .wakeUp j) h hpc hdue nofun
  | @stopExchange j hmutex =>
    by_cases hij : i = j
    · rw [hij]
      exact Function.update_self ..
    · simp only [Function.update_of_ne hij] at hdue
      exact due_next (e := .stopExchange j) h hmutex hdue nofun
  | @stopUnlock j hmutex hnone =>
    refine due_next (e := .stopUnlock j) h hmutex hdue fun heq => ?_
    cases heq
    exact absurd (hnone.symm.trans hdue) (by decide)
  | @beginWait j hclear =>
    -- the worker that begins to wait had the mutex, so nobody is about to notify it
    have hmutex := h.due i hdue
    have hij : i ≠ j := fun heq => by
      have hworker := h.worker i (by rw [heq, (h.foundClear j hclear).1]; rfl)
      exact absurd (hmutex.symm.trans hworker) (by decide)
    simp only [Function.update_of_ne hij]
    exact hmutex
  | @notifyAll j hold =>
    simp only [Function.update_apply] at hdue
    split_ifs at hdue
    rw [notify_runner]
    exact h.due i hdue
  | @notifyOne j =>
    rw [notify_notifyDue] at hdue
    rw [notify_runner]
    exact h.due i hdue

theorem told_step (h : Inv s) (hs : Step s a s') (i : ℕ) (hshutdown : s'.runner.shutdown i = true)
    (hpc : s'.runner.pc i = .wait) : s'.notified i = true ∨ s'.notifyDue i = true := by
  cases hs with
  | plain he hplain =>
    rcases wait_of_next hpc with hold | ⟨rfl, hclear⟩
    · rcases shutdown_next.mp hshutdown with hset | rfl
      · exact h.told i hset hold
      · exact hplain.elim
    · -- a look at a clear flag is no plain step
      exact absurd (hclear.symm.trans hplain.2) (by decide)
  | findClear => exact h.told i hshutdown hpc
  | @wakeUp j =>
    by_cases hij : i = j
    · -- the notification is used up, and the wait is over
      rw [WorkerLoop.next, pc_setPc, if_pos hij] at hpc
      cases hpc
    · rw [WorkerLoop.next, pc_setPc, if_neg hij] at hpc
      simp only [Function.update_of_ne hij]
      exact h.told i hshutdown hpc
  | @stopExchange j hmutex =>
    by_cases hij : i = j
    · subst hij
      cases hset : s.runner.shutdown i with
      | false => exact .inr (Function.update_self ..)
      | true =>
        -- the flag was set before, by a `Stop` that has notified
        refine .inl ((h.told i hset hpc).resolve_right fun hdue => ?_)
        exact absurd (hmutex.symm.trans (h.due i hdue)) (by decide)
    · simp only [Function.update_of_ne hij]
      refine h.told i ?_ hpc
      rcases (shutdown_next (e := .stopExchange j)).mp hshutdown with hset | heq
      · exact hset
      · cases heq
        exact absurd rfl hij
  | stopUnlock => exact h.told i hshutdown hpc
  | @beginWait j hclear =>
    by_cases hij : i = j
    · -- the flag has been clear since the worker looked at it
      have hnot := (h.foundClear j hclear).2
      rw [← hij] at hnot
      exact absurd (hnot.symm.trans hshutdown) (by decide)
    · rw [pc_setPc, if_neg hij] at hpc
      exact h.told i hshutdown hpc
  | @notifyAll j hdue =>
    rw [notify_runner] at hshutdown hpc
    change (s.notify j).notified i = true ∨ Function.update s.notifyDue j false i = true
    rw [notify_notified]
    by_cases hij : i = j
    · exact .inl (.inr ⟨hij, hij ▸ hpc⟩)
    · rw [Function.update_of_ne hij]
      exact (h.told i hshutdown hpc).imp_left .inl
  | @notifyOne j =>
    rw [notify_runner] at hshutdown hpc
    rw [notify_notified, notify_notifyDue]
    exact (h.told i hshutdown hpc).imp_left .inl

theorem returned_step (h : Inv s) (hs : Step s a s') (i : ℕ) (hret : s'.stopReturned i = true) :
    i < s'.runner.created ∧ s'.runner.shutdown i = true ∧ s'.notifyDue i = false := by
  have hold (e : WorkerLoop.Action) (hret : s.stopReturned i = true) :
      i < (WorkerLoop.next s.runner e).created ∧
        (WorkerLoop.next s.runner e).shutdown i = true := by
    obtain ⟨hcreated, hset, -⟩ := h.returned i hret
    exact ⟨Nat.lt_of_lt_of_le hcreated created_le_next, shutdown_next.mpr (.inl hset)⟩
  have hdue (hret : s.stopReturned i = true) : s.notifyDue i = false := (h.returned i hret).2.2
  cases hs with
  | @plain e => exact ⟨(hold e hret).1, (hold e hret).2, hdue hret⟩
  | findClear => exact h.returned i hret
  | @wakeUp j => exact ⟨(hold (.wakeUp j) hret).1, (hold (.wakeUp j) hret).2, hdue hret⟩
  | @stopExchange j =>
    refine ⟨(hold (.stopExchange j) hret).1, (hold (.stopExchange j) hret).2, ?_⟩
    simp only [Function.update_apply]
    split_ifs with hij
    · -- this `Stop` comes after one that has set the flag, and does not notify
      rw [← hij, (h.returned i hret).2.1]
      rfl
    · exact hdue hret
  | @stopUnlock j hmutex hnone =>
    by_cases hij : i = j
    · -- it is this `Stop` that returns
      subst hij
      have hlocked := h.locked i fun hfree => nomatch hmutex.symm.trans hfree
      exact ⟨hlocked, h.exchanged i hmutex, hnone⟩
    · simp only [Function.update_of_ne hij] at hret
      exact ⟨(hold (.stopUnlock j) hret).1, (hold (.stopUnlock j) hret).2, hdue hret⟩
  | beginWait => exact h.returned i hret
  | @notifyAll j =>
    rw [notify_stopReturned] at hret
    rw [notify_runner]
    refine ⟨(h.returned i hret).1, (h.returned i hret).2.1, ?_⟩
    simp only [Function.update_apply]
    split_ifs
    · rfl
    · exact hdue hret
  | @notifyOne j =>
    rw [notify_stopReturned] at hret
    rw [notify_runner, notify_notifyDue]
    exact h.returned i hret

theorem inv_step (h : Inv s) (hs : Step s a s') : Inv s' := by
  refine ⟨?_, fun i hp => ?_, fun i hmutex => ?_, fun i hmutex => ?_, foundClear_step h hs, due_step h hs,
    told_step h hs, returned_step h hs⟩
  all_goals rcases runner_step h hs with hsame | ⟨e, he, hrunner⟩
  · rw [hsame]
    exact h.runner
  · rw [hrunner]
    exact WorkerLoop.inv_step he h.runner
  · rw [hsame] at hp ⊢
    exact h.worker i hp
  · rw [hrunner] at hp ⊢
    exact cvMutex_worker he (h.worker i) hp
  · rw [hsame] at hmutex ⊢
    exact h.exchanged i hmutex
  · rw [hrunner] at hmutex ⊢
    exact exchanged_next (h.exchanged i) hmutex
  · rw [hsame] at hmutex ⊢
    exact h.locked i hmutex
  · rw [hrunner] at hmutex ⊢
    exact cvMutex_created h.runner he (h.locked i) hmutex

end Steps

theorem inv_next (s : State) (a : Action) (s' : State) (h : Inv s) (hs : system.step s a = some s') :
    Inv s' := inv_step h (step_of_next hs)

theorem reachable_inv {s : State} (h : system.Reachable s) : Inv s := by
  refine h.invariant ?_ inv_next
  rintro s ⟨config, rfl⟩
  exact inv_initial config

/-- What the runner does here it does in runs where a look at the flag and the wait that follows are
one step. -/
theorem runner_reachable {s : State} (h : system.Reachable s) :
    WorkerLoop.system.Reachable s.runner := by
  refine TransitionSystem.Reachable.invariant_of_reachable
    (P := fun s => WorkerLoop.system.Reachable s.runner) h ?_ ?_
  · rintro s ⟨config, rfl⟩
    exact .init ⟨config, rfl⟩
  · intro s a s' hreach hr hs
    rcases runner_step (reachable_inv hreach) (step_of_next hs) with hsame | ⟨e, he, hrunner⟩
    · rw [hsame]
      exact hr
    · exact hr.step (WorkerLoop.step_eq_some.mpr ⟨he, hrunner.symm⟩)

/-- The worker that takes a step. -/
def workerOf : WorkerLoop.Action → Option ℕ
  | .start i _ | .test i | .tryProcessOne i | .steal i _ | .scan i _ _ | .finishJob i
  | .checkTime i _ _ | .deactivate i | .lock i | .testShutdown i | .wakeUp i | .relock i
  | .activate i | .unlock i | .breakLoop i | .leave i _ | .storeStopped i => some i
  | .createWorker | .setReadyForStealing _ | .addJob _ | .stopLock _ | .stopExchange _
  | .stopUnlock _ | .join _ => none

def Action.isStepOf (i : ℕ) : Action → Bool
  | .runner e => workerOf e = some i
  | .beginWait j => j = i
  | .notifyAll _ | .notifyOne _ => false

/-- How many steps a worker takes at most until it exits, once `shutdown_flag_` is set. -/
def stepsLeft (threadNum : ℕ) : Pc → ℕ
  | .tryProcessOne => threadNum + 10
  | .steal => threadNum + 9
  | .scan _ tried => threadNum - tried + 8
  | .foundNothing | .wait => 7
  | .deactivate | .relock => 6
  | .lock | .activate => 5
  | .start | .processing | .testShutdown | .unlock => 4
  | .test | .breakLoop => 3
  | .leave _ => 2
  | .storeStopped => 1
  | .notCreated | .exited => 0

theorem stepsLeft_next {r : WorkerLoop.State} {e : WorkerLoop.Action} {i : ℕ}
    (he : WorkerLoop.Enabled r e) (hs : r.shutdown i = true) (hi : workerOf e = some i) :
    stepsLeft r.config.threadNum ((WorkerLoop.next r e).pc i) <
      stepsLeft r.config.threadNum (r.pc i) := by
  have hset (p : Pc) : (r.setPc i p).pc i = p := by rw [pc_setPc, if_pos rfl]
  have htake (q : ℕ) (p : Pc) :
      (r.takeJob i q p).pc i = .processing ∨ (r.takeJob i q p).pc i = p := by
    unfold WorkerLoop.State.takeJob
    split_ifs
    · exact .inl (hset _)
    · exact .inr (hset _)
  cases e <;> cases hi <;> simp only [WorkerLoop.Enabled] at he
  case test =>
    -- the loop ends here
    rw [he, WorkerLoop.next, if_pos hs, hset]
    simp [stepsLeft]
  case tryProcessOne =>
    rw [he, WorkerLoop.next]
    rcases htake i .steal with hp | hp <;> rw [hp] <;> simp only [stepsLeft] <;> omega
  case steal idx =>
    rw [he.1, WorkerLoop.next, hset]
    split_ifs <;> simp only [stepsLeft] <;> omega
  case scan idx tried =>
    -- each queue is looked at once
    rw [he]
    simp only [WorkerLoop.next]
    split
    · rcases htake _ _ with hp | hp <;> rw [hp] <;> simp only [stepsLeft] <;> omega
    · rw [hset]
      simp only [stepsLeft]
      omega
  case checkTime now now' =>
    -- the worker spins, or it goes to sleep
    rw [he]
    simp only [WorkerLoop.next]
    split
    · rw [hset]
      simp [stepsLeft]
    · change stepsLeft _ ((r.setPc i _).pc i) < _
      rw [hset]
      split_ifs <;> simp [stepsLeft]
  case testShutdown =>
    rw [he, WorkerLoop.next, if_pos hs, hset]
    simp [stepsLeft]
  case lock | relock =>
    rw [he.1]
    change stepsLeft _ ((r.setPc i _).pc i) < _
    rw [hset]
    simp [stepsLeft]
  all_goals
    rw [he]
    change stepsLeft _ ((r.setPc i _).pc i) < _
    rw [hset]
    simp [stepsLeft]

/-- A step of another thread leaves the worker where it is. -/
theorem pc_next_other {r : WorkerLoop.State} {e : WorkerLoop.Action} {i : ℕ}
    (hi : i < r.created) (hne : workerOf e ≠ some i) :
    (WorkerLoop.next r e).pc i = r.pc i := by
  rcases pc_next r e i with hsame | hturn
  · exact hsame
  · generalize (WorkerLoop.next r e).pc i = p at hturn
    cases hturn with
    | createWorker heq => omega
    | _ => exact absurd rfl hne

section AfterStop
variable {s s' : State} {a : Action} {i : ℕ}

theorem shutdown_step (h : Inv s) (hset : s.runner.shutdown i = true) (hs : Step s a s') :
    s'.runner.shutdown i = true := by
  rcases runner_step h hs with hsame | ⟨e, -, hrunner⟩
  · rw [hsame]
    exact hset
  · rw [hrunner]
    exact shutdown_next.mpr (.inl hset)

theorem not_beginWait (h : Inv s) (hset : s.runner.shutdown i = true) (hs : Step s a s') :
    a ≠ .beginWait i := by
  rintro rfl
  cases hs with
  | beginWait hclear => exact absurd ((h.foundClear i hclear).2.symm.trans hset) (by decide)

/-- Once the flag is set the worker starts no wait. -/
theorem beginWait_not_mem {as : List Action} (h : Inv s) (hset : s.runner.shutdown i = true)
    (hrun : system.exec s as = some s') : .beginWait i ∉ as := by
  induction as generalizing s with
  | nil => exact List.not_mem_nil
  | cons a as ih =>
    obtain ⟨u, hu, he⟩ := Option.bind_eq_some_iff.mp hrun
    have hstep := step_of_next hu
    intro hmem
    rcases List.mem_cons.mp hmem with heq | hmem
    · exact not_beginWait h hset hstep heq.symm
    · exact ih (inv_step h hstep) (shutdown_step h hset hstep) he hmem

/-- Where a step takes a worker whose flag is set: its own steps take it closer to its exit, all
others leave it where it is. -/
theorem stepsLeft_step (h : Inv s) (hset : s.runner.shutdown i = true)
    (hi : i < s.runner.created) (hs : Step s a s') :
    stepsLeft s.runner.config.threadNum (s'.runner.pc i) + (if a.isStepOf i then 1 else 0) ≤
      stepsLeft s.runner.config.threadNum (s.runner.pc i) := by
  have hrunner {e : WorkerLoop.Action} (he : WorkerLoop.Enabled s.runner e) :
      stepsLeft s.runner.config.threadNum ((WorkerLoop.next s.runner e).pc i) +
        (if (Action.runner e).isStepOf i then 1 else 0) ≤
      stepsLeft s.runner.config.threadNum (s.runner.pc i) := by
    by_cases hown : workerOf e = some i
    · rw [if_pos (by simpa [Action.isStepOf] using hown)]
      exact stepsLeft_next he hset hown
    · rw [if_neg (by simpa [Action.isStepOf] using hown), pc_next_other hi hown]
      exact Nat.le_refl _
  cases hs with
  | plain he hplain => exact hrunner he
  | @findClear j hpc hclear =>
    have hij : j ≠ i := fun heq => by
      rw [heq, hset] at hclear
      cases hclear
    rw [if_neg (by simp [Action.isStepOf, workerOf, hij])]
    exact Nat.le_refl _
  | @wakeUp j hpc => exact hrunner (e := .wakeUp j) hpc
  | @stopExchange j hmutex => exact hrunner (e := .stopExchange j) hmutex
  | @stopUnlock j hmutex hdue => exact hrunner (e := .stopUnlock j) hmutex
  | @beginWait j hclear =>
    have hij : j ≠ i := fun heq => not_beginWait h hset (.beginWait hclear) (by rw [heq])
    rw [if_neg (by simp [Action.isStepOf, hij]), pc_setPc, if_neg (Ne.symm hij)]
    exact Nat.le_refl _
  | notifyAll hdue | notifyOne =>
    rw [notify_runner]
    exact Nat.le_refl _

theorem runner_config (h : Inv s) (hs : Step s a s') :
    s'.runner.config = s.runner.config ∧ s.runner.created ≤ s'.runner.created := by
  rcases runner_step h hs with hsame | ⟨e, -, hrunner⟩
  · rw [hsame]
    exact ⟨rfl, Nat.le_refl _⟩
  · rw [hrunner]
    exact ⟨WorkerLoop.config_next _ _, created_le_next⟩

theorem steps_le_stepsLeft {as : List Action} (h : Inv s) (hset : s.runner.shutdown i = true)
    (hi : i < s.runner.created) (hrun : system.exec s as = some s') :
    (as.filter (·.isStepOf i)).length ≤ stepsLeft s.runner.config.threadNum (s.runner.pc i) := by
  induction as generalizing s with
  | nil => exact Nat.zero_le _
  | cons a as ih =>
    obtain ⟨u, hu, he⟩ := Option.bind_eq_some_iff.mp hrun
    have hstep := step_of_next hu
    obtain ⟨hconfig, hcreated⟩ := runner_config h hstep
    have hrest := ih (inv_step h hstep) (shutdown_step h hset hstep)
      (Nat.lt_of_lt_of_le hi hcreated) he
    have hone := stepsLeft_step h hset hi hstep
    rw [hconfig] at hrest
    rw [List.filter_cons]
    split_ifs at hone ⊢
    · rw [List.length_cons]
      omega
    · omega

end AfterStop

/-- After `Stop` has returned the worker does not sit in a wait that nobody has ended. A worker that
gets the mutex once the flag is set starts no wait any more, and it is a bounded number of its own
steps from its exit, so it does not rely on the end of `kWorkerIdleTime`. -/
theorem stop_reaches_worker {s : State} (h : system.Reachable s) :
    (∀ i, s.stopReturned i = true → ¬ s.Blocked i) ∧
    (∀ i e as s', s.runner.shutdown i = true → e = .lock i ∨ e = .relock i →
      system.exec s (.runner e :: as) = some s' → .beginWait i ∉ as) ∧
    ∀ i as s', s.stopReturned i = true → system.exec s as = some s' →
      (as.filter (·.isStepOf i)).length ≤
        stepsLeft s.runner.config.threadNum (s.runner.pc i) := by
  have hi := reachable_inv h
  refine ⟨fun i hret => ?_, fun i e as s' hset he hrun hmem => ?_, fun i as s' hret hrun => ?_⟩
  · rintro ⟨hwait, hnone⟩
    obtain ⟨-, hset, hdue⟩ := hi.returned i hret
    rcases hi.told i hset hwait with htold | htold
    · rw [hnone] at htold
      cases htold
    · rw [hdue] at htold
      cases htold
  · exact beginWait_not_mem hi hset hrun (List.mem_cons_of_mem _ hmem)
  · obtain ⟨hcreated, hset, -⟩ := hi.returned i hret
    exact steps_le_stepsLeft hi hset hcreated hrun

/-- `Stop` comes when the worker waits, and once more after that. -/
def stopTwiceRun : List Action :=
  [.runner .createWorker, .runner (.setReadyForStealing true), .runner (.start 0 5),
    .runner (.test 0), .runner (.tryProcessOne 0), .runner (.steal 0 0), .runner (.scan 0 0 0),
    .runner (.scan 0 1 1), .runner (.checkTime 0 6 7), .runner (.deactivate 0), .runner (.lock 0),
    .runner (.testShutdown 0), .beginWait 0, .runner (.stopLock 0), .runner (.stopExchange 0),
    .notifyAll 0, .runner (.stopUnlock 0), .runner (.stopLock 0), .runner (.stopExchange 0),
    .runner (.stopUnlock 0)]

theorem stop_reaches_worker_stopTwiceRun :
    (system.after (initial WorkerWakeUp.oneWorker) stopTwiceRun).runner.pc 0 = .wait ∧
    (system.after (initial WorkerWakeUp.oneWorker) stopTwiceRun).stopReturned 0 = true ∧
    ¬ (system.after (initial WorkerWakeUp.oneWorker) stopTwiceRun).Blocked 0 :=
  ⟨by decide, by decide,
    (stop_reaches_worker (.after (init_initial WorkerWakeUp.oneWorker) stopTwiceRun)).1 0
      (by decide)⟩

end CrisCore.WorkerStop
