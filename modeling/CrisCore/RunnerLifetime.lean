import CrisCore.StrandHistory
import Mathlib.Data.List.Count

/-! The `std::shared_ptr`s to a runner and the thread that gives up the last one. Strand and node
keep weak pointers and lock them for one push, on whatever thread makes it; `~JobRunner` joins all
workers on the thread that releases the last reference. -/
namespace CrisCore.RunnerLifetime
open Strand (JobId Activation)

inductive Thread
  /-- `JobRunnerWorker::thread_` of this runner. -/
  | worker (i : ℕ)
  | other (n : ℕ)
  deriving DecidableEq

def Thread.isWorker : Thread → Bool
  | .worker _ => true
  | .other _ => false

/-- Who locked `runner_weak_`: `PushToRunnerIfNeeded` of an activation, or a function of
`CRNode`. -/
inductive Locker
  | push (a : Activation)
  | node
  deriving DecidableEq

/-- The result of `runner_weak_.lock()` and the thread it lives on. -/
structure Temporary where
  thread : Thread
  locker : Locker
  deriving DecidableEq

structure State where
  strand : Strand.State
  /-- The thread of each activation, and the one that runs each job. -/
  thread : Activation → Thread
  jobThread : JobId → Thread
  /-- The users' references; jobs have none. -/
  userRefs : ℕ
  temporaries : List Temporary
  /-- The thread `~JobRunner` runs on. -/
  destroyedBy : Option Thread

def initial : State where
  strand := Strand.initial
  thread := fun _ => .other 0
  jobThread := fun _ => .other 0
  userRefs := 1
  temporaries := []
  destroyedBy := none

inductive Action
  | strand (t : Thread) (e : Strand.Action)
  -- PushToRunnerIfNeeded; the push itself is a step of the strand
  | lockRunner (a : Activation)
  -- CRNode::AddJobToRunner, CRNode::MakeStrand
  | lockNode (t : Thread)
  | release (temporary : Temporary)
  | copyRef
  | releaseUser (n : ℕ)
  deriving DecidableEq

namespace State

def refs (s : State) : ℕ := s.userRefs + s.temporaries.length

/-- The references that live outside the workers, and those that live on them. -/
def outside (s : State) : ℕ :=
  s.userRefs + s.temporaries.countP fun r => !r.thread.isWorker

def onWorkers (s : State) : ℕ := s.temporaries.countP fun r => r.thread.isWorker

def pushing (s : State) (a : Activation) : Bool :=
  match s.strand.pc a with
  | .pushToRunner _ => true
  | _ => false

def hasLocked (s : State) (a : Activation) : Bool :=
  s.temporaries.any fun r => r.locker = .push a

/-- The locker still needs the runner. -/
def busy (s : State) : Locker → Bool
  | .push a => s.pushing a
  | .node => false

/-- After a reference is given up on a thread: the last one takes the runner with it. -/
def settle (s : State) (t : Thread) : State :=
  if s.refs = 0 then
    { s with strand := Strand.next s.strand .expireRunner, destroyedBy := some t }
  else s

end State

/-- Whether a step of the strand may be one of a given thread. The runner ends with its last
reference only, and a push needs the lock if it can be had. -/
def Allowed (s : State) (t : Thread) : Strand.Action → Prop
  | .expireRunner => False
  | .tryLock j | .testEmpty j | .setReady j | .unlockForce j _ | .push j | .return_ j =>
    s.thread (.addJob, j) = t
  | .lock a | .testReady a | .consumeOne a | .storeReady a _ | .unlock a _ => s.thread a = t
  | .pushToRunner a _ _ =>
    s.thread a = t ∧ (s.strand.runnerAlive = true → s.hasLocked a = true)
  | .finishJob j => s.jobThread j = t
  | _ => True

instance (s : State) (t : Thread) : (e : Strand.Action) → Decidable (Allowed s t e)
  | .expireRunner => inferInstanceAs (Decidable False)
  | .tryLock _ | .testEmpty _ | .setReady _ | .unlockForce _ _ | .push _ | .return_ _ | .lock _
  | .testReady _ | .consumeOne _ | .storeReady _ _ | .unlock _ _ | .finishJob _ =>
    inferInstanceAs (Decidable (_ = _))
  | .pushToRunner _ _ _ => inferInstanceAs (Decidable (_ ∧ _))
  | .call _ _ | .startJob _ _ | .shareToken _ | .handOverToken _ | .dropToken _
  | .discardQueued _ _ | .expireStrand => inferInstanceAs (Decidable True)

def Enabled (s : State) : Action → Prop
  | .strand t e => Allowed s t e ∧ Strand.Enabled s.strand e
  | .lockRunner a =>
    s.pushing a = true ∧ s.hasLocked a = false ∧ s.strand.runnerAlive = true
  | .lockNode _ => s.strand.runnerAlive = true
  | .release r => r ∈ s.temporaries ∧ s.busy r.locker = false
  | .copyRef => s.strand.runnerAlive = true
  | .releaseUser _ => 0 < s.userRefs

instance (s : State) : (a : Action) → Decidable (Enabled s a)
  | .strand _ _ | .lockRunner _ | .release _ => inferInstanceAs (Decidable (_ ∧ _))
  | .lockNode _ | .copyRef => inferInstanceAs (Decidable (_ = _))
  | .releaseUser _ => inferInstanceAs (Decidable (_ < _))

/-- The job a step starts, in place or from a queue. -/
def startedJob : Strand.Action → Option JobId
  | .unlockForce j true | .startJob _ j => some j
  | _ => none

def next (s : State) : Action → State
  | .strand t e =>
    { s with
      strand := Strand.next s.strand e
      -- an activation stays on the thread that began it
      thread := fun a => if s.strand.pc a = .idle then t else s.thread a
      jobThread := fun j => if startedJob e = some j then t else s.jobThread j }
  | .lockRunner a => { s with temporaries := ⟨s.thread a, .push a⟩ :: s.temporaries }
  | .lockNode t => { s with temporaries := ⟨t, .node⟩ :: s.temporaries }
  | .release r => { s with temporaries := s.temporaries.erase r }.settle r.thread
  | .copyRef => { s with userRefs := s.userRefs + 1 }
  | .releaseUser n => { s with userRefs := s.userRefs - 1 }.settle (.other n)

def system : TransitionSystem State Action where
  init s := s = initial
  step s a := if Enabled s a then some (next s a) else none

/-- `~JobRunner` has not run on a thread it joins. -/
def NotOnWorker (s : State) : Prop :=
  ∀ t, s.destroyedBy = some t → t.isWorker = false

/-- The last reference outside the workers is only given up when they have none. -/
def Heeds (s : State) : Action → Prop
  | .release r => r.thread.isWorker = false → s.outside = 1 → s.onWorkers = 0
  | .releaseUser _ => s.outside = 1 → s.onWorkers = 0
  | _ => True

instance (s : State) : (a : Action) → Decidable (Heeds s a)
  | .release _ => inferInstanceAs (Decidable (_ → _))
  | .releaseUser _ => inferInstanceAs (Decidable (_ → _))
  | .strand _ _ | .lockRunner _ | .lockNode _ | .copyRef => inferInstanceAs (Decidable True)

/-- The runner is there as long as a reference is. -/
def Counted (s : State) : Prop :=
  s.strand.runnerAlive = decide (0 < s.refs)

section Steps
variable {s t : State} {a : Action}

theorem step_eq_some : system.step s a = some t ↔ Enabled s a ∧ next s a = t := by
  change (if Enabled s a then some (next s a) else none) = some t ↔ _
  split_ifs with h <;> simp [h]

theorem refs_eq (s : State) : s.refs = s.outside + s.onWorkers := by
  have h := List.length_eq_countP_add_countP (fun r => r.thread.isWorker) (l := s.temporaries)
  simp only [State.refs, State.outside, State.onWorkers]
  simp only [Bool.not_eq_true, Bool.decide_eq_false] at h
  omega

theorem alive_of_refs (h : Counted s) (hr : 0 < s.refs) : s.strand.runnerAlive = true := by
  rw [h]
  exact decide_eq_true hr

theorem counted_settle (ha : s.strand.runnerAlive = true) (t : Thread) :
    Counted (s.settle t) := by
  unfold State.settle
  split_ifs with hr
  · simp only [Counted, Strand.next, State.refs] at hr ⊢
    simp [hr]
  · rw [Counted, ha, eq_comm, decide_eq_true_eq]
    exact Nat.pos_of_ne_zero hr

theorem strand_runnerAlive {t : Thread} {e : Strand.Action} (h : Allowed s t e) :
    (Strand.next s.strand e).runnerAlive = s.strand.runnerAlive := by
  have hne : e ≠ .expireRunner := by
    rintro rfl
    exact h
  simp [Strand.next_runnerAlive, hne]

theorem refs_pos_of_mem {r : Temporary} (h : r ∈ s.temporaries) : 0 < s.refs := by
  have hpos := List.length_pos_of_mem h
  simp only [State.refs]
  omega

theorem counted_step (he : Enabled s a) (h : Counted s) : Counted (next s a) := by
  cases a with
  | strand t e =>
    change (Strand.next s.strand e).runnerAlive = _
    rw [strand_runnerAlive he.1]
    exact h
  | lockRunner a =>
    change s.strand.runnerAlive = _
    rw [he.2.2, eq_comm, decide_eq_true_eq]
    exact refs_pos_of_mem List.mem_cons_self
  | lockNode t =>
    change s.strand.runnerAlive = _
    rw [he, eq_comm, decide_eq_true_eq]
    exact refs_pos_of_mem List.mem_cons_self
  | release r =>
    have ha := alive_of_refs h (refs_pos_of_mem he.1)
    exact counted_settle (s := { s with temporaries := s.temporaries.erase r }) ha r.thread
  | copyRef =>
    change s.strand.runnerAlive = _
    rw [he, eq_comm, decide_eq_true_eq]
    simp only [next, State.refs]
    omega
  | releaseUser n =>
    have ha := alive_of_refs h (by simp only [State.refs]; exact Nat.add_pos_left he _)
    exact counted_settle (s := { s with userRefs := s.userRefs - 1 }) ha (.other n)

theorem reachable_counted (h : system.Reachable s) : Counted s := by
  refine h.invariant ?_ ?_
  · rintro s rfl
    rfl
  · intro u a v hu hst
    obtain ⟨he, rfl⟩ := step_eq_some.mp hst
    exact counted_step he hu

/-- The runner outlives everything the workers hold, and ends on another thread. -/
structure Safe (s : State) : Prop where
  counted : Counted s
  outside : s.strand.runnerAlive = true → 0 < s.outside
  notOnWorker : NotOnWorker s

theorem safe_initial : Safe initial :=
  ⟨rfl, fun _ => Nat.one_pos, nofun⟩

theorem safe_settle {t : Thread} (hs : NotOnWorker s) (ha : s.strand.runnerAlive = true)
    (h : 0 < s.outside ∨ (s.refs = 0 ∧ t.isWorker = false)) : Safe (s.settle t) := by
  refine ⟨counted_settle ha t, ?_, ?_⟩ <;> unfold State.settle <;> split_ifs with hr
  · exact fun hd => absurd hd (by simp [Strand.next])
  · exact fun _ => h.resolve_right fun hz => hr hz.1
  · intro t' ht
    cases ht
    refine (h.resolve_left fun hpos => ?_).2
    rw [refs_eq] at hr
    omega
  · exact hs

/-- What giving up a temporary reference does to the two counts. -/
theorem erase_counts {r : Temporary} (h : r ∈ s.temporaries) :
    ({ s with temporaries := s.temporaries.erase r } : State).outside =
        s.outside - (if r.thread.isWorker = true then 0 else 1) ∧
      ({ s with temporaries := s.temporaries.erase r } : State).onWorkers =
        s.onWorkers - (if r.thread.isWorker = true then 1 else 0) ∧
      (r.thread.isWorker = false → 0 < s.temporaries.countP fun r => !r.thread.isWorker) := by
  have hpos (hw : r.thread.isWorker = false) :
      0 < s.temporaries.countP fun r => !r.thread.isWorker :=
    List.countP_pos_iff.mpr ⟨r, h, by simp [hw]⟩
  refine ⟨?_, ?_, hpos⟩
  · simp only [State.outside, List.countP_erase, h, true_and]
    cases hw : r.thread.isWorker
    · have := hpos hw
      simp
      omega
    · simp
  · simp only [State.onWorkers, List.countP_erase, h, true_and]

theorem safe_step (he : Enabled s a) (hc : Heeds s a) (h : Safe s) : Safe (next s a) := by
  cases a with
  | strand t e =>
    refine ⟨counted_step he h.counted, fun ha => h.outside ?_, h.notOnWorker⟩
    exact (strand_runnerAlive he.1).symm.trans ha
  | lockRunner a =>
    refine ⟨counted_step he h.counted, fun ha => ?_, h.notOnWorker⟩
    have hpos := h.outside ha
    simp only [State.outside, next, List.countP_cons] at hpos ⊢
    omega
  | lockNode t =>
    refine ⟨counted_step he h.counted, fun ha => ?_, h.notOnWorker⟩
    have hpos := h.outside ha
    simp only [State.outside, next, List.countP_cons] at hpos ⊢
    omega
  | copyRef =>
    refine ⟨counted_step he h.counted, fun _ => ?_, h.notOnWorker⟩
    simp only [State.outside, next]
    omega
  | release r =>
    have ha := alive_of_refs h.counted (refs_pos_of_mem he.1)
    have hpos := h.outside ha
    obtain ⟨hout, hon, -⟩ := erase_counts he.1
    apply safe_settle (s := { s with temporaries := s.temporaries.erase r }) h.notOnWorker ha
    rw [refs_eq, hout, hon]
    -- a worker's reference is not among those outside; another thread's is
    cases hw : r.thread.isWorker with
    | true => exact Or.inl (by simpa using hpos)
    -- the last one outside goes only when the workers hold none
    | false =>
      have hz : s.outside = 1 → s.onWorkers = 0 := hc hw
      simp only [Bool.false_eq_true, if_false, and_true]
      omega
  | releaseUser n =>
    have ha := alive_of_refs h.counted (by simp only [State.refs]; exact Nat.add_pos_left he _)
    have hpos := h.outside ha
    apply safe_settle (s := { s with userRefs := s.userRefs - 1 }) h.notOnWorker ha
    have hz : s.outside = 1 → s.onWorkers = 0 := hc
    have hu : 0 < s.userRefs := he
    rw [refs_eq]
    simp only [State.outside, State.onWorkers] at hpos hz ⊢
    have hother : (Thread.other n).isWorker = false := rfl
    simp only [hother, and_true]
    omega

/-- The push a temporary reference was locked for can be made. -/
theorem exists_not_busy (r : Temporary) (hr : r ∈ s.temporaries)
    (ha : s.strand.runnerAlive = true) :
    ∃ as u, system.exec s as = some u ∧ u.busy r.locker = false ∧
      u.temporaries = s.temporaries ∧ u.userRefs = s.userRefs ∧ u.strand.runnerAlive = true := by
  by_cases hb : s.busy r.locker = true
  · cases hl : r.locker with
    | node =>
      rw [hl] at hb
      cases hb
    | push a =>
      obtain ⟨k, hk⟩ : ∃ k, s.strand.pc a = .pushToRunner k := by
        simp only [State.busy, hl, State.pushing] at hb
        split at hb
        case h_1 k hk => exact ⟨k, hk⟩
        case h_2 => cases hb
      -- the push is made through this very reference
      have hlocked : s.hasLocked a = true :=
        List.any_eq_true.mpr ⟨r, hr, decide_eq_true hl⟩
      have he : Enabled s (.strand (s.thread a) (.pushToRunner a k 0)) :=
        ⟨⟨rfl, fun _ => hlocked⟩, hk⟩
      have hst := step_eq_some.mpr ⟨he, rfl⟩
      have hexec : system.exec s [.strand (s.thread a) (.pushToRunner a k 0)] =
          some (next s (.strand (s.thread a) (.pushToRunner a k 0))) := by
        rw [TransitionSystem.exec_cons, hst]
        rfl
      refine ⟨_, _, hexec, ?_, rfl, rfl, ?_⟩
      · simp [State.busy, State.pushing, next, Strand.next, ha, Strand.State.setPc,
          Strand.State.setPhase]
      · exact (strand_runnerAlive he.1).trans ha
  · exact ⟨[], s, rfl, by simpa using hb, rfl, rfl, ha⟩

/-- With no reference left outside them, the workers end the runner. -/
theorem exists_destroyed_on_worker (h : Counted s) (ha : s.strand.runnerAlive = true)
    (hout : s.outside = 0) :
    ∃ as u i, system.exec s as = some u ∧ u.destroyedBy = some (.worker i) := by
  induction hn : s.temporaries.length generalizing s with
  -- on the temporary references, all of them held by workers
  | zero =>
    have hz : s.refs = 0 := by
      simp only [State.outside] at hout
      simp only [State.refs]
      omega
    rw [h, hz] at ha
    cases ha
  | succ n ih =>
    obtain ⟨r, rest, hr⟩ := List.exists_cons_of_length_eq_add_one hn
    have hmem : r ∈ s.temporaries := by simp [hr]
    obtain ⟨i, hi⟩ : ∃ i, r.thread = .worker i := by
      cases ht : r.thread with
      | worker i => exact ⟨i, rfl⟩
      | other n =>
        have hpos := (erase_counts hmem).2.2 (by rw [ht]; rfl)
        simp only [State.outside] at hout
        omega
    obtain ⟨as, u, hexec, hfree, htemps, husers, halive⟩ := exists_not_busy r hmem ha
    have he : Enabled u (.release r) := ⟨htemps ▸ hmem, hfree⟩
    have hnext : next u (.release r) = { u with temporaries := rest }.settle r.thread := by
      simp only [next, htemps, hr, List.erase_cons_head]
    have hstep : system.exec s (as ++ [.release r]) =
        some ({ u with temporaries := rest }.settle r.thread) := by
      rw [system.exec_append_some hexec, TransitionSystem.exec_cons,
        step_eq_some.mpr ⟨he, rfl⟩, hnext]
      rfl
    -- the last of them ends the runner on the thread that releases it
    by_cases hz : ({ u with temporaries := rest } : State).refs = 0
    · refine ⟨_, _, i, hstep, ?_⟩
      simp only [State.settle, if_pos hz, hi]
    · have hsettle : ({ u with temporaries := rest } : State).settle r.thread =
          { u with temporaries := rest } := by
        simp only [State.settle, if_neg hz]
      rw [hsettle] at hstep
      have hcount : Counted { u with temporaries := rest } := by
        change u.strand.runnerAlive = _
        rw [halive, eq_comm, decide_eq_true_eq]
        exact Nat.pos_of_ne_zero hz
      have hout' : ({ u with temporaries := rest } : State).outside = 0 := by
        simp only [State.outside, hr, List.countP_cons] at hout ⊢
        omega
      obtain ⟨bs, v, i, hv, hd⟩ := ih hcount halive hout' (by simpa [hr] using hn)
      exact ⟨_, v, i, (system.exec_append_some hstep bs).trans hv, hd⟩

/-- A step against the condition leaves the runner to the workers. -/
theorem left_to_workers (he : Enabled s a) (h : Counted s) (hc : ¬ Heeds s a) :
    (next s a).strand.runnerAlive = true ∧ (next s a).outside = 0 := by
  have hsettle {s : State} {t : Thread} (hout : s.outside = 0) (hon : s.onWorkers ≠ 0)
      (ha : s.strand.runnerAlive = true) :
      (s.settle t).strand.runnerAlive = true ∧ (s.settle t).outside = 0 := by
    have hr : s.refs ≠ 0 := by
      rw [refs_eq]
      omega
    rw [State.settle, if_neg hr]
    exact ⟨ha, hout⟩
  cases a with
  | strand | lockRunner | lockNode | copyRef => exact absurd trivial hc
  | release r =>
    simp only [Heeds, not_forall] at hc
    obtain ⟨hw, hone, hon⟩ := hc
    obtain ⟨hout, hworkers, -⟩ := erase_counts he.1
    have ha := alive_of_refs h (refs_pos_of_mem he.1)
    refine hsettle (s := { s with temporaries := s.temporaries.erase r }) ?_ ?_ ha
    · simp [hout, hw, hone]
    · simpa [hworkers, hw] using hon
  | releaseUser n =>
    simp only [Heeds, not_forall] at hc
    obtain ⟨hone, hon⟩ := hc
    have hu : 0 < s.userRefs := he
    have ha := alive_of_refs h (by simp only [State.refs]; omega)
    refine hsettle (s := { s with userRefs := s.userRefs - 1 }) ?_ hon ha
    simp only [State.outside] at hone ⊢
    omega

end Steps

/-- When the last reference outside the workers is only given up while the workers have none,
`~JobRunner` never runs on a worker; and wherever it is given up otherwise, the workers can go on
so that one of them runs `~JobRunner`. -/
theorem runner_destroyed_outside_workers (as : List Action) :
    (system.StepsMeet Heeds initial as → system.StatesMeet NotOnWorker initial as) ∧
      ∀ s a t, system.exec initial as = some s → system.step s a = some t → ¬ Heeds s a →
        ∃ bs u i, system.exec t bs = some u ∧ u.destroyedBy = some (.worker i) := by
  constructor
  · intro hc
    refine (hc.statesMeet (P := Safe) safe_initial ?_).mono fun u hu => hu.notOnWorker
    intro u a v hu hc hst
    obtain ⟨he, rfl⟩ := step_eq_some.mp hst
    exact safe_step he hc hu
  · intro s a t h hst hc
    obtain ⟨he, rfl⟩ := step_eq_some.mp hst
    have hcount := reachable_counted ((TransitionSystem.Reachable.init rfl).exec h)
    obtain ⟨ha, hout⟩ := left_to_workers he hcount hc
    exact exists_destroyed_on_worker (counted_step he hcount) ha hout

/-- A user adds two jobs to a strand and worker 0 runs the first; its token's release locks the
runner to push the second. -/
def pushingRun : List Action :=
  ([.call 0 .enqueue, .push 0, .lock (.addJob, 0), .testReady (.addJob, 0),
    .consumeOne (.addJob, 0), .storeReady (.addJob, 0) (some 0),
    .unlock (.addJob, 0) (some 0)] : List Strand.Action).map (.strand (.other 0)) ++
  [.lockRunner (.addJob, 0), .strand (.other 0) (.pushToRunner (.addJob, 0) 0 0),
    .release ⟨.other 0, .push (.addJob, 0)⟩, .strand (.other 0) (.return_ 0)] ++
  ([.call 1 .enqueue, .push 1, .lock (.addJob, 1), .testReady (.addJob, 1),
    .unlock (.addJob, 1) none, .return_ 1] : List Strand.Action).map (.strand (.other 0)) ++
  ([.startJob 0 0, .finishJob 0, .lock (.aliveToken, 0), .testReady (.aliveToken, 0),
    .consumeOne (.aliveToken, 0), .storeReady (.aliveToken, 0) (some 1),
    .unlock (.aliveToken, 0) (some 1)] : List Strand.Action).map (.strand (.worker 0)) ++
  [.lockRunner (.aliveToken, 0)]

/-- The user lets go of the runner after the worker has, or before. -/
def userLastRun : List Action :=
  pushingRun ++ [.strand (.worker 0) (.pushToRunner (.aliveToken, 0) 1 0),
    .release ⟨.worker 0, .push (.aliveToken, 0)⟩, .releaseUser 0]

def workerLastRun : List Action :=
  pushingRun ++ [.releaseUser 0, .strand (.worker 0) (.pushToRunner (.aliveToken, 0) 1 0),
    .release ⟨.worker 0, .push (.aliveToken, 0)⟩]

theorem runner_destroyed_outside_workers_userLastRun :
    system.StatesMeet NotOnWorker initial userLastRun ∧
      (system.after initial userLastRun).destroyedBy = some (.other 0) ∧
      ∃ bs u i, system.exec (next (system.after initial pushingRun) (.releaseUser 0)) bs = some u ∧
        u.destroyedBy = some (.worker i) :=
  ⟨(runner_destroyed_outside_workers userLastRun).1 (by decide), by decide,
    (runner_destroyed_outside_workers pushingRun).2 _ (.releaseUser 0) _
      (system.exec_after (by decide)) (step_eq_some.mpr ⟨by decide, rfl⟩) (by decide)⟩

/-- Worker 0 executes `~JobRunner`, which joins worker 0. -/
theorem worker_destroys_its_runner :
    ¬ system.StatesMeet NotOnWorker initial workerLastRun ∧
      (system.exec initial workerLastRun).isSome = true ∧
      (system.after initial workerLastRun).destroyedBy = some (.worker 0) := by
  refine ⟨fun h => ?_, by decide, by decide⟩
  have hlast := h.last (system.exec_after (by decide)) (.worker 0) (by decide)
  cases hlast

end CrisCore.RunnerLifetime
