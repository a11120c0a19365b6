import CrisCore.RunnerJobs

/-! A job in the queue of a worker that runs is not passed over: it is taken, by this worker or by a
thief, within a number of the worker's own steps that only its place in the queue and the number of
workers decide. And a runner whose workers were joined takes nothing by itself. -/
namespace CrisCore.RunnerJobs
open WorkerLoop (Pc)
open WorkerStop (workerOf)
open WorkerWakeUp (pc_setPc)

def Action.isStepOf (i : ℕ) : Action → Bool
  | .runner e => workerOf e = some i
  | _ => false

/-- After the loop, which a worker leaves when it has seen `shutdown_flag_`. -/
def leaving : Pc → Bool
  | .breakLoop | .leave _ | .storeStopped | .exited => true
  | _ => false

/-- How many steps a running worker takes at most until it takes a job from its own queue, while that
holds one. -/
def stepsToQueue (threadNum : ℕ) : Pc → ℕ
  | .steal => threadNum + 12
  | .scan _ tried => threadNum - tried + 11
  | .foundNothing => 10
  | .deactivate => 9
  | .lock => 8
  | .testShutdown => 7
  | .wait => 6
  | .relock => 5
  | .activate => 4
  | .start | .processing | .unlock => 3
  | .test => 2
  | .tryProcessOne => 1
  | .notCreated | .breakLoop | .leave _ | .storeStopped | .exited => 0

section Worker
variable {r : WorkerLoop.State} {e : WorkerLoop.Action} {i : ℕ}

theorem leaving_next (he : WorkerLoop.Enabled r e)
    (h : leaving ((WorkerLoop.next r e).pc i) = true) :
    leaving (r.pc i) = true ∨ r.shutdown i = true := by
  rcases WorkerWakeUp.pc_next r e i with hp | hturn
  · rw [hp] at h
    exact .inl h
  · by_cases htest : e = .test i ∨ e = .testShutdown i
    · right
      rcases htest with rfl | rfl
      · by_contra hs
        rw [WorkerLoop.next, if_neg hs, pc_setPc, if_pos rfl] at h
        cases h
      · by_contra hs
        rw [WorkerLoop.next, if_neg hs] at h
        change leaving ((r.setPc i .wait).pc i) = true at h
        rw [pc_setPc, if_pos rfl] at h
        cases h
    · left
      generalize (WorkerLoop.next r e).pc i = p at h hturn
      cases hturn with
      | test | testShutdown => exact absurd (by simp) htest
      | steal idx hp => rcases hp with rfl | rfl <;> cases h
      | scan hp => rcases hp with rfl | ⟨_, rfl⟩ | rfl <;> cases h
      | checkTime now now' hp => rcases hp with rfl | rfl <;> cases h
      | breakLoop | leave | storeStopped =>
        rw [he]
        rfl
      | _ => cases h

/-- A running worker whose queue holds a job comes closer to it, unless it takes it. -/
theorem stepsToQueue_next (he : WorkerLoop.Enabled r e) (hi : workerOf e = some i)
    (hs : r.shutdown i = false) (hl : leaving (r.pc i) = false) (hq : 0 < r.jobQueue i) :
    stepsToQueue r.config.threadNum ((WorkerLoop.next r e).pc i) <
      stepsToQueue r.config.threadNum (r.pc i) ∨
    (looksInto r e = some (i, i) ∧ (WorkerLoop.next r e).pc i = .processing) := by
  have hset (p : Pc) : (r.setPc i p).pc i = p := by rw [pc_setPc, if_pos rfl]
  have htake (q : ℕ) (p : Pc) :
      (r.takeJob i q p).pc i = .processing ∨ (r.takeJob i q p).pc i = p := by
    unfold WorkerLoop.State.takeJob
    split_ifs
    · exact .inl (hset _)
    · exact .inr (hset _)
  have hclear : ¬ r.shutdown i = true := by simp [hs]
  -- the job is taken by `TryProcessOne`; every other step is one closer to it
  cases e <;> cases hi <;> simp only [WorkerLoop.Enabled] at he
  case tryProcessOne =>
    right
    rw [WorkerLoop.next, WorkerLoop.State.takeJob, if_pos hq]
    exact ⟨rfl, hset _⟩
  case breakLoop | leave | storeStopped =>
    rw [he] at hl
    cases hl
  all_goals left
  case test =>
    rw [he, WorkerLoop.next, if_neg hclear, hset]
    simp [stepsToQueue]
  case steal idx =>
    rw [he.1, WorkerLoop.next, hset]
    split_ifs <;> simp only [stepsToQueue] <;> omega
  case scan idx tried =>
    rw [he]
    simp only [WorkerLoop.next]
    split
    · rcases htake _ _ with hp | hp <;> rw [hp] <;> simp only [stepsToQueue] <;> omega
    · rw [hset]
      simp only [stepsToQueue]
      omega
  case checkTime now now' =>
    rw [he]
    simp only [WorkerLoop.next]
    split
    · rw [hset]
      simp [stepsToQueue]
    · change stepsToQueue _ ((r.setPc i _).pc i) < _
      rw [hset]
      split_ifs <;> simp [stepsToQueue]
  case testShutdown =>
    rw [he, WorkerLoop.next, if_neg hclear]
    change stepsToQueue _ ((r.setPc i _).pc i) < _
    rw [hset]
    simp [stepsToQueue]
  case lock | relock =>
    rw [he.1]
    change stepsToQueue _ ((r.setPc i _).pc i) < _
    rw [hset]
    simp [stepsToQueue]
  all_goals
    rw [he]
    change stepsToQueue _ ((r.setPc i _).pc i) < _
    rw [hset]
    simp [stepsToQueue]

end Worker

section Queue
variable {s t : State} {a : Action} {i : ℕ}

/-- The runner makes the step, or the workers stay as they are. -/
theorem runner_step (hs : Step s a t) :
    (∃ e, a = .runner e ∧ WorkerLoop.Enabled s.runner e ∧ t.runner = WorkerLoop.next s.runner e) ∨
    ((∀ i, a.isStepOf i = false) ∧ t.runner.pc = s.runner.pc ∧
      t.runner.shutdown = s.runner.shutdown ∧ t.runner.config = s.runner.config ∧
      t.runner.created = s.runner.created) := by
  cases hs with
  | runner he | noJob he | takeJob he => exact .inl ⟨_, rfl, he, rfl⟩
  | @finishJob i he => exact .inl ⟨.finishJob i, rfl, he, rfl⟩
  | steal ha =>
    right
    rcases ha with ⟨_, rfl⟩ | rfl <;> exact ⟨fun _ => rfl, rfl, rfl, rfl, rfl⟩
  | _ => exact .inr ⟨fun _ => rfl, rfl, rfl, rfl, rfl⟩

/-- A step leaves a queue as it is, adds a job behind the others, or takes the first one away. -/
theorem queue_step (hs : Step s a t) (i : ℕ) :
    t.queue i = s.queue i ∨ (∃ job, t.queue i = s.queue i ++ [job]) ∨
    ∃ job, s.queue i = job :: t.queue i ∧
      (s.destroyed = true ∨ t.taken i = s.taken i ++ [job]) := by
  cases hs with
  | @takeJob e j q job rest he hlooks hq | @stealJob u q job rest hu hq =>
    rcases eq_or_ne i q with rfl | hne
    · exact .inr (.inr ⟨job, by simp [hq], .inr (Function.update_self ..)⟩)
    · exact .inl (Function.update_of_ne hne ..)
  | @push k q job left hk =>
    rcases eq_or_ne i q with rfl | hne
    · exact .inr (.inl ⟨job, Function.update_self ..⟩)
    · exact .inl (Function.update_of_ne hne ..)
  | @discard q job rest hd hq =>
    rcases eq_or_ne i q with rfl | hne
    · exact .inr (.inr ⟨job, by simp [hq], .inl hd⟩)
    · exact .inl (Function.update_of_ne hne ..)
  | _ => exact .inl rfl

/-- Where a waiting job goes: nowhere, or one place forward. -/
theorem place_step (hs : Step s a t) (hd : s.destroyed = false) {before after : List JobId}
    {job : JobId} (hq : s.queue i = before ++ job :: after) (hjob : job ∉ t.taken i) :
    ∃ before' after', t.queue i = before' ++ job :: after' ∧
      (before' = before ∧ (s.queue i).length ≤ (t.queue i).length ∨
        before'.length + 1 = before.length) := by
  rcases queue_step hs i with hsame | ⟨new, hpush⟩ | ⟨first, hpop, htake⟩
  · exact ⟨before, after, hsame.trans hq, .inl ⟨rfl, by rw [hsame]⟩⟩
  · refine ⟨before, after ++ [new], ?_, .inl ⟨rfl, ?_⟩⟩
    · rw [hpush, hq, List.append_assoc, List.cons_append]
    · rw [hpush, List.length_append]
      exact Nat.le_add_right ..
  · have htaken := htake.resolve_left (by simp [hd])
    rw [hq] at hpop
    cases before with
    | nil =>
      obtain ⟨rfl, -⟩ := List.cons.inj hpop
      exact absurd (by rw [htaken]; simp) hjob
    | cons b before =>
      obtain ⟨-, hrest⟩ := List.cons.inj hpop
      exact ⟨before, after, hrest.symm, .inr rfl⟩

theorem queue_take {e : WorkerLoop.Action} {j q : ℕ} (hs : Step s (.runner e) t)
    (hlooks : looksInto s.runner e = some (j, q)) (hq : s.queue q ≠ []) :
    (t.queue q).length < (s.queue q).length := by
  cases hs with
  | runner he hadd hfinish hnone => rw [hnone] at hlooks; cases hlooks
  | noJob he hlooks' hq' =>
    cases hlooks'.symm.trans hlooks
    exact absurd hq' hq
  | takeJob he hlooks' hq' =>
    cases hlooks'.symm.trans hlooks
    simp [hq']
  | finishJob he => cases hlooks
  | steal ha => rcases ha with ⟨_, ha⟩ | ha <;> cases ha

theorem taken_exec {as : List Action} (h : Linked s) (hrun : system.exec s as = some t) (q : ℕ) :
    s.taken q <+: t.taken q := by
  obtain ⟨ops, hops⟩ := ledger_exec h hrun
  exact (Ledger.grows_exec hops q).2

theorem shutdown_step (hs : Step s a t) (h : s.runner.shutdown i = true) :
    t.runner.shutdown i = true := by
  rcases runner_step hs with ⟨e, -, -, hrunner⟩ | ⟨-, -, hshutdown, -⟩
  · rw [hrunner]
    exact WorkerStop.shutdown_next.mpr (.inl h)
  · rw [hshutdown]
    exact h

theorem shutdown_exec {as : List Action} (hrun : system.exec s as = some t)
    (h : t.runner.shutdown i = false) : s.runner.shutdown i = false := by
  by_contra hs
  have ht : t.runner.shutdown i = true := by
    refine TransitionSystem.exec_induction (P := fun u => u.runner.shutdown i = true)
      (by simpa using hs) ?_ hrun
    intro u a v hu hv
    exact shutdown_step (step_cases hv).1 hu
  rw [h] at ht
  cases ht

theorem leaving_of_reachable (h : system.Reachable s) (hl : leaving (s.runner.pc i) = true) :
    s.runner.shutdown i = true := by
  refine h.invariant (P := fun s => leaving (s.runner.pc i) = true → s.runner.shutdown i = true)
    ?_ ?_ hl
  · rintro s ⟨config, rfl⟩ hf
    cases hf
  · intro u a v hu hv hlv
    have hstep := (step_cases hv).1
    apply shutdown_step hstep
    rcases runner_step hstep with ⟨e, -, he, hrunner⟩ | ⟨-, hpc, -⟩
    · rw [hrunner] at hlv
      exact (leaving_next he hlv).elim hu id
    · rw [hpc] at hlv
      exact hu hlv

/-- The runner of a worker that is not told to stop is not destroyed. -/
theorem destroyed_of_shutdown (h : system.Reachable s) (hi : i < s.runner.created)
    (hs : s.runner.shutdown i = false) : s.destroyed = false := by
  by_contra hd
  obtain ⟨hcreated, hjoined⟩ := joined_of_destroyed h (by simpa using hd)
  have hexited := (reachable_linked h).runner.joined i (hjoined i (hcreated ▸ hi))
  have hset := leaving_of_reachable h (i := i) (by rw [hexited]; rfl)
  rw [hs] at hset
  cases hset

theorem stepsToQueue_le (n : ℕ) (p : Pc) : stepsToQueue n p ≤ n + 12 := by
  cases p <;> simp only [stepsToQueue] <;> omega

theorem config_step (hs : Step s a t) :
    t.runner.config = s.runner.config ∧ s.runner.created ≤ t.runner.created := by
  rcases runner_step hs with ⟨e, -, -, hrunner⟩ | ⟨-, -, -, hconfig, hcreated⟩
  · rw [hrunner]
    exact ⟨WorkerLoop.config_next _ _, WorkerStop.created_le_next⟩
  · exact ⟨hconfig, hcreated.ge⟩

/-- What a step does to a job that waits and to the worker whose queue it is in, counted together. -/
theorem rank_step (h : system.Reachable s) (hi : i < s.runner.created)
    (hshutdown : s.runner.shutdown i = false) (hstep : Step s a t) {before after : List JobId}
    {job : JobId} (hq : s.queue i = before ++ job :: after) (hjob : job ∉ t.taken i) :
    ∃ before' after', t.queue i = before' ++ job :: after' ∧
      before'.length * (s.threadNum + 12) + stepsToQueue s.threadNum (t.runner.pc i) +
          (if a.isStepOf i then 1 else 0) ≤
        before.length * (s.threadNum + 12) + stepsToQueue s.threadNum (s.runner.pc i) := by
  obtain ⟨before', after', hq', hplace⟩ :=
    place_step hstep (destroyed_of_shutdown h hi hshutdown) hq hjob
  refine ⟨before', after', hq', ?_⟩
  have hle : before'.length * (s.threadNum + 12) ≤ before.length * (s.threadNum + 12) := by
    apply Nat.mul_le_mul_right
    rcases hplace with ⟨rfl, -⟩ | hlen
    · exact Nat.le_refl _
    · omega
  by_cases hown : a.isStepOf i = true
  -- a step of the worker itself brings it closer to its queue, or takes a job in front
  · rw [if_pos hown]
    obtain ⟨e, rfl, he, hrunner⟩ := (runner_step hstep).resolve_right
      fun hother => by simp [hother.1 i] at hown
    have hleaving : leaving (s.runner.pc i) = false := by
      by_contra hl
      have hset := leaving_of_reachable h (i := i) (by simpa using hl)
      rw [hshutdown] at hset
      cases hset
    have hwaiting : 0 < s.runner.jobQueue i := by
      rw [(reachable_linked h).counted, hq, List.length_append, List.length_cons]
      omega
    rw [hrunner]
    rcases stepsToQueue_next he (by simpa [Action.isStepOf] using hown) hshutdown hleaving hwaiting
      with hless | ⟨hlooks, hprocessing⟩
    · have hless : stepsToQueue s.threadNum ((WorkerLoop.next s.runner e).pc i) <
        stepsToQueue s.threadNum (s.runner.pc i) := hless
      omega
    · -- the job before it is taken, so all places in front of it move up by one
      have hshort := queue_take hstep hlooks (by simp [hq])
      have hlen : before'.length + 1 = before.length :=
        hplace.resolve_left fun hsame => absurd hsame.2 (Nat.not_le.mpr hshort)
      rw [hprocessing, ← hlen, Nat.succ_mul]
      simp only [stepsToQueue]
      omega
  · rw [if_neg hown]
    have hpc : t.runner.pc i = s.runner.pc i := by
      rcases runner_step hstep with ⟨e, rfl, -, hrunner⟩ | ⟨-, hpc, -⟩
      · rw [hrunner]
        exact WorkerStop.pc_next_other hi (by simpa [Action.isStepOf] using hown)
      · rw [hpc]
    rw [hpc]
    omega

theorem steps_before_take {as : List Action} (h : system.Reachable s)
    (hi : i < s.runner.created) (hrun : system.exec s as = some t)
    (hrunning : t.runner.shutdown i = false) {before after : List JobId} {job : JobId}
    (hq : s.queue i = before ++ job :: after) (hjob : job ∉ t.taken i) :
    as.countP (·.isStepOf i) ≤
      before.length * (s.threadNum + 12) + stepsToQueue s.threadNum (s.runner.pc i) := by
  induction as generalizing s before after with
  | nil => exact Nat.zero_le _
  | cons a as ih =>
    obtain ⟨u, hu, he⟩ := Option.bind_eq_some_iff.mp hrun
    have hstep := (step_cases hu).1
    obtain ⟨hconfig, hcreated⟩ := config_step hstep
    have hthreads : u.threadNum = s.threadNum := congrArg WorkerLoop.Config.threadNum hconfig
    have hjobu : job ∉ u.taken i := fun hmem =>
      hjob ((taken_exec (reachable_linked (h.step hu)) he i).subset hmem)
    obtain ⟨before', after', hq', hrank⟩ :=
      rank_step h hi (shutdown_exec hrun hrunning) hstep hq hjobu
    have hrest := ih (h.step hu) (Nat.lt_of_lt_of_le hi hcreated) he hq'
    rw [hthreads] at hrest
    rw [List.countP_cons]
    omega

end Queue

/-- A worker that is not told to stop leaves no job behind. Whatever the other workers, thieves and
callers do in between, a job with `before.length` jobs in front of it has been taken, by someone, once
the worker has made that many more steps of its own. -/
theorem queued_job_is_taken {s t : State} {as : List Action} {i : ℕ} {before after : List JobId}
    {job : JobId} (h : system.Reachable s) (hi : i < s.runner.created)
    (hq : s.queue i = before ++ job :: after) (hrun : system.exec s as = some t)
    (hrunning : t.runner.shutdown i = false)
    (hsteps : (before.length + 1) * (s.threadNum + 12) < as.countP (·.isStepOf i)) :
    job ∈ t.taken i := by
  by_contra hjob
  have hle := steps_before_take h hi hrun hrunning hq hjob
  have hbound := stepsToQueue_le s.threadNum (s.runner.pc i)
  rw [Nat.succ_mul] at hsteps
  omega

/-- One job waits in the queue of the only worker, which has not begun. -/
def oneJobRun : List Action :=
  [.runner .createWorker, .runner (.setReadyForStealing true), .addJobs 0 0 1, .push 0]

def workerSteps : List WorkerLoop.Action :=
  [.start 0 0, .test 0, .tryProcessOne 0, .finishJob 0, .test 0, .tryProcessOne 0, .steal 0 0,
    .scan 0 0 0, .scan 0 1 1, .checkTime 0 0 0, .deactivate 0, .lock 0, .testShutdown 0, .wakeUp 0]

theorem queued_job_is_taken_oneJobRun :
    0 ∈ (system.after (initial WorkerWakeUp.oneWorker)
      (oneJobRun ++ workerSteps.map .runner)).taken 0 := by
  have hq : (system.after (initial WorkerWakeUp.oneWorker) oneJobRun).queue 0 = [] ++ 0 :: [] := by
    decide
  exact queued_job_is_taken (.after (init_initial WorkerWakeUp.oneWorker) oneJobRun)
    (by decide) hq (system.exec_after_append (by decide)) (by decide) (by decide)

section Joined
variable {s t : State} {a : Action}

theorem joined_next {r : WorkerLoop.State} {e : WorkerLoop.Action} {i : ℕ}
    (h : r.joined i = true) : (WorkerLoop.next r e).joined i = true := by
  cases e with
  | join j =>
    simp only [WorkerLoop.next, Function.update_apply]
    split_ifs
    · rfl
    · exact h
  | tryProcessOne j =>
    simp only [WorkerLoop.next, WorkerLoop.State.takeJob]
    split <;> exact h
  | scan j idx tried =>
    simp only [WorkerLoop.next, WorkerLoop.State.takeJob]
    (repeat' split) <;> exact h
  | checkTime j now now' =>
    simp only [WorkerLoop.next]
    split <;> exact h
  | testShutdown j =>
    simp only [WorkerLoop.next]
    split <;> exact h
  | _ => exact h

/-- A joined worker is behind its loop, and there is no other one. -/
theorem not_looking (h : system.Reachable s) (hj : s.Joined) {e : WorkerLoop.Action} {i q : ℕ}
    (he : WorkerLoop.Enabled s.runner e) : looksInto s.runner e ≠ some (i, q) := by
  have hnone (j : ℕ) : s.runner.pc j = .notCreated ∨ s.runner.pc j = .exited := by
    have hrunner := (reachable_linked h).runner
    by_cases hpc : s.runner.pc j = .notCreated
    · exact .inl hpc
    · exact .inr (hrunner.joined j (hj.2 j (hj.1 ▸ hrunner.created j hpc)))
  cases e with
  | tryProcessOne j | scan j idx tried =>
    simp only [WorkerLoop.Enabled] at he
    rcases hnone j with hpc | hpc <;> rw [he] at hpc <;> cases hpc
  | _ => simp [looksInto]

theorem joined_step (h : system.Reachable s) (hj : s.Joined) (hs : Step s a t)
    (hscan : ∀ u, a ≠ .scan u) : t.Joined ∧ t.taken = s.taken := by
  have hrunner {e : WorkerLoop.Action} (he : WorkerLoop.Enabled s.runner e)
      (ht : t.runner = WorkerLoop.next s.runner e) : t.Joined := by
    have hne : e ≠ .createWorker := by
      rintro rfl
      exact absurd he (by simp [WorkerLoop.Enabled, hj.1, State.threadNum])
    have hconfig : t.threadNum = s.threadNum := by
      rw [State.threadNum, ht, WorkerLoop.config_next, State.threadNum]
    refine ⟨?_, fun i hi => ?_⟩
    · rw [hconfig, ht, WorkerLoop.created_next, if_neg hne]
      exact hj.1
    · rw [ht]
      exact joined_next (hj.2 i (hconfig ▸ hi))
  cases hs with
  | runner he => exact ⟨hrunner he rfl, rfl⟩
  | noJob he hlooks | takeJob he hlooks => exact absurd hlooks (not_looking h hj he)
  | @finishJob i he => exact ⟨hrunner (e := .finishJob i) he rfl, rfl⟩
  | stealJob => exact absurd rfl (hscan _)
  | _ => exact ⟨hj, rfl⟩

end Joined

/-- After `Stop` and `Join` the runner takes no job any more, unless somebody calls `Steal`. What is
in its queues, and all that `AddJob` still accepts, stays there until the destructor throws it
away. -/
theorem joined_runner_starts_nothing {s t : State} {as : List Action} (h : system.Reachable s)
    (hj : s.Joined) (hrun : system.exec s as = some t) (hscan : ∀ u, .scan u ∉ as) :
    t.taken = s.taken ∧
    ∀ q job, job ∈ t.pushed q → job ∉ s.taken q → job ∈ t.queue q ∨ job ∈ t.discarded q := by
  have hkept : t.taken = s.taken := by
    induction as generalizing s with
    | nil =>
      cases hrun
      rfl
    | cons a as ih =>
      obtain ⟨u, hu, he⟩ := Option.bind_eq_some_iff.mp hrun
      obtain ⟨hju, htaken⟩ := joined_step h hj (step_cases hu).1
        fun v heq => hscan v (heq ▸ List.mem_cons_self)
      have hrest := ih (h.step hu) hju he fun v hv => hscan v (List.mem_cons_of_mem a hv)
      exact hrest.trans htaken
  refine ⟨hkept, fun q job hpushed hnot => ?_⟩
  have hfifo := (Ledger.reachable_inv (reachable_ledger (h.exec hrun))).1.fifo q
  change t.taken q ++ t.discarded q ++ t.queue q = t.pushed q at hfifo
  rw [← hfifo, hkept, List.mem_append, List.mem_append, or_assoc] at hpushed
  exact (hpushed.resolve_left hnot).symm

/-- The only worker is stopped and joined while a job waits; another one comes, and the runner is
destroyed. -/
def stoppedRun : List Action :=
  [.runner .createWorker, .runner (.setReadyForStealing true), .runner (.start 0 0),
    .addJobs 0 0 1, .push 0, .runner (.stopLock 0), .runner (.stopExchange 0),
    .runner (.stopUnlock 0), .runner (.test 0), .runner (.leave 0 false), .runner (.storeStopped 0),
    .runner (.join 0)]

def lateRun : List Action :=
  [.addJobs 1 0 1, .push 1, .return_ 1, .destroy, .discard 0, .discard 0]

theorem joined_runner_starts_nothing_lateRun :
    (system.after (initial WorkerWakeUp.oneWorker) (stoppedRun ++ lateRun)).discarded 0 = [0, 1] ∧
    (system.after (initial WorkerWakeUp.oneWorker) (stoppedRun ++ lateRun)).taken =
      (system.after (initial WorkerWakeUp.oneWorker) stoppedRun).taken :=
  ⟨by decide, (joined_runner_starts_nothing (.after (init_initial WorkerWakeUp.oneWorker) stoppedRun)
    (by decide) (system.exec_after_append (by decide)) (by simp [lateRun])).1⟩

end CrisCore.RunnerJobs
