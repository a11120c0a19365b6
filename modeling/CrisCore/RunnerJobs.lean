import CrisCore.JobLedger
import CrisCore.WorkerStop

/-! The jobs of a runner: `AddJob` and `AddJobs` of any callers, the workers, callers of the public
`Steal`, and the destructors of the queues. `WorkerLoop` counts jobs; here each one has an identity,
and the workers take exactly the steps they take there. -/
namespace CrisCore.RunnerJobs
open WorkerLoop (Config Pc)
open WorkerStop (workerOf)
open WorkerWakeUp (pc_setPc Turn)

abbrev JobId := ℕ

/-- Who runs a job: a worker, or an activation of `Steal` outside of `WorkerLoop`, on whatever
thread (a job may call it too). -/
inductive Runner
  | worker (i : ℕ)
  | stealer (t : ℕ)
  deriving DecidableEq

inductive StealPc
  | idle
  | scan (idx tried : ℕ)
  | processing
  deriving DecidableEq

/-- A call of `AddJob` or `AddJobs`: the worker it has chosen and the jobs it has not pushed yet. -/
inductive CallPc
  | idle
  | pushing (worker : ℕ) (left : List JobId)
  deriving DecidableEq

def CallPc.left : CallPc → List JobId
  | .idle => []
  | .pushing _ left => left

structure State where
  runner : WorkerLoop.State
  /-- The jobs that callers have brought so far are the numbers below it. -/
  jobs : ℕ
  call : ℕ → CallPc
  /-- `job_queue_` of each worker. -/
  queue : ℕ → List JobId
  /-- What `TryGetOneJob` has returned: the job a runner calls next, or runs. -/
  current : Runner → Option JobId
  stealer : ℕ → StealPc
  finished : List JobId
  /-- The body of `~JobRunner` has ended; only the queues are left. -/
  destroyed : Bool
  /-- What `~JobLockFreeQueue` consumes without running it. -/
  discarded : ℕ → List JobId
  /-- History: the jobs pushed to a queue, and those taken from it. -/
  pushed : ℕ → List JobId
  taken : ℕ → List JobId

def initial (config : Config) : State where
  runner := WorkerLoop.initial config
  jobs := 0
  call := fun _ => .idle
  queue := fun _ => []
  current := fun _ => none
  stealer := fun _ => .idle
  finished := []
  destroyed := false
  discarded := fun _ => []
  pushed := fun _ => []
  taken := fun _ => []

inductive Action
  /-- A step of the workers, of the constructor, of `Stop` or of `Join`. -/
  | runner (e : WorkerLoop.Action)
  /-- `AddJob` brings one job. -/
  | addJobs (k schedulerHint jobNum : ℕ)
  | push (k : ℕ)
  | return_ (k : ℕ)
  -- Steal, outside of WorkerLoop
  | steal (t idx : ℕ)
  | scan (t : ℕ)
  | finishJob (t : ℕ)
  -- the end of ~JobRunner, and ~JobRunnerWorker
  | destroy
  | discard (q : ℕ)
  deriving DecidableEq

/-- Behind the last worker the loop of `Steal` goes on with the first. -/
def wrap (threadNum idx : ℕ) : ℕ :=
  if threadNum ≤ idx then idx - threadNum else idx

/-- The worker that calls `TryProcessOne` in a step, and the queue it looks into. -/
def looksInto (r : WorkerLoop.State) : WorkerLoop.Action → Option (ℕ × ℕ)
  | .tryProcessOne i => some (i, i)
  | .scan i idx tried =>
    if tried < r.config.threadNum then some (i, wrap r.config.threadNum idx) else none
  | _ => none

namespace State

def threadNum (s : State) : ℕ := s.runner.config.threadNum

def Joined (s : State) : Prop :=
  s.runner.created = s.threadNum ∧ ∀ i, i < s.threadNum → s.runner.joined i = true

instance (s : State) : Decidable s.Joined :=
  inferInstanceAs (Decidable (_ ∧ ∀ i, i < s.threadNum → _))

def workerIdx (s : State) (schedulerHint : ℕ) : ℕ :=
  if schedulerHint < s.threadNum then schedulerHint else schedulerHint % s.threadNum

/-- `TryGetOneJob` on the queue of worker `q`: `r` now has its oldest job. The call `(*job)()` comes
later, anywhere before `finish`. -/
def take (s : State) (r : Runner) (q : ℕ) : State :=
  match s.queue q with
  | [] => s
  | job :: rest => { s with
      queue := Function.update s.queue q rest
      current := Function.update s.current r (some job)
      taken := Function.update s.taken q (s.taken q ++ [job]) }

def finish (s : State) (r : Runner) : State :=
  { s with
    current := Function.update s.current r none
    finished := s.finished ++ (s.current r).toList }

/-- The queue of worker `q` has lost its oldest job. -/
def popped (s : State) (q : ℕ) (rest : List JobId) : WorkerLoop.State :=
  { s.runner with jobQueue := Function.update s.runner.jobQueue q rest.length }

def runnerStep (s : State) (e : WorkerLoop.Action) : State :=
  let s' := { s with runner := WorkerLoop.next s.runner e }
  match e, looksInto s.runner e with
  | .finishJob i, _ => s'.finish (.worker i)
  | _, some (i, q) => s'.take (.worker i) q
  | _, none => s'

/-- Everything up to the end of `~JobRunner`. -/
def next (s : State) : Action → Option State
  | .runner (.addJob _) => none
  | .runner e => if WorkerLoop.Enabled s.runner e then some (s.runnerStep e) else none
  | .addJobs k hint jobNum =>
    if s.call k = .idle ∧ 0 < s.threadNum ∧ s.runner.created = s.threadNum then
      some { s with
        jobs := s.jobs + jobNum
        call := Function.update s.call k
          (.pushing (s.workerIdx hint) (List.range' s.jobs jobNum)) }
    else none
  | .push k =>
    match s.call k with
    | .pushing q (job :: left) => some { s with
        runner := WorkerLoop.next s.runner (.addJob q)
        call := Function.update s.call k (.pushing q left)
        queue := Function.update s.queue q (s.queue q ++ [job])
        pushed := Function.update s.pushed q (s.pushed q ++ [job]) }
    | _ => none
  | .return_ k =>
    match s.call k with
    | .pushing _ [] => some { s with call := Function.update s.call k .idle }
    | _ => none
  | .steal t idx =>
    if s.stealer t = .idle ∧ idx ≤ s.threadNum then
      some { s with
        stealer := Function.update s.stealer t
          (if s.runner.readyForStealing then .scan idx 0 else .idle) }
    else none
  | .scan t =>
    match s.stealer t with
    | .scan idx tried =>
      if tried < s.threadNum then
        match s.queue (wrap s.threadNum idx) with
        | [] => some { s with
            stealer := Function.update s.stealer t (.scan (wrap s.threadNum idx + 1) (tried + 1)) }
        | _ :: rest => some { s.take (.stealer t) (wrap s.threadNum idx) with
            runner := s.popped (wrap s.threadNum idx) rest
            stealer := Function.update s.stealer t .processing }
      else some { s with stealer := Function.update s.stealer t .idle }
    | _ => none
  | .finishJob t =>
    if s.stealer t = .processing then
      some { s.finish (.stealer t) with stealer := Function.update s.stealer t .idle }
    else none
  | .destroy => if s.Joined then some { s with destroyed := true } else none
  | .discard _ => none

/-- `ConsumeAll([](auto&&) {})` takes the next job. -/
def discardOne (s : State) (q : ℕ) : Option State :=
  match s.queue q with
  | job :: rest => some { s with
      runner := s.popped q rest
      queue := Function.update s.queue q rest
      discarded := Function.update s.discarded q (s.discarded q ++ [job]) }
  | [] => none

def step (s : State) (a : Action) : Option State :=
  match a with
  | .discard q => if s.destroyed then s.discardOne q else none
  | a => if s.destroyed then none else s.next a

end State

def system : TransitionSystem State Action where
  init s := ∃ config, s = initial config
  step := State.step

theorem init_initial (config : Config) : system.init (initial config) := ⟨config, rfl⟩

section RunnerSteps
variable {r : WorkerLoop.State} {e : WorkerLoop.Action} {i q : ℕ}

theorem next_of_looksInto (h : looksInto r e = some (i, q)) :
    ∃ p, p ≠ .processing ∧ WorkerLoop.next r e = r.takeJob i q p := by
  cases e with
  | tryProcessOne j =>
    cases h
    exact ⟨.steal, by simp, rfl⟩
  | scan j idx tried =>
    simp only [looksInto] at h
    split_ifs at h with ht
    cases h
    refine ⟨.scan (wrap r.config.threadNum idx + 1) (tried + 1), by simp, ?_⟩
    rw [WorkerLoop.next, if_pos ht]
    rfl
  | _ => cases h

theorem jobQueue_next (h : looksInto r e = none) (he : ∀ j, e ≠ .addJob j) :
    (WorkerLoop.next r e).jobQueue = r.jobQueue := by
  cases e with
  | addJob j => exact absurd rfl (he j)
  | tryProcessOne j => cases h
  | scan j idx tried =>
    simp only [looksInto] at h
    split_ifs at h with ht
    rw [WorkerLoop.next, if_neg ht]
    rfl
  | checkTime j now now' =>
    simp only [WorkerLoop.next]
    split <;> rfl
  | testShutdown j =>
    simp only [WorkerLoop.next]
    split <;> rfl
  | _ => rfl

/-- A worker begins and ends a job only where the jobs are handed over. -/
theorem processing_next (hr : WorkerLoop.Inv r) (he : WorkerLoop.Enabled r e)
    (h : looksInto r e = none) (hf : ∀ j, e ≠ .finishJob j) :
    (WorkerLoop.next r e).pc i = .processing ↔ r.pc i = .processing := by
  rcases WorkerWakeUp.pc_next r e i with hp | hturn
  · rw [hp]
  · have hbefore : r.pc i ≠ .processing := by
      generalize (WorkerLoop.next r e).pc i = p at hturn
      cases hturn with
      | createWorker hi =>
        intro hp
        exact absurd (hr.created i (by simp [hp])) (by omega)
      | ownJob | noOwnJob => cases h
      | finishJob => exact absurd rfl (hf i)
      | steal | lock | relock => simp [he.1]
      | _ => rw [he]; simp
    have hafter : (WorkerLoop.next r e).pc i ≠ .processing := by
      by_cases hscan : ∃ idx tried, e = .scan i idx tried
      · obtain ⟨idx, tried, rfl⟩ := hscan
        simp only [looksInto] at h
        split_ifs at h with ht
        rw [WorkerLoop.next, if_neg ht, pc_setPc, if_pos rfl]
        simp
      · generalize (WorkerLoop.next r e).pc i = p at hturn
        cases hturn with
        | ownJob | noOwnJob => cases h
        | scan => exact absurd ⟨_, _, rfl⟩ hscan
        | test hp | steal _ hp | checkTime _ _ hp | testShutdown hp =>
          rcases hp with rfl | rfl <;> simp
        | _ => simp
    simp only [hbefore, hafter]

end RunnerSteps

/-- What a step does, with the state it leads to. -/
inductive Step (s : State) : Action → State → Prop
  | runner {e : WorkerLoop.Action} (he : WorkerLoop.Enabled s.runner e)
      (hadd : ∀ i, e ≠ .addJob i) (hfinish : ∀ i, e ≠ .finishJob i)
      (hnone : looksInto s.runner e = none) :
    Step s (.runner e) { s with runner := WorkerLoop.next s.runner e }
  | noJob {e : WorkerLoop.Action} {i q : ℕ} (he : WorkerLoop.Enabled s.runner e)
      (hlooks : looksInto s.runner e = some (i, q)) (hq : s.queue q = []) :
    Step s (.runner e) { s with runner := WorkerLoop.next s.runner e }
  | takeJob {e : WorkerLoop.Action} {i q : ℕ} {job : JobId} {rest : List JobId}
      (he : WorkerLoop.Enabled s.runner e) (hlooks : looksInto s.runner e = some (i, q))
      (hq : s.queue q = job :: rest) :
    Step s (.runner e) { s with
      runner := WorkerLoop.next s.runner e
      queue := Function.update s.queue q rest
      current := Function.update s.current (.worker i) (some job)
      taken := Function.update s.taken q (s.taken q ++ [job]) }
  | finishJob {i : ℕ} (he : s.runner.pc i = .processing) :
    Step s (.runner (.finishJob i)) { s with
      runner := WorkerLoop.next s.runner (.finishJob i)
      current := Function.update s.current (.worker i) none
      finished := s.finished ++ (s.current (.worker i)).toList }
  | addJobs {k : ℕ} (hint jobNum : ℕ) (hk : s.call k = .idle) :
    Step s (.addJobs k hint jobNum) { s with
      jobs := s.jobs + jobNum
      call := Function.update s.call k
        (.pushing (s.workerIdx hint) (List.range' s.jobs jobNum)) }
  | push {k q : ℕ} {job : JobId} {left : List JobId} (hk : s.call k = .pushing q (job :: left)) :
    Step s (.push k) { s with
      runner := WorkerLoop.next s.runner (.addJob q)
      call := Function.update s.call k (.pushing q left)
      queue := Function.update s.queue q (s.queue q ++ [job])
      pushed := Function.update s.pushed q (s.pushed q ++ [job]) }
  | return_ {k q : ℕ} (hk : s.call k = .pushing q []) :
    Step s (.return_ k) { s with call := Function.update s.call k .idle }
  | steal {t : ℕ} {p : StealPc} {a : Action} (ha : (∃ idx, a = .steal t idx) ∨ a = .scan t)
      (ht : s.stealer t ≠ .processing) (hp : p ≠ .processing) :
    Step s a { s with stealer := Function.update s.stealer t p }
  | stealJob {t q : ℕ} {job : JobId} {rest : List JobId} (ht : s.stealer t ≠ .processing)
      (hq : s.queue q = job :: rest) :
    Step s (.scan t) { s with
      runner := s.popped q rest
      queue := Function.update s.queue q rest
      current := Function.update s.current (.stealer t) (some job)
      stealer := Function.update s.stealer t .processing
      taken := Function.update s.taken q (s.taken q ++ [job]) }
  | stealDone {t : ℕ} (ht : s.stealer t = .processing) :
    Step s (.finishJob t) { s with
      current := Function.update s.current (.stealer t) none
      stealer := Function.update s.stealer t .idle
      finished := s.finished ++ (s.current (.stealer t)).toList }
  | destroy (h : s.Joined) : Step s .destroy { s with destroyed := true }
  | discard {q : ℕ} {job : JobId} {rest : List JobId} (hd : s.destroyed = true)
      (hq : s.queue q = job :: rest) :
    Step s (.discard q) { s with
      runner := s.popped q rest
      queue := Function.update s.queue q rest
      discarded := Function.update s.discarded q (s.discarded q ++ [job]) }

section Steps
variable {s t : State} {a : Action}

theorem runnerStep_cases {e : WorkerLoop.Action} (he : WorkerLoop.Enabled s.runner e)
    (hadd : ∀ i, e ≠ .addJob i) : Step s (.runner e) (s.runnerStep e) := by
  by_cases hfinish : ∃ i, e = .finishJob i
  · obtain ⟨i, rfl⟩ := hfinish
    exact .finishJob he
  · have hfin (i : ℕ) : e ≠ .finishJob i := fun heq => hfinish ⟨i, heq⟩
    cases hlooks : looksInto s.runner e with
    | none =>
      have hstep : s.runnerStep e = { s with runner := WorkerLoop.next s.runner e } := by
        cases e <;> simp_all [State.runnerStep]
      rw [hstep]
      exact .runner he hadd hfin hlooks
    | some iq =>
      obtain ⟨i, q⟩ := iq
      have hstep : s.runnerStep e =
          { s with runner := WorkerLoop.next s.runner e }.take (.worker i) q := by
        cases e <;> simp_all [State.runnerStep]
      rw [hstep]
      cases hq : s.queue q with
      | nil =>
        rw [State.take, show ({ s with runner := _ } : State).queue q = [] from hq]
        exact .noJob he hlooks hq
      | cons job rest =>
        rw [State.take, show ({ s with runner := _ } : State).queue q = job :: rest from hq]
        exact .takeJob he hlooks hq

theorem step_of_next (h : s.next a = some t) : Step s a t := by
  cases a with
  | runner e =>
    by_cases hadd : ∃ i, e = .addJob i
    · obtain ⟨i, rfl⟩ := hadd
      cases h
    · have hne (i : ℕ) : e ≠ .addJob i := fun heq => hadd ⟨i, heq⟩
      have hnext : s.next (.runner e) =
          if WorkerLoop.Enabled s.runner e then some (s.runnerStep e) else none := by
        cases e with
        | addJob i => exact absurd rfl (hne i)
        | _ => rfl
      rw [hnext] at h
      split_ifs at h with he
      cases h
      exact runnerStep_cases he hne
  | addJobs k hint jobNum =>
    simp only [State.next] at h
    split_ifs at h with hk
    cases h
    exact .addJobs hint jobNum hk.1
  | push k =>
    simp only [State.next] at h
    split at h
    · cases h
      exact .push ‹_›
    · cases h
  | return_ k =>
    simp only [State.next] at h
    split at h
    · cases h
      exact .return_ ‹_›
    · cases h
  | steal u idx =>
    simp only [State.next] at h
    split_ifs at h with hu hready
    · cases h
      exact .steal (.inl ⟨idx, rfl⟩) (by simp [hu.1]) (by simp)
    · cases h
      exact .steal (.inl ⟨idx, rfl⟩) (by simp [hu.1]) (by simp)
  | scan u =>
    simp only [State.next] at h
    split at h
    · rename_i idx tried hu
      split_ifs at h with ht
      · split at h
        · cases h
          exact .steal (.inr rfl) (by simp [hu]) (by simp)
        · rename_i job rest hq
          cases h
          rw [State.take, hq]
          exact .stealJob (by simp [hu]) hq
      · cases h
        exact .steal (.inr rfl) (by simp [hu]) (by simp)
    · cases h
  | finishJob u =>
    simp only [State.next] at h
    split_ifs at h with hu
    cases h
    exact .stealDone hu
  | destroy =>
    simp only [State.next] at h
    split_ifs at h with hj
    cases h
    exact .destroy hj
  | discard q => cases h

theorem step_cases (h : system.step s a = some t) :
    Step s a t ∧ (s.destroyed = true → ∃ q, a = .discard q) := by
  by_cases hdiscard : ∃ q, a = .discard q
  · obtain ⟨q, rfl⟩ := hdiscard
    simp only [system, State.step] at h
    split_ifs at h with hd
    simp only [State.discardOne] at h
    split at h
    · cases h
      exact ⟨.discard hd ‹_›, fun _ => ⟨q, rfl⟩⟩
    · cases h
  · have hstep : system.step s a = if s.destroyed then none else s.next a := by
      cases a with
      | discard q => exact absurd ⟨q, rfl⟩ hdiscard
      | _ => rfl
    rw [hstep] at h
    split_ifs at h with hd
    exact ⟨step_of_next h, fun hf => absurd hf hd⟩

/-- The two levels of the state agree: `WorkerLoop` counts the jobs of each queue, and whoever runs a
job holds it. -/
structure Linked (s : State) : Prop where
  runner : WorkerLoop.Inv s.runner
  counted : ∀ q, s.runner.jobQueue q = (s.queue q).length
  worker : ∀ i, (s.current (.worker i)).isSome = true ↔ s.runner.pc i = .processing
  stealer : ∀ u, (s.current (.stealer u)).isSome = true ↔ s.stealer u = .processing
  kept : s.destroyed = false → ∀ q, s.discarded q = []

/-- `TryProcessOne` of a worker, at the level that counts. -/
theorem linked_take {e : WorkerLoop.Action} {i q : ℕ} (h : Linked s)
    (he : WorkerLoop.Enabled s.runner e) (hlooks : looksInto s.runner e = some (i, q)) :
    s.runner.pc i ≠ .processing ∧
    (s.queue q = [] → (WorkerLoop.next s.runner e).jobQueue = s.runner.jobQueue ∧
      ∀ j, (WorkerLoop.next s.runner e).pc j = .processing ↔ s.runner.pc j = .processing) ∧
    ∀ job rest, s.queue q = job :: rest →
      (WorkerLoop.next s.runner e).jobQueue =
        Function.update s.runner.jobQueue q rest.length ∧
      ∀ j, (WorkerLoop.next s.runner e).pc j = .processing ↔
        j = i ∨ s.runner.pc j = .processing := by
  have hpc : s.runner.pc i ≠ .processing := by
    cases e with
    | tryProcessOne j =>
      cases hlooks
      rw [he]
      simp
    | scan j idx tried =>
      simp only [looksInto] at hlooks
      split_ifs at hlooks
      cases hlooks
      rw [he]
      simp
    | _ => cases hlooks
  obtain ⟨p, hp, hnext⟩ := next_of_looksInto hlooks
  refine ⟨hpc, fun hq => ?_, fun job rest hq => ?_⟩
  -- the count is the length of the list, so both see the same queues empty
  · have hzero : ¬ 0 < s.runner.jobQueue q := by simp [h.counted q, hq]
    rw [hnext, WorkerLoop.State.takeJob, if_neg hzero]
    refine ⟨rfl, fun j => ?_⟩
    rw [pc_setPc]
    split_ifs with hj
    · subst hj
      simp only [hp, hpc]
    · rfl
  · have hlen : s.runner.jobQueue q = rest.length + 1 := by rw [h.counted q, hq, List.length_cons]
    rw [hnext, WorkerLoop.State.takeJob, if_pos (by omega)]
    refine ⟨by simp [hlen], fun j => ?_⟩
    change (s.runner.setPc i .processing).pc j = _ ↔ _
    rw [pc_setPc]
    split_ifs with hj <;> simp [hj]

/-- The holder of a job changes for one runner only. -/
theorem isSome_update {r : Runner} {o : Option JobId} (r' : Runner) :
    (Function.update s.current r o r').isSome = true ↔
      if r' = r then o.isSome = true else (s.current r').isSome = true := by
  rw [Function.update_apply]
  split_ifs <;> rfl

theorem length_update {q : ℕ} {l : List JobId} (h : Linked s) (q' : ℕ) :
    Function.update s.runner.jobQueue q l.length q' =
      (Function.update s.queue q l q').length := by
  simp only [Function.update_apply, h.counted]
  split_ifs <;> rfl

theorem linked_step (h : Linked s) (hs : Step s a t)
    (hd : s.destroyed = true → ∃ q, a = .discard q) : Linked t := by
  cases hs with
  | @runner e he hadd hfinish hnone =>
    refine ⟨WorkerLoop.inv_step he h.runner, fun q => ?_, fun i => ?_, h.stealer, h.kept⟩
    · exact (congrFun (jobQueue_next hnone hadd) q).trans (h.counted q)
    · exact (h.worker i).trans (processing_next h.runner he hnone hfinish).symm
  | @noJob e i q he hlooks hq =>
    obtain ⟨-, hnone, -⟩ := linked_take h he hlooks
    obtain ⟨hcount, hpc⟩ := hnone hq
    refine ⟨WorkerLoop.inv_step he h.runner, fun q => ?_, fun j => ?_, h.stealer, h.kept⟩
    · exact (congrFun hcount q).trans (h.counted q)
    · exact (h.worker j).trans (hpc j).symm
  | @takeJob e i q job rest he hlooks hq =>
    obtain ⟨-, -, hjob⟩ := linked_take h he hlooks
    obtain ⟨hcount, hpc⟩ := hjob job rest hq
    -- this worker, and nobody else, begins to process
    refine ⟨WorkerLoop.inv_step he h.runner, fun q' => ?_, fun j => ?_, fun u => ?_, h.kept⟩
    · exact (congrFun hcount q').trans (length_update h q')
    · refine (isSome_update (s := s) (r := .worker i) (o := some job) (.worker j)).trans ?_
      rw [hpc j]
      split_ifs with hj
      · cases hj
        simp
      · have hne : j ≠ i := fun heq => hj (by rw [heq])
        simp [hne, h.worker j]
    · refine (isSome_update (s := s) (r := .worker i) (o := some job) (.stealer u)).trans ?_
      rw [if_neg (by simp)]
      exact h.stealer u
  | @finishJob i he =>
    refine ⟨WorkerLoop.inv_step (e := .finishJob i) he h.runner, h.counted, fun j => ?_,
      fun u => ?_, h.kept⟩
    · refine (isSome_update (s := s) (r := .worker i) (o := none) (.worker j)).trans ?_
      change _ ↔ (s.runner.setPc i .test).pc j = _
      rw [pc_setPc]
      split_ifs with hj hj' hj'
      · simp
      · exact absurd (Runner.worker.inj hj) hj'
      · exact absurd (by rw [hj']) hj
      · exact h.worker j
    · refine (isSome_update (s := s) (r := .worker i) (o := none) (.stealer u)).trans ?_
      rw [if_neg (by simp)]
      exact h.stealer u
  | addJobs hint jobNum hk | return_ hk => exact ⟨h.runner, h.counted, h.worker, h.stealer, h.kept⟩
  | @push k q job left hk =>
    refine ⟨⟨h.runner.created_le, h.runner.created, h.runner.joined⟩, fun q' => ?_, h.worker,
      h.stealer, h.kept⟩
    have hlen := length_update (l := s.queue q ++ [job]) (q := q) h q'
    rw [List.length_append, ← h.counted q] at hlen
    exact hlen
  | @steal u p _ ha hu hp =>
    refine ⟨h.runner, h.counted, h.worker, fun u' => ?_, h.kept⟩
    change _ ↔ Function.update s.stealer u p u' = _
    rw [h.stealer, Function.update_apply]
    split_ifs with hu'
    · rw [hu']
      simp only [hu, hp]
    · rfl
  | @stealJob u q job rest hu hq =>
    -- a thief is none of the workers, whose invariant goes by pc alone
    refine ⟨⟨h.runner.created_le, h.runner.created, h.runner.joined⟩, length_update h,
      fun j => ?_, fun u' => ?_, h.kept⟩
    · refine (isSome_update (s := s) (r := .stealer u) (o := some job) (.worker j)).trans ?_
      rw [if_neg (by simp)]
      exact h.worker j
    · refine (isSome_update (s := s) (r := .stealer u) (o := some job) (.stealer u')).trans ?_
      simp only [Runner.stealer.injEq, Function.update_apply]
      split_ifs with hu'
      · simp
      · exact h.stealer u'
  | @stealDone u hu =>
    refine ⟨h.runner, h.counted, fun j => ?_, fun u' => ?_, h.kept⟩
    · refine (isSome_update (s := s) (r := .stealer u) (o := none) (.worker j)).trans ?_
      rw [if_neg (by simp)]
      exact h.worker j
    · refine (isSome_update (s := s) (r := .stealer u) (o := none) (.stealer u')).trans ?_
      simp only [Runner.stealer.injEq, Function.update_apply]
      split_ifs with hu'
      · simp
      · exact h.stealer u'
  | destroy hj => exact ⟨h.runner, h.counted, h.worker, h.stealer, fun hf => by cases hf⟩
  | discard hdestroyed hq =>
    exact ⟨⟨h.runner.created_le, h.runner.created, h.runner.joined⟩, length_update h, h.worker,
      h.stealer, fun hf => by simp [hdestroyed] at hf⟩

end Steps

/-- The jobs alone: calls carry them, the queues and whoever runs one hold them. -/
def State.ledger (s : State) : Ledger ℕ ℕ Runner where
  count := s.jobs
  carried := fun k => (s.call k).left
  queue := s.queue
  held := s.current
  finished := s.finished
  discarded := s.discarded
  pushed := s.pushed
  taken := s.taken

section Refinement
variable {s t : State} {a : Action}

theorem left_update {k : ℕ} {p : CallPc} :
    (fun k' => (Function.update s.call k p k').left) =
      Function.update (fun k' => (s.call k').left) k p.left := by
  funext k'
  simp only [Function.update_apply]
  split_ifs <;> rfl

/-- A step moves at most one job, or brings the jobs of a call. -/
theorem ledger_step (h : Linked s) (hs : Step s a t)
    (hd : s.destroyed = true → ∃ q, a = .discard q) :
    ∃ ops, Ledger.system.exec s.ledger ops = some t.ledger := by
  have hone {o : Ledger.Op ℕ ℕ Runner} (hop : s.ledger.apply o = some t.ledger) :
      ∃ ops, Ledger.system.exec s.ledger ops = some t.ledger := by
    refine ⟨[o], ?_⟩
    rw [TransitionSystem.exec_cons]
    change (s.ledger.apply o).bind _ = _
    rw [hop]
    rfl
  -- the ledger lets nothing be taken from a queue that has begun to discard
  have hkept (hnot : ∀ q, a ≠ .discard q) (q : ℕ) : s.discarded q = [] := by
    apply h.kept
    by_contra hdestroyed
    obtain ⟨q', hq'⟩ := hd (by simpa using hdestroyed)
    exact hnot q' hq'
  cases hs with
  | runner | noJob | steal | destroy => exact ⟨[], rfl⟩
  | @takeJob e i q job rest he hlooks hq =>
    have hfree : s.current (.worker i) = none := by
      obtain ⟨hpc, -⟩ := linked_take h he hlooks
      rw [← Option.not_isSome_iff_eq_none, h.worker]
      exact hpc
    apply hone (o := .take (.worker i) q)
    simp only [Ledger.apply, State.ledger, hq, hfree, hkept (by simp) q, and_self, if_true]
  | @finishJob i he =>
    obtain ⟨job, hjob⟩ := Option.isSome_iff_exists.mp ((h.worker i).mpr he)
    apply hone (o := .finish (.worker i))
    simp only [Ledger.apply, State.ledger, hjob, Option.toList_some]
  | @addJobs k hint jobNum hk =>
    have hleft : (s.call k).left = [] := by rw [hk, CallPc.left]
    apply hone (o := .bring k jobNum)
    simp only [Ledger.apply, State.ledger, hleft, if_true, left_update]
    rfl
  | @push k q job left hk =>
    have hleft : (s.call k).left = job :: left := by rw [hk, CallPc.left]
    apply hone (o := .push k q)
    simp only [Ledger.apply, State.ledger, hleft, left_update]
    rfl
  | @return_ k q hk =>
    refine ⟨[], ?_⟩
    have hleft : (fun k' => (Function.update s.call k .idle k').left) =
        fun k' => (s.call k').left := by
      rw [left_update]
      exact Function.update_eq_self_iff.mpr (by rw [hk]; rfl)
    simp only [TransitionSystem.exec_nil, State.ledger, hleft]
  | @stealJob u q job rest hu hq =>
    have hfree : s.current (.stealer u) = none := by
      rw [← Option.not_isSome_iff_eq_none, h.stealer]
      exact hu
    apply hone (o := .take (.stealer u) q)
    simp only [Ledger.apply, State.ledger, hq, hfree, hkept (by simp) q, and_self, if_true]
  | @stealDone u hu =>
    obtain ⟨job, hjob⟩ := Option.isSome_iff_exists.mp ((h.stealer u).mpr hu)
    apply hone (o := .finish (.stealer u))
    simp only [Ledger.apply, State.ledger, hjob, Option.toList_some]
  | @discard q job rest hdestroyed hq =>
    apply hone (o := .discard q)
    simp only [Ledger.apply, State.ledger, hq]

end Refinement

theorem linked_initial (config : Config) : Linked (initial config) where
  runner := WorkerLoop.inv_initial config
  counted := fun _ => rfl
  worker := fun _ => by simp [initial, WorkerLoop.initial]
  stealer := fun _ => by simp [initial]
  kept := fun _ _ => rfl

theorem reachable_linked {s : State} (h : system.Reachable s) : Linked s := by
  refine h.invariant ?_ ?_
  · rintro s ⟨config, rfl⟩
    exact linked_initial config
  · intro s a t hs hstep
    obtain ⟨hstep, hd⟩ := step_cases hstep
    exact linked_step hs hstep hd

/-- Every run of the runner is a run of the ledger. -/
theorem ledger_exec {s t : State} {as : List Action} (h : Linked s)
    (hrun : system.exec s as = some t) :
    ∃ ops, Ledger.system.exec s.ledger ops = some t.ledger := by
  induction as generalizing s with
  | nil =>
    cases hrun
    exact ⟨[], rfl⟩
  | cons a as ih =>
    obtain ⟨u, hu, he⟩ := Option.bind_eq_some_iff.mp hrun
    obtain ⟨hstep, hd⟩ := step_cases hu
    obtain ⟨ops, hops⟩ := ledger_step h hstep hd
    obtain ⟨rest, hrest⟩ := ih (linked_step h hstep hd) he
    exact ⟨ops ++ rest, (Ledger.system.exec_append_some hops rest).trans hrest⟩

theorem reachable_ledger {s : State} (h : system.Reachable s) :
    Ledger.system.Reachable s.ledger := by
  obtain ⟨as, s₀, ⟨config, rfl⟩, hrun⟩ := h
  obtain ⟨ops, hops⟩ := ledger_exec (linked_initial config) hrun
  exact (TransitionSystem.Reachable.init rfl).exec hops

theorem joined_of_destroyed {s : State} (h : system.Reachable s) (hd : s.destroyed = true) :
    s.Joined := by
  refine h.invariant (P := fun s => s.destroyed = true → s.Joined) ?_ ?_ hd
  · rintro s ⟨config, rfl⟩ hf
    cases hf
  · intro s a t hs hstep hdt
    obtain ⟨hstep, hdiscard⟩ := step_cases hstep
    cases hds : s.destroyed with
    | false =>
      cases hstep with
      | destroy hj => exact hj
      | discard hdestroyed => exact absurd (hds.symm.trans hdestroyed) (by decide)
      | _ => exact absurd (hds.symm.trans hdt) (by decide)
    | true =>
      obtain ⟨q, rfl⟩ := hdiscard hds
      cases hstep with
      | discard => exact hs hds
      | steal ha => rcases ha with ⟨_, ha⟩ | ha <;> cases ha

/-- A job a caller has brought is in one place at any time: still in its call, in one queue, run by
one worker or stealer, finished, or thrown away with its queue after the workers have been joined. It
is pushed at most once, and what has been taken from the queues is exactly what runs or has run. -/
theorem jobs_kept_once {s : State} (h : system.Reachable s) :
    Exclusive s.ledger.at_ ∧ (∀ job, job < s.jobs ↔ ∃ p, job ∈ s.ledger.at_ p) ∧
    Exclusive s.pushed ∧
    (∀ job, (∃ q, job ∈ s.taken q) ↔ (∃ r, s.current r = some job) ∨ job ∈ s.finished) ∧
    ∀ q, s.discarded q ≠ [] → s.Joined := by
  obtain ⟨hinv, hhistory⟩ := Ledger.reachable_inv (reachable_ledger h)
  refine ⟨hinv.exclusive, hinv.placed, ⟨fun q => ?_, fun q q' hne => ?_⟩, hhistory.taken_iff,
    fun q hq => ?_⟩
  · exact hhistory.once.nodup (.inr q)
  · exact hhistory.once.apart (.inr q) (.inr q') (fun heq => hne (Sum.inr.inj heq))
  · apply joined_of_destroyed h
    by_contra hd
    exact hq ((reachable_linked h).kept (by simpa using hd) q)

/-- A batch of two jobs and one more: a thief has taken the first when the third one comes. -/
def batchRun : List Action :=
  [.runner .createWorker, .runner (.setReadyForStealing true), .addJobs 0 0 2, .push 0, .push 0,
    .return_ 0, .steal 0 0, .scan 0]

def laterRun : List Action :=
  [.addJobs 1 5 1, .push 1, .runner (.start 0 0), .runner (.test 0), .runner (.tryProcessOne 0),
    .finishJob 0, .runner (.finishJob 0), .runner (.test 0), .runner (.tryProcessOne 0)]

theorem jobs_kept_once_batchRun :
    ∃ p, 1 ∈ (system.after (initial WorkerWakeUp.oneWorker) batchRun).ledger.at_ p :=
  ((jobs_kept_once (.after (init_initial WorkerWakeUp.oneWorker) batchRun)).2.1 1).mp (by decide)

end CrisCore.RunnerJobs
