import CrisCore.StrandOrder

/-! No job of a strand is stranded, lost or run twice. -/
namespace CrisCore.Strand
variable {s : State}

/-- `PushToRunnerIfNeeded` was called and has not performed its decision step. -/
def Pc.undecided : Pc → Bool
  | .lock | .testReady | .consumeOne | .storeReady _ => true
  | _ => false

/-- No call of `PushToRunnerIfNeeded` is under way and nobody is inside the section. -/
def Quiescent (s : State) : Prop :=
  ∀ a, (s.pc a).undecided = false ∧ (s.pc a).inSection = false ∧ (s.pc a).carried = none

/-- Somebody will release the token of `j`: a worker that has it queued or runs it, or whoever
holds a copy of the token. -/
def Responsible (s : State) (j : JobId) : Prop :=
  (∃ w, j ∈ s.jobQueue w) ∨ s.phase j = .running ∨ 0 < s.sharedTokens j

inductive Place
  | pendingQueue
  | popped (a : Activation)
  | workerQueue (w : ℕ)
  | running
  | done
  deriving DecidableEq

/-- Where the code keeps a job, read off the containers. -/
def HeldAt (s : State) (j : JobId) : Place → Prop
  | .pendingQueue => s.pendingJobs.count j = 1
  | .popped a => (s.pc a).carried = some j
  | .workerQueue w => (s.jobQueue w).count j = 1
  | .running => s.phase j = .running
  | .done => s.phase j = .finished

def Place.phase : Place → Phase
  | .pendingQueue => .pending
  | .popped a => .popped a
  | .workerQueue w => .queued w
  | .running => .running
  | .done => .finished

theorem count_eq_one_iff {l : List JobId} (h : l.Nodup) (j : JobId) : l.count j = 1 ↔ j ∈ l := by
  constructor
  · intro hc
    exact List.count_pos_iff.mp (by omega)
  · exact List.count_eq_one_of_mem h

theorem heldAt_iff (hs : Coherent s) {j : JobId} {p : Place} :
    HeldAt s j p ↔ s.phase j = p.phase := by
  cases p with
  | pendingQueue => exact (count_eq_one_iff hs.place.pending_nodup j).trans (hs.place.mem_pending j)
  | popped a => exact hs.place.carried a j
  | workerQueue w =>
    exact (count_eq_one_iff (hs.place.queue_nodup w) j).trans (hs.place.mem_queue w j)
  | running | done => exact Iff.rfl

theorem undecided_of_pending (hs : Coherent s) {k : JobId} (hk : k ∈ s.pendingJobs)
    (h : (s.pc (.addJob, k)).turn.decided = false) : (s.pc (.addJob, k)).undecided = true := by
  have hp : s.phase k = .pending := (hs.place.mem_pending k).mp hk
  have hj := hs.job k
  simp only [JobOk, State.view, hp] at hj
  have hst := hj.1
  unfold Pc.stage at hst
  split at hst <;> simp_all [Pc.turn, Turn.decided, Pc.undecided]

theorem Pc.undecided_of_storing {p : Pc} {n : Option JobId} (h : p.turn = .storing n) :
    p.undecided = true := by
  unfold Pc.turn at h
  split at h <;> simp_all [Pc.undecided]

theorem ready_or_undecided {b : FifoBaton JobId} (hs : Coherent s) (hb : Refines s b)
    (hp : s.pendingJobs ≠ []) : s.hasReadyJob = true ∨ ∃ a, (s.pc a).undecided = true := by
  obtain ⟨k, hk⟩ := List.exists_mem_of_ne_nil _ hp
  by_cases hseize : ∃ a, (s.pc a).turn = .seizing
  · obtain ⟨a, ha⟩ := hseize
    exact Or.inr ⟨_, undecided_of_pending hs hk (hb.seize_undecided a ha k hk)⟩
  by_cases hstore : ∃ a n, (s.pc a).turn = .storing n
  · obtain ⟨a, n, ha⟩ := hstore
    exact Or.inr ⟨a, Pc.undecided_of_storing ha⟩
  push Not at hseize hstore
  rw [hb.ready hseize hstore]
  cases hh : b.holder with
  | none => exact Or.inr ⟨_, undecided_of_pending hs hk (hb.undecided hh k hk)⟩
  | some j => exact Or.inl rfl

/-- In a quiescent state the active job will be released by somebody. -/
theorem responsible_of_active (hs : Coherent s) (hr : Recorded s) (ha : s.strandAlive = true)
    (hq : Quiescent s) {j : JobId} (hj : Active s j) : Responsible s j := by
  have hok := hs.job j
  have ht := hr.tethered ha j
  obtain ⟨hent, hnd⟩ := hj
  cases hp : s.phase j with
  | absent | pending | dropped => simp [hp, Phase.entered] at hent
  -- the call that claimed it is in the section
  | claimed =>
    have hq := hq (.addJob, j)
    simp only [JobOk, State.view, hp] at hok
    have hst := hok.1
    unfold Pc.stage at hst
    split at hst <;> simp_all [Pc.inSection]
  | popped a =>
    have hc := (hs.place.carried a j).mpr hp
    rw [(hq a).2.2] at hc
    cases hc
  | queued w => exact Or.inl ⟨w, (hs.place.mem_queue w j).mpr hp⟩
  | running => exact Or.inr (Or.inl hp)
  | finished | discarded =>
    have hown : s.ownsToken j = false := by
      simp only [JobOk, State.view, hp] at hok
      exact hok.2.1
    rcases ht (by simp [State.view, hp]) with h | h | h
    · simp [State.view, hown] at h
    · exact Or.inr (Or.inr h)
    -- its release has begun, and would be in the section or still before it
    · have hq := hq (.aliveToken, j)
      have hrel := hr.releases j
      simp only [State.view, bne_iff_ne, ne_eq] at h
      simp only [Decided] at hnd
      generalize s.pc (.aliveToken, j) = p at *
      cases p <;> simp_all [Pc.releases, Pc.undecided, Pc.turn, Turn.decided]

theorem exists_responsible (h : system.Reachable s) (ha : s.strandAlive = true)
    (hp : s.pendingJobs ≠ []) (hq : Quiescent s) : ∃ j, Active s j ∧ Responsible s j := by
  obtain ⟨hs, b, hb⟩ := reachable_refines h
  have hready : s.hasReadyJob = true := by
    apply (ready_or_undecided hs hb hp).resolve_right
    rintro ⟨a, hu⟩
    rw [(hq a).1] at hu
    cases hu
  have hout (a) : (s.pc a).inSection ≠ true := by simp [(hq a).2.1]
  have hflag : s.hasReadyJob = b.holder.isSome :=
    hb.ready (fun a h => hout a (Pc.inSection_of_turn (Or.inl h)))
      (fun a n h => hout a (Pc.inSection_of_turn (Or.inr (Or.inr ⟨n, h⟩))))
  rw [hready] at hflag
  obtain ⟨j, hj⟩ := Option.isSome_iff_exists.mp hflag.symm
  have hact : Active s j := (hb.holder j).mpr hj
  exact ⟨j, hact, responsible_of_active hs (reachable_recorded h) ha hq hact⟩

theorem held_somewhere (hs : Coherent s) (hr : Recorded s) (ha : s.strandAlive = true)
    (hra : s.runnerAlive = true) {j : JobId} (h : Accepted s j) : ∃! p, HeldAt s j p := by
  have hinj : ∀ p q : Place, p.phase = q.phase → p = q := by
    intro p q h
    cases p <;> cases q <;> simp_all [Place.phase]
  -- an accepted job is past `claimed`, and nothing was lost
  have hex : ∃ p : Place, s.phase j = p.phase := by
    have hd := hr.noLoss.discarded hra j
    rcases accepted_phase hs hr ha h with hp | hent
    · exact ⟨.pendingQueue, hp⟩
    · have hcl : s.phase j ≠ .claimed := by
        intro hp
        have hok := hs.job j
        simp only [JobOk, State.view, hp] at hok
        rcases h with h | h <;> simp [h, Pc.stage] at hok
      cases hp : s.phase j with
      | absent | pending | dropped => simp [hp, Phase.entered] at hent
      | claimed => exact absurd hp hcl
      | discarded => exact absurd hp hd
      | popped a => exact ⟨.popped a, rfl⟩
      | queued w => exact ⟨.workerQueue w, rfl⟩
      | running => exact ⟨.running, rfl⟩
      | finished => exact ⟨.done, rfl⟩
  obtain ⟨p, hp⟩ := hex
  refine ⟨p, (heldAt_iff hs).mpr hp, fun q hq => ?_⟩
  exact hinj q p (((heldAt_iff hs).mp hq).symm.trans hp)

theorem count_handed_le (hr : Recorded s) (ha : s.strandAlive = true)
    (hra : s.runnerAlive = true) (j : JobId) : s.handed.count j ≤ s.pushed.count j := by
  obtain ⟨l, hl⟩ := handed_prefix hr ha hra
  rw [← hl, List.count_append]
  omega

/-- While strand and runner are alive no job waits with nobody responsible for it, every accepted
job is in exactly one place and runs at most once, and the answer of `AddJob` tells how. -/
theorem strand_accounting (h : system.Reachable s) (ha : s.strandAlive = true)
    (hra : s.runnerAlive = true) :
    (s.pendingJobs ≠ [] → s.hasReadyJob = true ∨ ∃ a, (s.pc a).undecided = true) ∧
      (s.pendingJobs ≠ [] → Quiescent s → ∃ j, Active s j ∧ Responsible s j) ∧
      (∀ j, (s.handed ++ s.ranInPlace).count j ≤ 1) ∧
      (∀ j, Accepted s j → ∃! p, HeldAt s j p) ∧
      (∀ j, s.pc (.addJob, j) = .returned .finished →
        s.ranInPlace.count j = 1 ∧ s.phase j = .finished ∧ s.pushed.count j = 0 ∧
          s.handed.count j = 0) ∧
      ∀ j, s.pc (.addJob, j) = .returned .enqueued →
        s.pushed.count j = 1 ∧ s.ranInPlace.count j = 0 := by
  obtain ⟨hs, b, hb⟩ := reachable_refines h
  have hr := reachable_recorded h
  have hpush := hr.counted.pushed
  have hran := hr.counted.ranInPlace
  have hle := count_handed_le hr ha hra
  refine ⟨ready_or_undecided hs hb, exists_responsible h ha, fun j => ?_,
    fun j => held_somewhere hs hr ha hra, fun j hj => ?_, fun j hj => ?_⟩
  -- pushed or run in place, never both, and handed only if pushed
  · have hp := hpush j
    have hi := hran j
    have hl := hle j
    rw [List.count_append]
    split_ifs at hp hi <;> first | omega | simp_all
  -- answered `FINISHED`
  · have hst : (s.view j).stage = .ranInPlace := by simp [State.view, hj, Pc.stage]
    have hp := hpush j
    have hi := hran j
    have hl := hle j
    simp only [hst] at hp hi
    have hph : s.phase j = .finished := by
      have hok := hs.job j
      unfold JobOk at hok
      split at hok <;> simp_all [State.view]
    refine ⟨by simpa using hi, hph, by simpa using hp, ?_⟩
    have hz : s.pushed.count j = 0 := by simpa using hp
    omega
  -- answered `ENQUEUED`
  · have hst : (s.view j).stage = .enqueued := by simp [State.view, hj, Pc.stage]
    have hp := hpush j
    have hi := hran j
    simp only [hst] at hp hi
    exact ⟨by simpa using hp, by simpa using hi⟩

/-- Job 0 waits in a worker's queue and job 1 behind it in the strand's. -/
def waitingRun : List Action :=
  queuedRun ++ [.call 1 .tryRunImmediately, .tryLock 1, .testEmpty 1, .unlockForce 1 false,
    .push 1, .lock (.addJob, 1), .testReady (.addJob, 1), .unlock (.addJob, 1) none, .return_ 1]

theorem strand_accounting_waitingRun :
    (afterRun waitingRun).pendingJobs = [1] ∧
      ((afterRun waitingRun).hasReadyJob = true ∨
        ∃ a, ((afterRun waitingRun).pc a).undecided = true) ∧
      (∃! p, HeldAt (afterRun waitingRun) 1 p) ∧
      (afterRun waitingRun).pushed.count 1 = 1 ∧ (afterRun waitingRun).ranInPlace.count 1 = 0 :=
  have h := strand_accounting (reachable_afterRun waitingRun) (by decide) (by decide)
  ⟨by decide, h.1 (by decide), h.2.2.2.1 1 (Or.inr (by decide)), h.2.2.2.2.2 1 (by decide)⟩

end CrisCore.Strand
