import CrisCore.StrandMoves
import CrisCore.StrandOrder

/-! Who holds the strand. `pending_jobs_` belongs to the strand, while tokens and the jobs in the
runner refer to it weakly; it lives as long as somebody has a `JobRunnerStrandPtr`: a user, a call
of `AddJob` for its parameter, or `~JobAliveToken` for the push it makes. -/
namespace CrisCore.Strand

/-- From `strand_weak_.lock()` to the end of `~JobAliveToken`. -/
def Pc.inRelease : Pc → Bool
  | .idle | .done => false
  | _ => true

/-- From the beginning to the end of a call of `AddJob`. -/
def Pc.inCall : Pc → Bool
  | .idle | .returned _ => false
  | _ => true

/-- The activation has a `JobRunnerStrandPtr` of its own. -/
def State.holds (s : State) : Activation → Bool
  | (.addJob, j) => (s.pc (.addJob, j)).inCall
  | (.aliveToken, j) => (s.pc (.aliveToken, j)).inRelease

section Steps
variable {s : State} {e : Action} {b : Activation} {j : JobId}

/-- The program counters that move belong to activations that have the strand, to a new call, or
to a release that finds the strand alive. -/
theorem pc_changed (he : Enabled s e) (hc : Coherent s) (hb : (next s e).pc b ≠ s.pc b) :
    s.holds b = true ∨ (∃ j form, e = .call j form ∧ b = (.addJob, j)) ∨
      ∃ k, b = (.aliveToken, k) ∧ s.strandAlive = true := by
  have hp := (pc_step he hc b).resolve_left hb
  generalize hq : s.pc b = q at hp
  generalize (next s e).pc b = p at hp
  cases hp with
  | call j form => exact Or.inr (Or.inl ⟨j, form, rfl, rfl⟩)
  | release _ k h => exact Or.inr (Or.inr ⟨k, rfl, h⟩)
  | lock | skip | consume | consumeOne | storeReady | unlockNone | unlockSome | pushToRunner =>
    left
    obtain ⟨_ | _, j⟩ := b <;> simp only [State.holds, hq, Pc.inCall, Pc.inRelease]
  | lockTaken | tryLock | decline | claim | setReady | unlockRejected | unlockAccepted | push
  | return_ | returnInPlace =>
    left
    simp only [State.holds, hq, Pc.inCall]

theorem reject_ne_enqueued (s : State) (j : JobId) : reject s j ≠ .returned .enqueued := by
  unfold reject
  split <;> exact nofun

/-- `AddJob` answers that a job was enqueued at the end of `PushToRunnerIfNeeded` only. -/
theorem pc_enqueued_next (he : Enabled s e) (hc : Coherent s)
    (h : (next s e).pc (.addJob, j) = .returned .enqueued) :
    s.pc (.addJob, j) = .returned .enqueued ∨ (e = .return_ j ∧ s.pc (.addJob, j) = .done) := by
  rcases pc_step he hc (.addJob, j) with hp | hp
  · exact Or.inl (hp ▸ h)
  right
  rw [h] at hp
  generalize hq : s.pc (.addJob, j) = q at hp
  generalize hr : Pc.returned .enqueued = r at hp
  have hrej := reject_ne_enqueued s j
  cases hp with
  | return_ => exact ⟨rfl, rfl⟩
  | lockTaken | unlockRejected => exact absurd hr.symm hrej
  | call _ form => cases form <;> cases hr
  | tryLock | decline | claim | setReady | unlockAccepted | push | lock | skip | consume
  | consumeOne | storeReady | unlockNone | unlockSome | pushToRunner | returnInPlace => cases hr

theorem pendingJobs_next (hpush : ∀ k, e ≠ .push k) (hpop : ∀ a, e ≠ .consumeOne a)
    (hend : e ≠ .expireStrand) : (next s e).pendingJobs = s.pendingJobs := by
  cases e <;> simp only [next, State.destroyJob_eq, State.releaseToken_eq] <;>
    (repeat' split) <;> simp_all [State.setPc, State.setPhase]

end Steps
end CrisCore.Strand

namespace CrisCore.StrandOwnership
open Strand (JobId Form Pc Phase Accepted)

structure State where
  strand : Strand.State
  /-- The users' `JobRunnerStrandPtr`s, those in the closures of their jobs included. -/
  handles : ℕ
  /-- `JobRunner::Stop` was called. -/
  stopped : Bool
  /-- History: the calls of `AddJob`, and those made when the runner had expired. -/
  calls : List JobId
  lateCalls : List JobId

/-- `MakeStrand` has returned. -/
def initial : State where
  strand := Strand.initial
  handles := 1
  stopped := false
  calls := []
  lateCalls := []

inductive Action
  /-- A call of `AddJob` takes over one of the users' pointers. -/
  | call (j : JobId) (form : Form)
  /-- Any other step of strand and runner. -/
  | strand (e : Strand.Action)
  | copyHandle
  | releaseHandle
  | stopRunner
  deriving DecidableEq

namespace State

/-- The strong count of the strand is not zero. -/
def held (s : State) : Bool :=
  0 < s.handles || s.calls.any fun j => s.strand.holds (.addJob, j) || s.strand.holds (.aliveToken, j)

/-- The last `JobRunnerStrandPtr` destroys the strand. -/
def settle (s : State) : State :=
  if s.strand.strandAlive && !s.held then
    { s with strand := Strand.next s.strand .expireStrand }
  else s

end State

/-- The steps that are actions of their own here. -/
def isOwn : Strand.Action → Bool
  | .call _ _ | .expireStrand => true
  | _ => false

def Enabled (s : State) : Action → Prop
  | .call j form => 0 < s.handles ∧ Strand.Enabled s.strand (.call j form)
  | .strand e => isOwn e = false ∧ Strand.Enabled s.strand e
  -- from another pointer or by locking a weak one
  | .copyHandle => s.strand.strandAlive = true
  | .releaseHandle => 0 < s.handles
  | .stopRunner => s.strand.runnerAlive = true

instance (s : State) : (a : Action) → Decidable (Enabled s a)
  | .call _ _ | .strand _ => inferInstanceAs (Decidable (_ ∧ _))
  | .copyHandle | .stopRunner => inferInstanceAs (Decidable (_ = _))
  | .releaseHandle => inferInstanceAs (Decidable (_ < _))

/-- The step itself, before what the release of the last pointer brings about. -/
def perform (s : State) : Action → State
  | .call j form =>
    { s with
      strand := Strand.next s.strand (.call j form)
      handles := s.handles - 1
      calls := j :: s.calls
      lateCalls := if s.strand.runnerAlive then s.lateCalls else j :: s.lateCalls }
  | .strand e => { s with strand := Strand.next s.strand e }
  | .copyHandle => { s with handles := s.handles + 1 }
  | .releaseHandle => { s with handles := s.handles - 1 }
  | .stopRunner => { s with stopped := true }

def system : TransitionSystem State Action where
  init s := s = initial
  step s a := if Enabled s a then some (perform s a).settle else none

/-- Queued, on its way to the runner, being run, or already run. -/
def kept : Phase → Bool
  | .pending | .popped _ | .queued _ | .running | .finished => true
  | _ => false

/-- No accepted job is gone while the runner is there and not stopped, and no call made after the
runner expired was answered as enqueued. -/
structure AcceptedKept (s : State) : Prop where
  accepted : s.strand.runnerAlive = true → s.stopped = false →
    ∀ j, Accepted s.strand j → kept (s.strand.phase j) = true
  late : ∀ j ∈ s.lateCalls, s.strand.pc (.addJob, j) ≠ .returned .enqueued

/-- The step releases the last `JobRunnerStrandPtr`. -/
def ReleasesLast (s : State) (a : Action) : Prop :=
  s.strand.strandAlive = true ∧ (perform s a).held = false

/-- The last pointer is only released with an empty queue, and no call made after the runner
expired comes to the end of `PushToRunnerIfNeeded`. -/
def Heeds (s : State) (a : Action) : Prop :=
  (s.strand.runnerAlive = true → s.stopped = false → ReleasesLast s a →
    s.strand.pendingJobs = []) ∧
  ∀ j ∈ s.lateCalls, a = .strand (.return_ j) → s.strand.pc (.addJob, j) ≠ .done

instance (s : State) (a : Action) : Decidable (ReleasesLast s a) :=
  inferInstanceAs (Decidable (_ ∧ _))

instance (s : State) (a : Action) : Decidable (Heeds s a) :=
  inferInstanceAs (Decidable (_ ∧ _))

/-- The strand is alive as long as it is held, and `calls` knows everybody who may hold it. -/
structure Inv (s : State) : Prop where
  reachable : Strand.system.Reachable s.strand
  called : ∀ j, s.strand.pc (.addJob, j) ≠ .idle → j ∈ s.calls
  alive : s.strand.strandAlive = s.held

section Steps
variable {s t : State} {a : Action} {e : Strand.Action} {j : JobId}

theorem inv_initial : Inv initial :=
  ⟨.init rfl, fun _ h => absurd rfl h, rfl⟩

theorem strand_reachable (h : Strand.system.Reachable s.strand) (he : Strand.Enabled s.strand e) :
    Strand.system.Reachable (Strand.next s.strand e) :=
  h.step (Strand.step_eq_some.mpr ⟨he, rfl⟩)

/-- Only a job whose call has begun has a token to release. -/
theorem called_of_holds {s : Strand.State} (hc : Strand.Coherent s) {b : Strand.Activation}
    (h : s.holds b = true) : s.pc (.addJob, b.2) ≠ .idle := by
  obtain ⟨_ | _, j⟩ := b
  · intro hi
    simp [Strand.State.holds, hi, Pc.inCall] at h
  · intro hi
    have hr : (s.view j).released = true := by
      simp only [Strand.State.view, bne_iff_ne, ne_eq]
      intro hi
      simp [Strand.State.holds, hi, Pc.inRelease] at h
    have hu := (hc.job j).phase_of_unaccepted (by simp [Strand.State.view, hi, Pc.stage])
    rcases (hc.job j).phase_of_released hr with hp | hp | hp <;> rw [hu] at hp <;> cases hp

theorem held_iff (hc : Strand.Coherent s.strand)
    (hcalled : ∀ j, s.strand.pc (.addJob, j) ≠ .idle → j ∈ s.calls) :
    s.held = true ↔ 0 < s.handles ∨ ∃ b, s.strand.holds b = true := by
  simp only [State.held, Bool.or_eq_true, decide_eq_true_eq, List.any_eq_true]
  refine or_congr_right ⟨?_, ?_⟩
  · rintro ⟨j, -, h | h⟩
    · exact ⟨_, h⟩
    · exact ⟨_, h⟩
  · rintro ⟨⟨_ | _, j⟩, h⟩
    · exact ⟨j, hcalled j (called_of_holds hc h), Or.inl h⟩
    · exact ⟨j, hcalled j (called_of_holds hc h), Or.inr h⟩

theorem coherent (h : Inv s) : Strand.Coherent s.strand :=
  (Strand.reachable_refines h.reachable).1

/-- The strand as the step itself leaves it. -/
theorem perform_reachable (he : Enabled s a) (h : Inv s) :
    Strand.system.Reachable (perform s a).strand := by
  cases a with
  | call j form => exact strand_reachable h.reachable he.2
  | strand e => exact strand_reachable h.reachable he.2
  | copyHandle | releaseHandle | stopRunner => exact h.reachable

theorem perform_called (he : Enabled s a) (h : Inv s) (j : JobId)
    (hj : (perform s a).strand.pc (.addJob, j) ≠ .idle) : j ∈ (perform s a).calls := by
  have hbegun {e : Strand.Action} (hen : Strand.Enabled s.strand e)
      (hj : (Strand.next s.strand e).pc (.addJob, j) ≠ .idle) :
      j ∈ s.calls ∨ ∃ form, e = .call j form := by
    by_cases hi : s.strand.pc (.addJob, j) = .idle
    · rw [← hi] at hj
      rcases Strand.pc_changed hen (coherent h) hj with hh | ⟨k, form, rfl, hk⟩ | ⟨k, hk, -⟩
      · exact absurd hi (called_of_holds (coherent h) hh)
      · cases hk
        exact Or.inr ⟨form, rfl⟩
      · cases hk
    · exact Or.inl (h.called j hi)
  cases a with
  | call k form =>
    rcases hbegun he.2 hj with hm | ⟨form', heq⟩
    · exact List.mem_cons_of_mem k hm
    · cases heq
      exact List.mem_cons_self
  | strand e =>
    rcases hbegun he.2 hj with hm | ⟨form, rfl⟩
    · exact hm
    · cases he.1
  | copyHandle | releaseHandle | stopRunner => exact h.called j hj

/-- Nobody comes to hold a strand that is gone. -/
theorem alive_of_held (he : Enabled s a) (h : Inv s) (hh : (perform s a).held = true) :
    (perform s a).strand.strandAlive = true := by
  have hs : 0 < s.handles ∨ (∃ b, s.strand.holds b = true) → s.strand.strandAlive = true := by
    rw [h.alive]
    exact (held_iff (coherent h) h.called).mpr
  have hp := (held_iff (Strand.reachable_refines (perform_reachable he h)).1
    (perform_called he h)).mp hh
  cases a with
  | call j form =>
    change (Strand.next s.strand (.call j form)).strandAlive = true
    rw [Strand.next_strandAlive, hs (Or.inl he.1)]
    rfl
  | strand e =>
    have hne : e ≠ .expireStrand := by
      rintro rfl
      cases he.1
    change (Strand.next s.strand e).strandAlive = true
    rw [Strand.next_strandAlive, Bool.and_eq_true, bne_iff_ne]
    refine ⟨?_, hne⟩
    rcases hp with hp | ⟨b, hb⟩
    · exact hs (Or.inl hp)
    -- who holds the strand now held it before, or has just begun to hold it
    by_cases hpc : (Strand.next s.strand e).pc b = s.strand.pc b
    · refine hs (Or.inr ⟨b, ?_⟩)
      obtain ⟨_ | _, j⟩ := b <;> simpa only [Strand.State.holds, perform, hpc] using hb
    · rcases Strand.pc_changed he.2 (coherent h) hpc with hb | ⟨j, form, rfl, -⟩ | ⟨j, -, ha⟩
      · exact hs (Or.inr ⟨b, hb⟩)
      · cases he.1
      · exact ha
  | copyHandle => exact he
  | releaseHandle => exact hs (Or.inl he)
  | stopRunner => exact hs hp

theorem settle_eq (s : State) :
    s.settle = if s.strand.strandAlive = true ∧ s.held = false then
      { s with strand := Strand.next s.strand .expireStrand } else s := by
  simp [State.settle]

theorem inv_settle (hr : Strand.system.Reachable s.strand)
    (hcalled : ∀ j, s.strand.pc (.addJob, j) ≠ .idle → j ∈ s.calls)
    (hh : s.held = true → s.strand.strandAlive = true) : Inv s.settle := by
  rw [settle_eq]
  split_ifs with hl
  · exact ⟨strand_reachable (e := .expireStrand) hr trivial, hcalled, hl.2.symm⟩
  · refine ⟨hr, hcalled, ?_⟩
    rw [Bool.eq_iff_iff]
    refine ⟨fun ha => ?_, hh⟩
    by_contra hn
    exact hl ⟨ha, by simpa using hn⟩

theorem step_eq_some : system.step s a = some t ↔ Enabled s a ∧ (perform s a).settle = t := by
  change (if Enabled s a then some (perform s a).settle else none) = some t ↔ _
  split_ifs with h <;> simp [h]

theorem inv_step (he : Enabled s a) (h : Inv s) : Inv (perform s a).settle :=
  inv_settle (perform_reachable he h) (perform_called he h) (alive_of_held he h)

/-- A job that was dropped had been accepted: its call held the strand until it returned. -/
theorem accepted_of_dropped (h : Inv s) (hd : s.strand.phase j = .dropped) :
    Accepted s.strand j := by
  have hc := coherent h
  have hdead : s.strand.strandAlive = false := by
    by_contra ha
    exact (Strand.reachable_recorded h.reachable).noLoss.dropped (by simpa using ha) j hd
  have hfree : s.strand.holds (.addJob, j) = false := by
    by_contra hh
    have hheld := (held_iff hc h.called).mpr (Or.inr ⟨_, by simpa using hh⟩)
    rw [← h.alive, hdead] at hheld
    cases hheld
  have hj := hc.job j
  simp only [Strand.JobOk, Strand.State.view, hd] at hj
  simp only [Strand.State.holds] at hfree
  have hstage := hj.1
  revert hstage hfree
  simp only [Accepted]
  cases s.strand.pc (.addJob, j) with
  | returned r => cases r <;> simp [Pc.stage]
  | unlockForce accepted => cases accepted <;> simp [Pc.stage, Pc.inCall]
  | _ => simp [Pc.stage, Pc.inCall]

theorem kept_of_not_dropped (h : Inv s) (hr : s.strand.runnerAlive = true)
    (hd : s.strand.phase j ≠ .dropped) (ha : Accepted s.strand j) :
    kept (s.strand.phase j) = true := by
  have hj := (coherent h).job j
  have hn := (Strand.reachable_recorded h.reachable).noLoss.discarded hr j
  have hstage : (s.strand.view j).stage = .ranInPlace ∨ (s.strand.view j).stage = .enqueued := by
    rcases ha with ha | ha <;> simp [Strand.State.view, ha, Pc.stage]
  unfold Strand.JobOk at hj
  split at hj <;> simp_all [Strand.State.view, kept]

/-- Releasing the last pointer leaves the queue, and everything else but a program counter or the
users' count, as it was. -/
theorem perform_of_releasesLast (he : Enabled s a) (h : Inv s) (hl : ReleasesLast s a) :
    (perform s a).strand.pendingJobs = s.strand.pendingJobs ∧
      (perform s a).strand.runnerAlive = s.strand.runnerAlive ∧
        (perform s a).stopped = s.stopped := by
  obtain ⟨ha, hfree⟩ := hl
  have hs := (held_iff (coherent h) h.called).mp (h.alive ▸ ha)
  -- nobody holds the strand any more, so the step was no one that begins to hold or keeps holding
  have hn : ¬ (0 < (perform s a).handles ∨ ∃ b, (perform s a).strand.holds b = true) := by
    rw [← held_iff (Strand.reachable_refines (perform_reachable he h)).1 (perform_called he h),
      hfree]
    exact Bool.false_ne_true
  cases a with
  | call j form =>
    refine absurd (Or.inr ⟨(.addJob, j), ?_⟩) hn
    cases form <;> simp [perform, Strand.next, Strand.State.setPc, Strand.State.holds, Pc.inCall]
  | strand e =>
    refine ⟨Strand.pendingJobs_next ?_ ?_ ?_, ?_, rfl⟩
    · rintro k rfl
      refine hn (Or.inr ⟨(.addJob, k), ?_⟩)
      simp [perform, Strand.next, Strand.State.setPc, Strand.State.setPhase, Strand.State.holds,
        Pc.inCall]
    · -- whoever takes a job off the queue goes on to store the flag
      rintro b rfl
      refine hn (Or.inr ⟨b, ?_⟩)
      obtain ⟨_ | _, k⟩ := b <;> simp only [perform, Strand.next] <;> split <;>
        simp [Strand.State.setPc, Strand.State.setPhase, Strand.State.holds, Pc.inCall,
          Pc.inRelease]
    · rintro rfl
      cases he.1
    · have hne : e ≠ .expireRunner := by
        rintro rfl
        exact hn hs
      simp [perform, Strand.next_runnerAlive, hne]
  | copyHandle => exact absurd (Or.inl (Nat.succ_pos _)) hn
  | releaseHandle => exact ⟨rfl, rfl, rfl⟩
  | stopRunner => exact absurd hs hn

/-- A job is dropped by the release of the last pointer and by nothing else. -/
theorem dropped_settle (he : Enabled s a) (h : Inv s) (j : JobId)
    (hs : s.strand.phase j ≠ .dropped) :
    (perform s a).settle.strand.phase j = .dropped ↔
      ReleasesLast s a ∧ j ∈ s.strand.pendingJobs := by
  have halive : (perform s a).strand.strandAlive = s.strand.strandAlive := by
    cases a with
    | call k form => simp [perform, Strand.next_strandAlive]
    | strand e =>
      have hne : e ≠ .expireStrand := by
        rintro rfl
        cases he.1
      simp [perform, Strand.next_strandAlive, hne]
    | copyHandle | releaseHandle | stopRunner => rfl
  have hp : (perform s a).strand.phase j ≠ .dropped := by
    cases a with
    | call k form =>
      exact fun hd => (Strand.phase_dropped_next he.2 (coherent h) hd).elim hs nofun
    | strand e =>
      intro hd
      rcases Strand.phase_dropped_next he.2 (coherent h) hd with hd | rfl
      · exact hs hd
      · cases he.1
    | copyHandle | releaseHandle | stopRunner => exact hs
  rw [settle_eq, halive]
  split_ifs with hl
  · have hq := (perform_of_releasesLast he h hl).1
    simp [Strand.next, hq, hp, show ReleasesLast s a from hl]
  · exact iff_of_false hp fun hj => hl hj.1

theorem settle_frame (s : State) :
    s.settle.strand.runnerAlive = s.strand.runnerAlive ∧ s.settle.stopped = s.stopped ∧
      s.settle.lateCalls = s.lateCalls ∧ s.settle.strand.pc = s.strand.pc := by
  rw [settle_eq]
  split_ifs <;> exact ⟨rfl, rfl, rfl, rfl⟩

theorem perform_mono (hr : (perform s a).strand.runnerAlive = true)
    (hst : (perform s a).stopped = false) : s.strand.runnerAlive = true ∧ s.stopped = false := by
  cases a with
  | call | strand =>
    simp only [perform, Strand.next_runnerAlive, Bool.and_eq_true] at hr
    exact ⟨hr.1, hst⟩
  | copyHandle | releaseHandle => exact ⟨hr, hst⟩
  | stopRunner => cases hst

theorem not_dropped (h : Inv s) (hk : AcceptedKept s) (hr : s.strand.runnerAlive = true)
    (hst : s.stopped = false) (j : JobId) : s.strand.phase j ≠ .dropped := by
  intro hd
  have hkept := hk.accepted hr hst j (accepted_of_dropped h hd)
  rw [hd] at hkept
  cases hkept

/-- The queue survives a step unless the step releases the last pointer. -/
theorem accepted_step (he : Enabled s a) (h : Inv s) (hk : AcceptedKept s) :
    ((perform s a).settle.strand.runnerAlive = true → (perform s a).settle.stopped = false →
      ∀ j, Accepted (perform s a).settle.strand j →
        kept ((perform s a).settle.strand.phase j) = true) ↔
      (s.strand.runnerAlive = true → s.stopped = false → ReleasesLast s a →
        s.strand.pendingJobs = []) := by
  have hi := inv_step he h
  obtain ⟨hralive, hstopped, -, -⟩ := settle_frame (perform s a)
  constructor
  · intro hall hr hst hl
    obtain ⟨-, hr', hst'⟩ := perform_of_releasesLast he h hl
    by_contra hne
    obtain ⟨j, hj⟩ := List.exists_mem_of_ne_nil _ hne
    have hd := (dropped_settle he h j (not_dropped h hk hr hst j)).mpr ⟨hl, hj⟩
    have hkept := hall (by rw [hralive, hr', hr]) (by rw [hstopped, hst', hst]) j
      (accepted_of_dropped hi hd)
    rw [hd] at hkept
    cases hkept
  · intro hempty hr hst j hj
    have hs := perform_mono (hralive ▸ hr) (hstopped ▸ hst)
    refine kept_of_not_dropped hi hr (fun hd => ?_) hj
    obtain ⟨hl, hmem⟩ := (dropped_settle he h j (not_dropped h hk hs.1 hs.2 j)).mp hd
    rw [hempty hs.1 hs.2 hl] at hmem
    cases hmem

/-- A late call is answered as enqueued exactly when it comes back from the queue. -/
theorem late_step (he : Enabled s a) (h : Inv s) (hk : AcceptedKept s) :
    (∀ j ∈ (perform s a).settle.lateCalls,
      (perform s a).settle.strand.pc (.addJob, j) ≠ .returned .enqueued) ↔
      ∀ j ∈ s.lateCalls, a = .strand (.return_ j) → s.strand.pc (.addJob, j) ≠ .done := by
  obtain ⟨-, -, hlate, hpc⟩ := settle_frame (perform s a)
  rw [hlate, hpc]
  constructor
  · rintro hall j hj rfl hd
    apply hall j hj
    simp [perform, Strand.next, Strand.State.setPc, hd]
  · intro hdone j hj hret
    -- an answer of an earlier step
    have hold (hj : j ∈ s.lateCalls) (hret : s.strand.pc (.addJob, j) = .returned .enqueued) :
        False := hk.late j hj hret
    cases a with
    | call k form =>
      rcases Strand.pc_enqueued_next he.2 (coherent h) hret with hs | ⟨heq, -⟩
      · simp only [perform] at hj
        split_ifs at hj
        · exact hold hj hs
        · rcases List.mem_cons.mp hj with rfl | hj
          · have hidle : s.strand.pc (.addJob, j) = .idle := he.2
            rw [hidle] at hs
            cases hs
          · exact hold hj hs
      · cases heq
    | strand e =>
      rcases Strand.pc_enqueued_next he.2 (coherent h) hret with hret | ⟨rfl, hd⟩
      · exact hold hj hret
      · exact hdone j hj rfl hd
    | copyHandle | releaseHandle | stopRunner => exact hold hj hret

theorem acceptedKept_step (he : Enabled s a) (h : Inv s) (hk : AcceptedKept s) :
    AcceptedKept (perform s a).settle ↔ Heeds s a :=
  ⟨fun hn => ⟨(accepted_step he h hk).mp hn.accepted, (late_step he h hk).mp hn.late⟩,
    fun hc => ⟨(accepted_step he h hk).mpr hc.1, (late_step he h hk).mpr hc.2⟩⟩

end Steps

/-- Accepted jobs are kept in a run exactly when the last pointer to the strand is released with
an empty queue only, and no call made after the runner expired comes back from the queue. -/
theorem accepted_jobs_kept {as : List Action} {t : State} (h : system.exec initial as = some t) :
    system.StatesMeet AcceptedKept initial as ↔ system.StepsMeet Heeds initial as := by
  refine TransitionSystem.statesMeet_iff_stepsMeet (I := Inv) ?_ ?_ inv_initial ?_ h
  · intro u a v hu hst
    obtain ⟨he, rfl⟩ := step_eq_some.mp hst
    exact inv_step he hu
  · intro u a v hu hk hst
    obtain ⟨he, rfl⟩ := step_eq_some.mp hst
    exact acceptedKept_step he hu hk
  · refine ⟨fun _ _ j hj => ?_, fun j hj => nomatch hj⟩
    rcases hj with hj | hj <;> cases hj

/-- `AddJob` of job 0 as far as the queue of the worker. -/
def addFirst : List Action :=
  [.copyHandle, .call 0 .enqueue, .strand (.push 0), .strand (.lock (.addJob, 0)),
    .strand (.testReady (.addJob, 0)), .strand (.consumeOne (.addJob, 0)),
    .strand (.storeReady (.addJob, 0) (some 0)), .strand (.unlock (.addJob, 0) (some 0)),
    .strand (.pushToRunner (.addJob, 0) 0 0), .strand (.return_ 0)]

/-- `AddJob` of job 1, which has to wait for job 0. -/
def addSecond : List Action :=
  [.copyHandle, .call 1 .enqueue, .strand (.push 1), .strand (.lock (.addJob, 1)),
    .strand (.testReady (.addJob, 1)), .strand (.unlock (.addJob, 1) none), .strand (.return_ 1)]

/-- The only job runs before its token looks for the next one and the caller lets go. -/
def emptyQueueRun : List Action :=
  addFirst ++ [.strand (.startJob 0 0), .strand (.finishJob 0), .strand (.lock (.aliveToken, 0)),
    .strand (.testReady (.aliveToken, 0)), .strand (.consumeOne (.aliveToken, 0)),
    .strand (.storeReady (.aliveToken, 0) none), .strand (.unlock (.aliveToken, 0) none),
    .releaseHandle]

theorem accepted_jobs_kept_emptyQueueRun :
    system.StatesMeet AcceptedKept initial emptyQueueRun :=
  (accepted_jobs_kept (system.exec_after (by decide))).mpr (by decide)

/-- The caller adds two jobs and releases its pointer. -/
def releasedRun : List Action :=
  addFirst ++ addSecond ++ [.releaseHandle]

/-- The runner expires, then a job is added. -/
def lateRun : List Action :=
  [.strand .expireRunner, .copyHandle, .call 0 .enqueue, .strand (.push 0),
    .strand (.lock (.addJob, 0)), .strand (.testReady (.addJob, 0)),
    .strand (.consumeOne (.addJob, 0)), .strand (.storeReady (.addJob, 0) (some 0)),
    .strand (.unlock (.addJob, 0) (some 0)), .strand (.pushToRunner (.addJob, 0) 0 0),
    .strand (.return_ 0)]

/-- An accepted job disappears although the runner is there, and a job added after the runner
expired is thrown away and reported as added. -/
theorem accepted_job_dropped :
    (¬ system.StatesMeet AcceptedKept initial releasedRun ∧
      Accepted (system.after initial releasedRun).strand 1 ∧
      (system.after initial releasedRun).strand.phase 1 = .dropped ∧
      (system.after initial releasedRun).strand.runnerAlive = true) ∧
    ¬ system.StatesMeet AcceptedKept initial lateRun ∧
      (system.after initial lateRun).strand.pc (.addJob, 0) = .returned .enqueued ∧
      (system.after initial lateRun).strand.phase 0 = .discarded := by
  have hacc : Accepted (system.after initial releasedRun).strand 1 := Or.inr (by decide)
  refine ⟨⟨fun h => ?_, hacc, by decide, by decide⟩, fun h => ?_, by decide, by decide⟩
  · have hkept := (h.last (system.exec_after (by decide))).accepted (by decide) (by decide) 1 hacc
    exact absurd hkept (by decide)
  · have hlate := (h.last (system.exec_after (by decide))).late 0 (by decide)
    exact hlate (by decide)

end CrisCore.StrandOwnership
