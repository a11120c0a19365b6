import CrisCore.StrandModel
import Mathlib.Data.List.Nodup

/-! The life of one job, and which container holds it at each moment. -/
namespace CrisCore.Strand

/-- How far the call that added a job has come, as far as the job is concerned. -/
inductive Stage
  | unaccepted
  | claimed
  | inPlace
  | ranInPlace
  | enqueued
  deriving DecidableEq

def Pc.stage : Pc → Stage
  | .idle | .tryLock | .testEmpty | .unlockForce false | .push | .returned .rejected => .unaccepted
  | .setReady | .unlockForce true => .claimed
  | .inPlace => .inPlace
  | .returned .finished => .ranInPlace
  | .lock | .testReady | .consumeOne | .storeReady _ | .unlock _ | .pushToRunner _ | .done
  | .returned .enqueued => .enqueued

/-- What a program counter holds in `next`. -/
def Pc.carried : Pc → Option JobId
  | .storeReady n => n
  | .unlock n => n
  | .pushToRunner k => some k
  | _ => none

theorem reject_stage (s : State) (j : JobId) : (reject s j).stage = .unaccepted := by
  unfold reject
  split <;> rfl

theorem reject_carried (s : State) (j : JobId) : (reject s j).carried = none := by
  unfold reject
  split <;> rfl

/-- Everything the state says about one job. -/
structure JobView where
  phase : Phase
  stage : Stage
  released : Bool
  owns : Bool
  shared : ℕ
  handedOver : Bool

def State.view (s : State) (j : JobId) : JobView where
  phase := s.phase j
  stage := (s.pc (.addJob, j)).stage
  released := s.pc (.aliveToken, j) != .idle
  owns := s.ownsToken j
  shared := s.sharedTokens j
  handedOver := s.handedOver j

def JobView.destroy (v : JobView) (strandAlive : Bool) (p : Phase) : JobView :=
  { v with
    phase := p
    owns := false
    released := v.released || (strandAlive && v.owns && v.shared == 0) }

/-- The life of one job, step by step; `alive` says whether a release still finds the strand. -/
inductive JobStep (alive : Bool) : JobView → JobView → Prop
  | claim {v} (h : v.stage = .unaccepted) :
    JobStep alive v { v with phase := .claimed, stage := .claimed }
  | startInPlace {v} (h : v.stage = .claimed) :
    JobStep alive v { v with phase := .running, stage := .inPlace, owns := true }
  | enqueue {v} (h : v.stage = .unaccepted) :
    JobStep alive v { v with phase := .pending, stage := .enqueued, owns := true }
  | pop {v} (a : Activation) (h : v.phase = .pending) : JobStep alive v { v with phase := .popped a }
  | hand {v} (a : Activation) (w : ℕ) (h : v.phase = .popped a) :
    JobStep alive v { v with phase := .queued w }
  | start {v} (w : ℕ) (h : v.phase = .queued w) : JobStep alive v { v with phase := .running }
  | finish {v} (h : v.phase = .running) : JobStep alive v (v.destroy alive .finished)
  | discardPopped {v} (a : Activation) (h : v.phase = .popped a) :
    JobStep alive v (v.destroy alive .discarded)
  | discardQueued {v} (w : ℕ) (h : v.phase = .queued w) :
    JobStep alive v (v.destroy alive .discarded)
  | drop {v} (h : v.phase = .pending) : JobStep alive v { v with phase := .dropped, owns := false }
  | share {v} (h : (v.phase = .running ∧ v.owns = true) ∨ 0 < v.shared) :
    JobStep alive v { v with shared := v.shared + 1 }
  | handOver {v} (h : v.phase = .running ∧ v.owns = true) :
    JobStep alive v { v with owns := false, shared := v.shared + 1, handedOver := true }
  | dropToken {v} (h : 0 < v.shared) :
    JobStep alive v { v with
      shared := v.shared - 1
      released := v.released || (alive && v.shared == 1 && !v.owns) }
  | return_ {v} (h : v.stage = .inPlace) (hp : v.phase = .finished) :
    JobStep alive v { v with stage := .ranInPlace }

/-- Phase, call, release and token references of one job agree. -/
def JobOk (v : JobView) : Prop :=
  match v.phase with
  | .absent => v.stage = .unaccepted ∧ v.released = false ∧ v.owns = false ∧ v.shared = 0
  | .claimed => v.stage = .claimed ∧ v.released = false ∧ v.owns = false ∧ v.shared = 0
  | .pending | .popped _ | .queued _ =>
    v.stage = .enqueued ∧ v.released = false ∧ v.owns = true ∧ v.shared = 0
  | .running =>
    (v.stage = .inPlace ∨ v.stage = .enqueued) ∧ (v.owns = false → v.handedOver = true) ∧
      (v.released = true → v.owns = false ∧ v.shared = 0)
  | .finished =>
    (v.stage = .inPlace ∨ v.stage = .ranInPlace ∨ v.stage = .enqueued) ∧ v.owns = false ∧
      (v.released = true → v.shared = 0)
  | .discarded => v.stage = .enqueued ∧ v.owns = false ∧ v.shared = 0
  | .dropped => v.stage = .enqueued ∧ v.released = false ∧ v.owns = false ∧ v.shared = 0

namespace JobOk
variable {v w : JobView}

theorem phase_of_unaccepted (h : JobOk v) (hs : v.stage = .unaccepted) : v.phase = .absent := by
  unfold JobOk at h
  split at h <;> simp_all

theorem phase_of_claimed (h : JobOk v) (hs : v.stage = .claimed) : v.phase = .claimed := by
  unfold JobOk at h
  split at h <;> simp_all

theorem phase_of_shared (h : JobOk v) (hs : 0 < v.shared) :
    v.phase = .running ∨ v.phase = .finished := by
  unfold JobOk at h
  split at h <;> simp_all

theorem phase_of_released (h : JobOk v) (hr : v.released = true) :
    v.phase = .running ∨ v.phase = .finished ∨ v.phase = .discarded := by
  unfold JobOk at h
  split at h <;> simp_all

theorem released_of_owns (h : JobOk v) (ho : v.owns = true) : v.released = false := by
  unfold JobOk at h
  split at h <;> grind

theorem released_of_shared (h : JobOk v) (hs : 0 < v.shared) : v.released = false := by
  unfold JobOk at h
  split at h <;> grind

theorem step {alive : Bool} (h : JobOk v) (hs : JobStep alive v w) : JobOk w := by
  cases hs with
  | claim hv | enqueue hv =>
    have hp := h.phase_of_unaccepted hv
    simp_all [JobOk]
  | startInPlace hv =>
    have hp := h.phase_of_claimed hv
    simp_all [JobOk]
  | finish hv =>
    simp only [JobOk, hv] at h
    simp only [JobOk, JobView.destroy]
    grind
  | discardPopped _ hv | discardQueued _ hv => simp_all [JobOk, JobView.destroy]
  | share hv =>
    rcases hv with ⟨hp, ho⟩ | hv
    · simp_all [JobOk]
    · rcases h.phase_of_shared hv with hp | hp <;> simp only [JobOk, hp] at h ⊢ <;> grind
  | dropToken hv =>
    rcases h.phase_of_shared hv with hp | hp <;> simp only [JobOk, hp] at h ⊢ <;> grind
  | pop | hand | start | drop | handOver | return_ => simp_all [JobOk]

end JobOk

/-- While the strand is alive, the token of a job that left the queues is referenced or released. -/
def Tethered (v : JobView) : Prop :=
  v.phase = .running ∨ v.phase = .finished ∨ v.phase = .discarded →
    v.owns = true ∨ 0 < v.shared ∨ v.released = true

theorem Tethered.step {v w : JobView} (h : Tethered v) (hv : JobOk v) (hs : JobStep true v w) :
    Tethered w := by
  cases hs with
  | discardPopped _ hp | discardQueued _ hp =>
    simp only [JobOk, hp] at hv
    simp [Tethered, JobView.destroy, hv]
  | start _ hp =>
    simp only [JobOk, hp] at hv
    simp [Tethered, hv]
  | finish hp | dropToken hp =>
    simp only [Tethered, JobView.destroy] at h ⊢
    grind
  | claim | startInPlace | enqueue | pop | hand | drop | share | handOver | return_ =>
    simp_all [Tethered]

/-- The containers hold exactly the jobs whose phase says so, each once. -/
structure PlaceInv (s : State) : Prop where
  pending_nodup : s.pendingJobs.Nodup
  mem_pending : ∀ j, j ∈ s.pendingJobs ↔ s.phase j = .pending
  queue_nodup : ∀ w, (s.jobQueue w).Nodup
  mem_queue : ∀ w j, j ∈ s.jobQueue w ↔ s.phase j = .queued w
  carried : ∀ a k, (s.pc a).carried = some k ↔ s.phase k = .popped a

/-- Moving a program counter inside its stage changes nothing a job can see. -/
theorem view_setPc {s : State} {a : Activation} {p : Pc} (h : (s.pc a).stage = p.stage)
    (hi : s.pc a = .idle ↔ p = .idle) (j : JobId) : (s.setPc a p).view j = s.view j := by
  obtain ⟨role, k⟩ := a
  simp only [State.view, State.setPc, Function.update_apply]
  cases role <;> grind

theorem view_destroyJob (s : State) (k : JobId) (p : Phase) (j : JobId) :
    (s.destroyJob k p).view j =
      if j = k then (s.view k).destroy s.strandAlive p else s.view j := by
  simp only [State.destroyJob_eq, State.view, JobView.destroy]
  split_ifs <;> simp_all

/-- A step is a step in the life of one job, or nothing to it. -/
theorem view_step {s : State} {e : Action} (he : Enabled s e) (hp : PlaceInv s) (j : JobId) :
    (next s e).view j = s.view j ∨ JobStep s.strandAlive (s.view j) ((next s e).view j) := by
  -- one job moves
  have hone {k : JobId} {v : JobView} (hk : (next s e).view k = v)
      (hm : JobStep s.strandAlive (s.view k) v)
      (hothers : ∀ i, i ≠ k → (next s e).view i = s.view i) :
      (next s e).view j = s.view j ∨ JobStep s.strandAlive (s.view j) ((next s e).view j) := by
    by_cases hj : j = k
    · subst hj
      rw [hk]
      exact Or.inr hm
    · exact Or.inl (hothers j hj)
  have hrej := reject_stage s
  cases e <;> simp only [Enabled] at he
  case call k form =>
    left
    cases form <;> simp only [State.view, next, State.setPc, Function.update_apply] <;>
      grind [Pc.stage]
  case tryLock k =>
    left
    simp only [next]
    split_ifs <;> simp only [State.view, State.setPc, Function.update_apply] <;> grind [Pc.stage]
  case testEmpty k =>
    by_cases hc : (s.hasReadyJob || !s.pendingJobs.isEmpty) = true
    · left
      simp only [next, if_pos hc]
      exact view_setPc (by rw [he]; rfl) (by simp [he]) j
    · have hv : (s.view k).stage = .unaccepted := by simp only [State.view, he, Pc.stage]
      refine hone ?_ (.claim hv) fun i hi => ?_
      · simp only [next, if_neg hc]
        simp [State.view, State.setPc, State.setPhase, Pc.stage]
      · simp only [next, if_neg hc]
        simp [State.view, State.setPc, State.setPhase, hi]
  case setReady k =>
    left
    change (s.setPc _ (.unlockForce true)).view j = _
    exact view_setPc (by rw [he]; rfl) (by simp [he]) j
  case unlockForce k accepted =>
    cases accepted with
    | false =>
      left
      simp only [State.view, next, State.setPc, Function.update_apply]
      grind [Pc.stage]
    | true =>
      have hv : (s.view k).stage = .claimed := by simp only [State.view, he, Pc.stage]
      refine hone ?_ (.startInPlace hv) fun i hi => ?_
      · simp [State.view, next, State.setPc, State.setPhase, Pc.stage]
      · simp [State.view, next, State.setPc, State.setPhase, hi]
  case push k =>
    have hv : (s.view k).stage = .unaccepted := by simp only [State.view, he, Pc.stage]
    refine hone ?_ (.enqueue hv) fun i hi => ?_
    · simp [State.view, next, State.setPc, State.setPhase, Pc.stage]
    · simp [State.view, next, State.setPc, State.setPhase, hi]
  case lock a =>
    left
    change (s.setPc a .testReady).view j = _
    exact view_setPc (by rw [he.1]; rfl) (by simp [he]) j
  case testReady a =>
    left
    simp only [next]
    split_ifs <;> exact view_setPc (by rw [he]; rfl) (by simp [he]) j
  case consumeOne a =>
    have hpc (n : Option JobId) (i : JobId) : (s.setPc a (.storeReady n)).view i = s.view i :=
      view_setPc (by rw [he]; rfl) (by simp [he]) i
    cases hpend : s.pendingJobs with
    | nil =>
      left
      simp only [next, hpend]
      exact hpc none j
    | cons k rest =>
      have hv : (s.view k).phase = .pending := (hp.mem_pending k).mp (by simp [hpend])
      refine hone ?_ (.pop a hv) fun i hi => ?_
      · rw [← hpc (some k)]
        simp [next, hpend, State.view, State.setPhase]
      · rw [← hpc (some k)]
        simp [next, hpend, State.view, State.setPhase, hi]
  case storeReady a n =>
    left
    change (s.setPc a (.unlock n)).view j = _
    exact view_setPc (by rw [he]; rfl) (by simp [he]) j
  case unlock a n =>
    left
    cases n with
    | none =>
      change (s.setPc a .done).view j = _
      exact view_setPc (by rw [he]; rfl) (by simp [he]) j
    | some k =>
      change (s.setPc a (.pushToRunner k)).view j = _
      exact view_setPc (by rw [he]; rfl) (by simp [he]) j
  case pushToRunner a k w =>
    have hpc (i : JobId) : (s.setPc a .done).view i = s.view i :=
      view_setPc (by rw [he]; rfl) (by simp [he]) i
    have hv : (s.view k).phase = .popped a := (hp.carried a k).mp (by rw [he]; rfl)
    by_cases hr : s.runnerAlive = true
    · refine hone ?_ (.hand a w hv) fun i hi => ?_
      · rw [← hpc k]
        simp [next, hr, State.view, State.setPhase]
      · rw [← hpc i]
        simp [next, hr, State.view, State.setPhase, hi]
    · refine hone ?_ (.discardPopped a hv) fun i hi => ?_
      · simp only [next, if_neg hr]
        rw [view_destroyJob, if_pos rfl, hpc]
        rfl
      · simp only [next, if_neg hr]
        rw [view_destroyJob, if_neg hi, hpc]
  case return_ k =>
    by_cases hk : s.pc (.addJob, k) = .inPlace
    · have hph : s.phase k = .finished := by
        rcases he with he | he
        · rw [hk] at he
          cases he
        · exact he.2
      have hv : (s.view k).stage = .inPlace := by simp only [State.view, hk, Pc.stage]
      refine hone ?_ (.return_ hv hph) fun i hi => ?_
      · simp [State.view, next, State.setPc, hk, Pc.stage]
      · simp [State.view, next, State.setPc, hi]
    · have hd : s.pc (.addJob, k) = .done := by
        rcases he with he | he
        · exact he
        · exact absurd he.1 hk
      left
      refine view_setPc ?_ ?_ j <;> simp [hd, Pc.stage]
  case startJob w k =>
    have hv : (s.view k).phase = .queued w := (hp.mem_queue w k).mp (List.mem_of_head? he)
    refine hone ?_ (.start w hv) fun i hi => ?_
    · simp [State.view, next, State.setPhase]
    · simp [State.view, next, State.setPhase, hi]
  case finishJob k =>
    refine hone ?_ (.finish he) fun i hi => ?_
    · simp only [next, view_destroyJob, if_true]
    · simp only [next, view_destroyJob, if_neg hi]
  case shareToken k =>
    refine hone ?_ (.share (v := s.view k) he) fun i hi => ?_
    · simp [State.view, next]
    · simp [State.view, next, hi]
  case handOverToken k =>
    refine hone ?_ (.handOver (v := s.view k) he) fun i hi => ?_
    · simp [State.view, next]
    · simp [State.view, next, hi]
  case dropToken k =>
    refine hone ?_ (.dropToken (v := s.view k) he) fun i hi => ?_
    · simp only [next, State.releaseToken]
      split_ifs <;> simp_all [State.view, State.setPc]
    · simp only [next, State.releaseToken]
      split_ifs <;> simp [State.view, State.setPc, hi]
  case expireRunner => exact Or.inl rfl
  case discardQueued w k =>
    have hv : (s.view k).phase = .queued w := (hp.mem_queue w k).mp (List.mem_of_head? he.2)
    refine hone ?_ (.discardQueued w hv) fun i hi => ?_
    · simp only [next, view_destroyJob, if_true]
      rfl
    · simp only [next, view_destroyJob, if_neg hi]
      rfl
  case expireStrand =>
    by_cases hj : j ∈ s.pendingJobs
    · right
      have hv : (s.view j).phase = .pending := (hp.mem_pending j).mp hj
      convert JobStep.drop hv using 1
      simp [State.view, next, hj]
    · left
      simp [State.view, next, hj]

theorem jobOk_step {s : State} {e : Action} (he : Enabled s e) (hp : PlaceInv s)
    (hj : ∀ j, JobOk (s.view j)) (j : JobId) : JobOk ((next s e).view j) := by
  rcases view_step he hp j with hv | hv
  · rw [hv]
    exact hj j
  · exact (hj j).step hv

theorem jobOk_initial (j : JobId) : JobOk (initial.view j) := by
  simp [JobOk, State.view, initial, Pc.stage]

end CrisCore.Strand
