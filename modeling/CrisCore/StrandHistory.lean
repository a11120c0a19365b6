import CrisCore.StrandExclusion
import CrisCore.StrandMoves

/-! What became of the jobs while strand and runner are alive: who was pushed, who was handed to
the runner, in which order, and who ran in place. -/
namespace CrisCore.Strand
variable {s : State} {e : Action}

theorem next_strandAlive (s : State) (e : Action) :
    (next s e).strandAlive = (s.strandAlive && e != .expireStrand) := by
  cases e <;> simp only [next, State.destroyJob_eq, State.releaseToken_eq] <;>
    (repeat' split) <;> simp_all [State.setPc, State.setPhase]

theorem next_runnerAlive (s : State) (e : Action) :
    (next s e).runnerAlive = (s.runnerAlive && e != .expireRunner) := by
  cases e <;> simp only [next, State.destroyJob_eq, State.releaseToken_eq] <;>
    (repeat' split) <;> simp_all [State.setPc, State.setPhase]

/-- Jobs are only thrown away once the strand or the runner is gone. -/
structure NoLoss (s : State) : Prop where
  dropped : s.strandAlive = true → ∀ j, s.phase j ≠ .dropped
  discarded : s.runnerAlive = true → ∀ j, s.phase j ≠ .discarded

theorem phase_dropped_next {j : JobId} (he : Enabled s e) (hs : Coherent s)
    (h : (next s e).phase j = .dropped) : s.phase j = .dropped ∨ e = .expireStrand := by
  rcases phase_step he hs j with hp | hp
  · exact Or.inl (hp.symm.trans h)
  · rw [h] at hp
    generalize s.phase j = p at hp
    cases hp
    exact Or.inr rfl

theorem phase_discarded_next {j : JobId} (he : Enabled s e) (hs : Coherent s)
    (h : (next s e).phase j = .discarded) :
    s.phase j = .discarded ∨ s.runnerAlive = false := by
  rcases phase_step he hs j with hp | hp
  · exact Or.inl (hp.symm.trans h)
  · rw [h] at hp
    generalize s.phase j = p at hp
    cases hp with
    | discardPopped a j w hr => exact Or.inr hr
    | discardQueued w j hr => exact Or.inr hr

theorem noLoss_step (he : Enabled s e) (hs : Coherent s) (h : NoLoss s) : NoLoss (next s e) where
  dropped ha j hj := by
    rw [next_strandAlive] at ha
    simp only [Bool.and_eq_true, bne_iff_ne] at ha
    rcases phase_dropped_next he hs hj with hj | hj
    · exact h.dropped ha.1 j hj
    · exact ha.2 hj
  discarded hr j hj := by
    rw [next_runnerAlive] at hr
    simp only [Bool.and_eq_true, bne_iff_ne] at hr
    rcases phase_discarded_next he hs hj with hj | hj
    · exact h.discarded hr.1 j hj
    · rw [hr.1] at hj
      cases hj

/-- Each job was pushed at most once and run in place at most once, never both. -/
structure Counted (s : State) : Prop where
  pushed : ∀ j, s.pushed.count j = if (s.view j).stage = .enqueued then 1 else 0
  ranInPlace : ∀ j, s.ranInPlace.count j =
    if (s.view j).stage = .inPlace ∨ (s.view j).stage = .ranInPlace then 1 else 0

theorem pushed_next (h : ∀ k, e ≠ .push k) : (next s e).pushed = s.pushed := by
  cases e <;> simp only [next, State.destroyJob_eq, State.releaseToken_eq] <;>
    (repeat' split) <;> simp_all [State.setPc, State.setPhase]

theorem ranInPlace_next (h : ∀ k, e ≠ .unlockForce k true) :
    (next s e).ranInPlace = s.ranInPlace := by
  cases e <;> simp only [next, State.destroyJob_eq, State.releaseToken_eq] <;>
    (repeat' split) <;> simp_all [State.setPc, State.setPhase]

theorem PcStep.enqueued_iff {j : JobId} {p q : Pc} (h : PcStep s e (.addJob, j) p q)
    (hp : e ≠ .push j) : p.stage = .enqueued ↔ q.stage = .enqueued := by
  have hrej := reject_stage s j
  cases h with
  | push => exact absurd rfl hp
  | call j form => cases form <;> exact iff_of_false nofun nofun
  | lockTaken | unlockRejected =>
    rw [hrej]
    exact iff_of_false nofun nofun
  | tryLock | decline | claim | setReady | unlockAccepted | returnInPlace =>
    exact iff_of_false nofun nofun
  | _ => exact Iff.rfl

theorem PcStep.inPlace_iff {j : JobId} {p q : Pc} (h : PcStep s e (.addJob, j) p q)
    (hu : e ≠ .unlockForce j true) : p.stage = .inPlace ∨ p.stage = .ranInPlace ↔
      q.stage = .inPlace ∨ q.stage = .ranInPlace := by
  have hrej := reject_stage s j
  cases h with
  | unlockAccepted => exact absurd rfl hu
  | call j form => cases form <;> simp [Form.entry, Pc.stage]
  | lockTaken | unlockRejected =>
    rw [hrej]
    simp [Pc.stage]
  | _ => simp [Pc.stage]

theorem counted_step (he : Enabled s e) (hs : Coherent s) (h : Counted s) :
    Counted (next s e) where
  pushed j := by
    -- a push counts once, as the job was not accepted before
    by_cases hp : ∃ k, e = .push k
    · obtain ⟨k, rfl⟩ := hp
      have hpush : s.pc (.addJob, k) = .push := he
      by_cases hj : j = k
      · subst hj
        have hbefore : s.pushed.count j = 0 := by
          rw [h.pushed, if_neg (by simp [State.view, hpush, Pc.stage])]
        rw [if_pos (by simp [next, State.view, State.setPc, State.setPhase, Pc.stage])]
        simp [next, hbefore]
      · have hview : (next s (.push k)).view j = s.view j := by
          simp [next, State.view, State.setPc, State.setPhase, hj]
        rw [hview, ← h.pushed]
        simp [next, Ne.symm hj]
    · have hne (k) : e ≠ .push k := fun h => hp ⟨k, h⟩
      have hstage : (s.view j).stage = .enqueued ↔ ((next s e).view j).stage = .enqueued := by
        rcases pc_step he hs (.addJob, j) with hpc | hpc
        · simp only [State.view, hpc]
        · exact hpc.enqueued_iff (hne j)
      rw [pushed_next hne, h.pushed]
      simp only [hstage]
  ranInPlace j := by
    -- and so does a start in place
    by_cases hu : ∃ k, e = .unlockForce k true
    · obtain ⟨k, rfl⟩ := hu
      have hunlock : s.pc (.addJob, k) = .unlockForce true := he
      by_cases hj : j = k
      · subst hj
        have hbefore : s.ranInPlace.count j = 0 := by
          rw [h.ranInPlace, if_neg (by simp [State.view, hunlock, Pc.stage])]
        rw [if_pos (by simp [next, State.view, State.setPc, State.setPhase, Pc.stage])]
        simp [next, hbefore]
      · have hview : (next s (.unlockForce k true)).view j = s.view j := by
          simp [next, State.view, State.setPc, State.setPhase, hj]
        rw [hview, ← h.ranInPlace]
        simp [next, Ne.symm hj]
    · have hne (k) : e ≠ .unlockForce k true := fun h => hu ⟨k, h⟩
      have hstage : (s.view j).stage = .inPlace ∨ (s.view j).stage = .ranInPlace ↔
          ((next s e).view j).stage = .inPlace ∨ ((next s e).view j).stage = .ranInPlace := by
        rcases pc_step he hs (.addJob, j) with hpc | hpc
        · simp only [State.view, hpc]
        · exact hpc.inPlace_iff (hne j)
      rw [ranInPlace_next hne, h.ranInPlace]
      simp only [hstage]

/-- Pushed jobs are handed to the runner in the order of the pushes: the handed ones, then the
one popped and not yet handed, then the pending ones. -/
def InOrder (s : State) : Prop :=
  ∃ flight : Option JobId, s.pushed = s.handed ++ flight.toList ++ s.pendingJobs ∧
    ∀ k, flight = some k ↔ ∃ a, s.phase k = .popped a

/-- When the next job is popped the previous one was handed over. -/
theorem not_popped_of_consumeOne {b : FifoBaton JobId} (hs : Coherent s) (hb : Refines s b)
    {a : Activation} (ha : s.pc a = .consumeOne) (k : JobId) (a' : Activation) :
    s.phase k ≠ .popped a' := by
  intro hk
  have hact : Active s k := active_of_waiting hs (Or.inr ⟨a', hk⟩)
  have hh : b.holder = some k := (hb.holder k).mp hact
  obtain ⟨role, j⟩ := a
  cases role with
  | addJob =>
    have hn : b.holder = none := hb.consume j (by rw [ha]; rfl)
    rw [hn] at hh
    cases hh
  | aliveToken =>
    have hr : (s.view j).released = true := by simp [State.view, ha]
    have hj : Active s j :=
      active_of_released hs hr (by simp [Decided, ha, Pc.turn, Turn.decided])
    cases hb.active_unique hact hj
    have hp := (hs.job k).phase_of_released hr
    simp [State.view, hk] at hp

theorem InOrder.congr {t : State} (h : InOrder s) (hpush : t.pushed = s.pushed)
    (hhand : t.handed = s.handed) (hpend : t.pendingJobs = s.pendingJobs)
    (hphase : ∀ k a, t.phase k = .popped a ↔ s.phase k = .popped a) : InOrder t := by
  obtain ⟨flight, h1, h2⟩ := h
  refine ⟨flight, by rw [hpush, hhand, hpend, h1], fun k => ?_⟩
  simp only [h2, hphase]

theorem inOrder_step {b : FifoBaton JobId} (he : Enabled s e) (hs : Coherent s)
    (hb : Refines s b) (hr : s.runnerAlive = true) (ha : e ≠ .expireStrand) (h : InOrder s) :
    InOrder (next s e) := by
  have habs (j) (h : (s.pc (.addJob, j)).stage = .unaccepted) : s.phase j = .absent :=
    (hs.job j).phase_of_unaccepted h
  have hclaim (j) (h : (s.pc (.addJob, j)).stage = .claimed) : s.phase j = .claimed :=
    (hs.job j).phase_of_claimed h
  have hqueue := hs.place.mem_queue
  cases e <;> simp only [Enabled] at he
  case expireStrand => exact absurd rfl ha
  -- to the end of the pending ones
  case push k =>
    obtain ⟨flight, h1, h2⟩ := h
    have hk := habs k (by rw [he]; rfl)
    refine ⟨flight, by simp [next, State.setPc, State.setPhase, h1], fun j => ?_⟩
    by_cases hj : j = k
    · simp [next, State.setPhase, hj, h2, hk]
    · simp [next, State.setPhase, State.setPc, hj, h2]
  -- nobody is in flight, and the first pending one comes to be
  case consumeOne a =>
    obtain ⟨flight, h1, h2⟩ := h
    have hf : flight = none := by
      cases hfl : flight with
      | none => rfl
      | some k =>
        obtain ⟨a', hk⟩ := (h2 k).mp hfl
        exact absurd hk (not_popped_of_consumeOne hs hb he k a')
    simp only [next]
    split
    case h_1 hnil =>
      rw [hf] at h1 h2
      exact ⟨none, h1, h2⟩
    case h_2 k rest hk =>
      have hnone (j) (a') : s.phase j ≠ .popped a' := not_popped_of_consumeOne hs hb he j a'
      refine ⟨some k, by simp [State.setPc, State.setPhase, h1, hf, hk], fun j => ?_⟩
      by_cases hj : j = k
      · simp [State.setPhase, hj]
      · simp [State.setPhase, State.setPc, hj, Ne.symm hj, hnone]
  -- the one in flight is handed over
  case pushToRunner a k w =>
    obtain ⟨flight, h1, h2⟩ := h
    have hk : s.phase k = .popped a := (hs.place.carried a k).mp (by rw [he]; rfl)
    have hf : flight = some k := (h2 k).mpr ⟨a, hk⟩
    refine ⟨none, by simp [next, hr, State.setPc, State.setPhase, h1, hf], fun j => ?_⟩
    by_cases hj : j = k
    · simp [next, hr, State.setPhase, hj]
    · have hn : ¬ ∃ a', s.phase j = .popped a' := by
        rw [← h2 j, hf]
        exact fun h => hj (Option.some.inj h).symm
      simpa [next, hr, State.setPhase, State.setPc, hj] using hn
  case unlockForce k accepted =>
    cases accepted with
    | false => exact h.congr rfl rfl rfl fun _ _ => Iff.rfl
    | true =>
      have hk := hclaim k (by rw [he]; rfl)
      refine h.congr rfl rfl rfl fun j a => ?_
      simp only [next, State.setPhase, State.setPc, Function.update_apply]
      grind
  case call k form => cases form <;> exact h.congr rfl rfl rfl fun _ _ => Iff.rfl
  case tryLock k =>
    simp only [next]
    split <;> exact h.congr rfl rfl rfl fun _ _ => Iff.rfl
  case testReady a =>
    simp only [next]
    split <;> exact h.congr rfl rfl rfl fun _ _ => Iff.rfl
  case unlock a n => cases n <;> exact h.congr rfl rfl rfl fun _ _ => Iff.rfl
  case testEmpty k =>
    have hk := habs k (by rw [he]; rfl)
    simp only [next]
    split
    · exact h.congr rfl rfl rfl fun _ _ => Iff.rfl
    · refine h.congr rfl rfl rfl fun j a => ?_
      simp only [State.setPhase, State.setPc, Function.update_apply]
      grind
  case startJob w k =>
    have hk := (hqueue w k).mp (List.mem_of_head? he)
    refine h.congr rfl rfl rfl fun j a => ?_
    simp only [next, State.setPhase, Function.update_apply]
    grind
  case finishJob k =>
    simp only [next, State.destroyJob_eq]
    refine h.congr rfl rfl rfl fun j a => ?_
    simp only [Function.update_apply]
    grind
  case discardQueued w k => simp [hr] at he
  case dropToken k =>
    simp only [next, State.releaseToken_eq]
    split <;> exact h.congr rfl rfl rfl fun _ _ => Iff.rfl
  all_goals exact h.congr rfl rfl rfl fun _ _ => Iff.rfl

/-- Where a release of a token can be. -/
def Pc.releases : Pc → Bool
  | .idle | .lock | .testReady | .consumeOne | .storeReady _ | .unlock _ | .pushToRunner _
  | .done => true
  | _ => false

theorem releases_step (he : Enabled s e) (hs : Coherent s)
    (h : ∀ j, (s.pc (.aliveToken, j)).releases = true) (j : JobId) :
    ((next s e).pc (.aliveToken, j)).releases = true := by
  rcases pc_step he hs (.aliveToken, j) with hp | hp
  · rw [hp]
    exact h j
  · generalize s.pc (.aliveToken, j) = p at hp
    generalize (next s e).pc (.aliveToken, j) = q at hp ⊢
    cases hp <;> rfl

/-- The invariants about the past. -/
structure Recorded (s : State) : Prop where
  noLoss : NoLoss s
  counted : Counted s
  inOrder : s.strandAlive = true → s.runnerAlive = true → InOrder s
  tethered : s.strandAlive = true → ∀ j, Tethered (s.view j)
  releases : ∀ j, (s.pc (.aliveToken, j)).releases = true

theorem recorded_initial : Recorded initial where
  noLoss := by constructor <;> simp [initial]
  counted := by constructor <;> simp [initial, State.view, Pc.stage]
  inOrder _ _ := ⟨none, rfl, by simp [initial]⟩
  tethered _ j := by simp [Tethered, State.view, initial]
  releases _ := rfl

theorem recorded_step {b : FifoBaton JobId} (he : Enabled s e) (hs : Coherent s)
    (hb : Refines s b) (h : Recorded s) : Recorded (next s e) where
  noLoss := noLoss_step he hs h.noLoss
  counted := counted_step he hs h.counted
  inOrder ha hr := by
    rw [next_strandAlive] at ha
    rw [next_runnerAlive] at hr
    simp only [Bool.and_eq_true, bne_iff_ne] at ha hr
    exact inOrder_step he hs hb hr.1 ha.2 (h.inOrder ha.1 hr.1)
  tethered ha j := by
    rw [next_strandAlive] at ha
    simp only [Bool.and_eq_true, bne_iff_ne] at ha
    rcases view_step he hs.place j with hv | hv
    · rw [hv]
      exact h.tethered ha.1 j
    · rw [ha.1] at hv
      exact (h.tethered ha.1 j).step (hs.job j) hv
  releases := releases_step he hs h.releases

theorem reachable_recorded (h : system.Reachable s) : Recorded s := by
  refine h.invariant_of_reachable (P := Recorded) ?_ ?_
  · rintro s rfl
    exact recorded_initial
  · intro s e t hreach hr hst
    obtain ⟨hs, b, hb⟩ := reachable_refines hreach
    obtain ⟨he, rfl⟩ := step_eq_some.mp hst
    exact recorded_step he hs hb hr

end CrisCore.Strand
