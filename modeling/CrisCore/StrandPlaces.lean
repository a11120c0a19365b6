import CrisCore.StrandLife

/-! Every step keeps each job in the container that its phase names. -/
namespace CrisCore.Strand

theorem placeInv_initial : PlaceInv initial := by
  constructor <;> simp [initial, Pc.carried]

/-- The containers agree with the phase of one job. -/
def Placed (s : State) (j : JobId) : Prop :=
  (j ∈ s.pendingJobs ↔ s.phase j = .pending) ∧ (∀ w, j ∈ s.jobQueue w ↔ s.phase j = .queued w) ∧
    ∀ a, (s.pc a).carried = some j ↔ s.phase j = .popped a

/-- No container holds a job of this phase. -/
def Phase.outside : Phase → Bool
  | .pending | .queued _ | .popped _ => false
  | _ => true

theorem setPc_carried {s : State} {a : Activation} {p : Pc} (h : p.carried = (s.pc a).carried)
    (a' : Activation) : ((s.setPc a p).pc a').carried = (s.pc a').carried := by
  simp only [State.setPc, Function.update_apply]
  split
  case isTrue ha => rw [h, ha]
  case isFalse => rfl

namespace PlaceInv
variable {s t : State} {k : JobId}

theorem placed (h : PlaceInv s) (j : JobId) : Placed s j :=
  ⟨h.mem_pending j, fun w => h.mem_queue w j, fun a => h.carried a j⟩

theorem not_mem_of_outside (h : PlaceInv s) (hk : (s.phase k).outside = true) :
    k ∉ s.pendingJobs ∧ (∀ w, k ∉ s.jobQueue w) ∧ ∀ a, (s.pc a).carried ≠ some k := by
  obtain ⟨h1, h2, h3⟩ := h.placed k
  refine ⟨fun hm => ?_, fun w hm => ?_, fun a hc => ?_⟩
  · rw [h1.mp hm] at hk
    cases hk
  · rw [(h2 w).mp hm] at hk
    cases hk
  · rw [(h3 a).mp hc] at hk
    cases hk

theorem congr (h : PlaceInv s) (hpend : t.pendingJobs = s.pendingJobs)
    (hqueue : t.jobQueue = s.jobQueue) (hphase : t.phase = s.phase)
    (hc : ∀ a, (t.pc a).carried = (s.pc a).carried) : PlaceInv t := by
  obtain ⟨h1, h2, h3, h4, h5⟩ := h
  constructor <;> simpa only [hpend, hqueue, hphase, hc]

/-- One job moves; to the containers the others are where they were. -/
theorem move (h : PlaceInv s) (hpend : t.pendingJobs.Nodup) (hqueue : ∀ w, (t.jobQueue w).Nodup)
    (hk : Placed t k)
    (hothers : ∀ j, j ≠ k → t.phase j = s.phase j ∧ (j ∈ t.pendingJobs ↔ j ∈ s.pendingJobs) ∧
      (∀ w, j ∈ t.jobQueue w ↔ j ∈ s.jobQueue w) ∧
      ∀ a, (t.pc a).carried = some j ↔ (s.pc a).carried = some j) : PlaceInv t := by
  have hplaced (j) : Placed t j := by
    by_cases hj : j = k
    · exact hj ▸ hk
    · obtain ⟨hphase, hp, hq, hc⟩ := hothers j hj
      obtain ⟨h1, h2, h3⟩ := h.placed j
      simp only [Placed, hphase]
      exact ⟨hp.trans h1, fun w => (hq w).trans (h2 w), fun a => (hc a).trans (h3 a)⟩
  exact ⟨hpend, fun j => (hplaced j).1, hqueue, fun w j => (hplaced j).2.1 w,
    fun a j => (hplaced j).2.2 a⟩

/-- A job that is in no container changes its phase and stays outside. -/
theorem setPhase_outside {p : Phase} (h : PlaceInv s) (hk : (s.phase k).outside = true)
    (hp : p.outside = true) : PlaceInv (s.setPhase k p) := by
  obtain ⟨h1, h2, h3⟩ := h.not_mem_of_outside hk
  refine h.move (k := k) h.pending_nodup h.queue_nodup ?_ fun j hj => ?_
  · simp only [Placed, State.setPhase, Function.update_self]
    refine ⟨iff_of_false h1 ?_, fun w => iff_of_false (h2 w) ?_, fun a => iff_of_false (h3 a) ?_⟩ <;>
      · rintro rfl
        cases hp
  · exact ⟨Function.update_of_ne hj _ _, Iff.rfl, fun _ => Iff.rfl, fun _ => Iff.rfl⟩

theorem releaseToken (h : PlaceInv s) (hi : (s.pc (.aliveToken, k)).carried = none) :
    PlaceInv (s.releaseToken k) := by
  unfold State.releaseToken
  split
  · exact h.congr rfl rfl rfl (setPc_carried hi.symm)
  · exact h

/-- `h` is about the state once the job has got its phase. -/
theorem destroyJob {p : Phase} (h : PlaceInv (s.setPhase k p))
    (hi : s.ownsToken k = true → (s.pc (.aliveToken, k)).carried = none) :
    PlaceInv (s.destroyJob k p) := by
  have ht : PlaceInv
      { s.setPhase k p with ownsToken := Function.update s.ownsToken k false } :=
    h.congr rfl rfl rfl fun _ => rfl
  unfold State.destroyJob
  split
  case isTrue hc =>
    simp only [Bool.and_eq_true] at hc
    exact ht.releaseToken (hi hc.1)
  case isFalse => exact ht

end PlaceInv

theorem placeInv_push {s : State} {k : JobId} (hp : PlaceInv s) (he : s.pc (.addJob, k) = .push)
    (hk : s.phase k = .absent) : PlaceInv (next s (.push k)) := by
  obtain ⟨h1, h2, h3⟩ := hp.not_mem_of_outside (k := k) (by rw [hk]; rfl)
  have hc (a) : ((next s (.push k)).pc a).carried = (s.pc a).carried :=
    setPc_carried (s := s) (p := .lock) (by rw [he]; rfl) a
  have hphase : (next s (.push k)).phase k = .pending := by simp [next, State.setPhase]
  refine hp.move (k := k) ?_ hp.queue_nodup ⟨?_, fun w => ?_, fun a => ?_⟩ fun j hj =>
    ⟨?_, ?_, fun _ => Iff.rfl, fun a => by rw [hc]⟩
  · have hnodup : (s.pendingJobs ++ [k]).Nodup := by
      simpa using hp.pending_nodup.concat h1
    exact hnodup
  · exact iff_of_true (List.mem_append_right _ (List.mem_singleton_self k)) hphase
  · exact iff_of_false (h2 w) (by simp [hphase])
  · rw [hc]
    exact iff_of_false (h3 a) (by simp [hphase])
  · exact Function.update_of_ne hj _ _
  · simp [next, hj]

theorem placeInv_consumeOne {s : State} {a : Activation} (hp : PlaceInv s)
    (he : s.pc a = .consumeOne) : PlaceInv (next s (.consumeOne a)) := by
  simp only [next]
  split
  case h_1 => exact hp.congr rfl rfl rfl (setPc_carried (by rw [he]; rfl))
  -- the head of the queue goes into the hands of `a`
  case h_2 k rest hrest =>
    have hnodup := hp.pending_nodup
    rw [hrest] at hnodup
    obtain ⟨hnot, hnodup⟩ := List.nodup_cons.mp hnodup
    obtain ⟨h1, h2, h3⟩ := hp.placed k
    have hk : s.phase k = .pending := h1.mp (by simp [hrest])
    simp only [hk, reduceCtorEq, iff_false] at h2 h3
    refine hp.move (k := k) hnodup hp.queue_nodup ⟨?_, fun w => ?_, fun b => ?_⟩ fun j hj =>
      ⟨?_, ?_, fun _ => Iff.rfl, fun b => ?_⟩
    · exact iff_of_false hnot (by simp [State.setPhase])
    · exact iff_of_false (h2 w) (by simp [State.setPhase])
    · by_cases hb : b = a
      · subst hb
        simp [State.setPc, State.setPhase, Pc.carried]
      · simp [State.setPc, State.setPhase, hb, h3 b, Ne.symm hb]
    · exact Function.update_of_ne hj _ _
    · simp [hrest, hj]
    · by_cases hb : b = a
      · subst hb
        simp [State.setPc, State.setPhase, Pc.carried, he, Ne.symm hj]
      · simp [State.setPc, State.setPhase, hb]

/-- `PushToRunnerIfNeeded` hands on what it carries. -/
theorem carried_setPc_done {s : State} {a : Activation} {k : JobId} (hp : PlaceInv s)
    (he : s.pc a = .pushToRunner k) (b : Activation) (j : JobId) :
    ((s.setPc a .done).pc b).carried = some j ↔ j ≠ k ∧ (s.pc b).carried = some j := by
  have ha : s.phase k = .popped a := (hp.carried a k).mp (by rw [he]; rfl)
  by_cases hb : b = a
  · subst hb
    simp [State.setPc, Pc.carried, he, eq_comm]
  · have hnot : (s.pc b).carried ≠ some k := by
      rw [ne_eq, hp.carried, ha]
      exact fun h => hb (Phase.popped.inj h).symm
    simp only [State.setPc, Function.update_of_ne hb]
    refine ⟨fun h => ⟨?_, h⟩, fun h => h.2⟩
    rintro rfl
    exact hnot h

/-- The job that an activation carries leaves it for the back of a queue. -/
theorem placeInv_hand {s : State} {a : Activation} {k : JobId} (w : ℕ) (hp : PlaceInv s)
    (he : s.pc a = .pushToRunner k) :
    PlaceInv { (s.setPc a .done).setPhase k (.queued w) with
      jobQueue := Function.update s.jobQueue w (s.jobQueue w ++ [k])
      handed := s.handed ++ [k] } := by
  obtain ⟨h1, h2, -⟩ := hp.placed k
  have hk : s.phase k = .popped a := (hp.carried a k).mp (by rw [he]; rfl)
  simp only [hk, reduceCtorEq, iff_false] at h1 h2
  refine hp.move (k := k) hp.pending_nodup (fun w' => ?_) ⟨?_, fun w' => ?_, fun b => ?_⟩
    fun j hj => ⟨?_, Iff.rfl, fun w' => ?_, fun b => ?_⟩
  · simp only [Function.update_apply]
    split_ifs
    · simpa using (hp.queue_nodup w).concat (h2 w)
    · exact hp.queue_nodup w'
  · exact iff_of_false h1 (by simp [State.setPhase])
  · by_cases hw : w' = w
    · subst hw
      simp [State.setPhase]
    · simp [State.setPhase, hw, h2 w', Ne.symm hw]
  · exact iff_of_false (fun h => ((carried_setPc_done hp he b k).mp h).1 rfl)
      (by simp [State.setPhase])
  · exact Function.update_of_ne hj _ _
  · by_cases hw : w' = w
    · subst hw
      simp [hj]
    · simp [hw]
  · exact (carried_setPc_done hp he b j).trans (and_iff_right hj)

/-- The job that an activation carries is destroyed. -/
theorem placeInv_discard {s : State} {a : Activation} {k : JobId} (hp : PlaceInv s)
    (he : s.pc a = .pushToRunner k) : PlaceInv ((s.setPc a .done).setPhase k .discarded) := by
  obtain ⟨h1, h2, -⟩ := hp.placed k
  have hk : s.phase k = .popped a := (hp.carried a k).mp (by rw [he]; rfl)
  simp only [hk, reduceCtorEq, iff_false] at h1 h2
  refine hp.move (k := k) hp.pending_nodup hp.queue_nodup ⟨?_, fun w => ?_, fun b => ?_⟩
    fun j hj => ⟨Function.update_of_ne hj _ _, Iff.rfl, fun _ => Iff.rfl, fun b => ?_⟩
  · exact iff_of_false h1 (by simp [State.setPhase])
  · exact iff_of_false (h2 w) (by simp [State.setPhase])
  · exact iff_of_false (fun h => ((carried_setPc_done hp he b k).mp h).1 rfl)
      (by simp [State.setPhase])
  · exact (carried_setPc_done hp he b j).trans (and_iff_right hj)

/-- The first job of a queue leaves it. -/
theorem placeInv_dequeue {s : State} {w : ℕ} {k : JobId} {p : Phase} (hp : PlaceInv s)
    (he : (s.jobQueue w).head? = some k) (hout : p.outside = true) :
    PlaceInv { s.setPhase k p with
      jobQueue := Function.update s.jobQueue w (s.jobQueue w).tail } := by
  obtain ⟨rest, hq⟩ := List.head?_eq_some_iff.mp he
  have hnodup := hp.queue_nodup w
  rw [hq] at hnodup
  obtain ⟨hnot, hnodup⟩ := List.nodup_cons.mp hnodup
  obtain ⟨h1, h2, h3⟩ := hp.placed k
  have hk : s.phase k = .queued w := (h2 w).mp (by simp [hq])
  simp only [hk, reduceCtorEq, iff_false, Phase.queued.injEq] at h1 h2 h3
  refine hp.move (k := k) hp.pending_nodup (fun w' => ?_) ⟨?_, fun w' => ?_, fun b => ?_⟩
    fun j hj => ⟨Function.update_of_ne hj _ _, Iff.rfl, fun w' => ?_, fun _ => Iff.rfl⟩
  · simp only [Function.update_apply, hq, List.tail_cons]
    split_ifs
    · exact hnodup
    · exact hp.queue_nodup w'
  · apply iff_of_false h1
    simp only [State.setPhase, Function.update_self]
    rintro rfl
    cases hout
  · refine iff_of_false ?_ ?_
    · by_cases hw : w' = w
      · subst hw
        simpa [hq] using hnot
      · simpa [hw, h2 w'] using Ne.symm hw
    · simp only [State.setPhase, Function.update_self]
      rintro rfl
      cases hout
  · apply iff_of_false (h3 b)
    simp only [State.setPhase, Function.update_self]
    rintro rfl
    cases hout
  · by_cases hw : w' = w
    · subst hw
      simp [hq, hj]
    · simp [hw]

theorem placeInv_expireStrand {s : State} (hp : PlaceInv s) : PlaceInv (next s .expireStrand) := by
  refine ⟨List.nodup_nil, fun j => ?_, hp.queue_nodup, fun w j => ?_, fun a j => ?_⟩ <;>
    simp only [next] <;> split_ifs with hj
  · simp
  · simp [(hp.mem_pending j).not.mp hj]
  · rw [hp.mem_queue, (hp.mem_pending j).mp hj]
    simp
  · exact hp.mem_queue w j
  · rw [hp.carried, (hp.mem_pending j).mp hj]
    simp
  · exact hp.carried a j

theorem placeInv_step {s : State} {e : Action} (he : Enabled s e) (hj : ∀ j, JobOk (s.view j))
    (hp : PlaceInv s) : PlaceInv (next s e) := by
  -- a token that is still referenced is not being released
  have hidle (j) (ho : s.ownsToken j = true ∨ 0 < s.sharedTokens j) :
      (s.pc (.aliveToken, j)).carried = none := by
    have hr : (s.view j).released = false :=
      ho.elim (hj j).released_of_owns (hj j).released_of_shared
    have hi : s.pc (.aliveToken, j) = .idle := by simpa [State.view] using hr
    rw [hi]
    rfl
  cases e <;> simp only [Enabled] at he
  case call k form =>
    cases form <;> exact hp.congr rfl rfl rfl (setPc_carried (s := s) (by rw [he]; rfl))
  case tryLock k =>
    simp only [next]
    split
    · exact hp.congr rfl rfl rfl (setPc_carried (by rw [reject_carried, he]; rfl))
    · exact hp.congr rfl rfl rfl (setPc_carried (s := s) (by rw [he]; rfl))
  -- a job is claimed outside the containers, as are the jobs that start or end
  case testEmpty k =>
    simp only [next]
    split
    · exact hp.congr rfl rfl rfl (setPc_carried (by rw [he]; rfl))
    · have hk : s.phase k = .absent :=
        (hj k).phase_of_unaccepted (by simp [State.view, he, Pc.stage])
      have hpc : PlaceInv (s.setPc (.addJob, k) .setReady) :=
        hp.congr rfl rfl rfl (setPc_carried (by rw [he]; rfl))
      exact hpc.setPhase_outside (by rw [State.setPc, hk]; rfl) rfl
  case unlockForce k accepted =>
    cases accepted with
    | false =>
      exact hp.congr rfl rfl rfl (setPc_carried (s := s) (by rw [reject_carried, he]; rfl))
    | true =>
      have hk : s.phase k = .claimed :=
        (hj k).phase_of_claimed (by simp [State.view, he, Pc.stage])
      have hpc : PlaceInv (s.setPc (.addJob, k) .inPlace) :=
        hp.congr rfl rfl rfl (setPc_carried (by rw [he]; rfl))
      have hphase : PlaceInv ((s.setPc (.addJob, k) .inPlace).setPhase k .running) :=
        hpc.setPhase_outside (by rw [State.setPc, hk]; rfl) rfl
      exact hphase.congr rfl rfl rfl fun _ => rfl
  case push k =>
    exact placeInv_push hp he ((hj k).phase_of_unaccepted (by simp [State.view, he, Pc.stage]))
  case consumeOne a => exact placeInv_consumeOne hp he
  case testReady a =>
    simp only [next]
    split <;> exact hp.congr rfl rfl rfl (setPc_carried (by rw [he]; rfl))
  case unlock a n =>
    cases n <;> exact hp.congr rfl rfl rfl (setPc_carried (s := s) (by rw [he]; rfl))
  case pushToRunner a k w =>
    simp only [next]
    split
    · exact placeInv_hand w hp he
    · refine (placeInv_discard hp he).destroyJob fun ho => ?_
      simp only [State.setPc, Function.update_apply]
      split
      · rfl
      · exact hidle k (Or.inl ho)
  case return_ k =>
    refine hp.congr rfl rfl rfl (setPc_carried (s := s) ?_)
    rcases he with he | ⟨he, -⟩ <;> rw [he] <;> rfl
  case startJob w k => exact placeInv_dequeue hp he rfl
  case finishJob k =>
    exact (hp.setPhase_outside (by rw [he]; rfl) rfl).destroyJob fun ho => hidle k (Or.inl ho)
  case dropToken k =>
    have ht : PlaceInv
        { s with sharedTokens := Function.update s.sharedTokens k (s.sharedTokens k - 1) } :=
      hp.congr rfl rfl rfl fun _ => rfl
    simp only [next]
    split
    · exact ht.releaseToken (hidle k (Or.inr he))
    · exact ht
  case discardQueued w k =>
    exact PlaceInv.destroyJob (placeInv_dequeue hp he.2 rfl) fun ho => hidle k (Or.inl ho)
  case expireStrand => exact placeInv_expireStrand hp
  case lock a => exact hp.congr rfl rfl rfl (setPc_carried (s := s) (by rw [he.1]; rfl))
  case setReady | storeReady =>
    exact hp.congr rfl rfl rfl (setPc_carried (s := s) (by rw [he]; rfl))
  case shareToken | handOverToken | expireRunner => exact hp.congr rfl rfl rfl fun _ => rfl

end CrisCore.Strand
