import CrisCore.StrandTurns

/-! The moves of the calls of `AddJob`, of the releases of tokens and of the jobs, one rule for
each. -/
namespace CrisCore.Strand
variable {s : State} {e : Action} {b : Activation} {j : JobId}

/-- Where a call of a given form begins. -/
def Form.entry : Form → Pc
  | .enqueue => .push
  | _ => .tryLock

inductive PcStep (s : State) : Action → Activation → Pc → Pc → Prop
  | call (j : JobId) (form : Form) : PcStep s (.call j form) (.addJob, j) .idle form.entry
  | lockTaken (j : JobId) : PcStep s (.tryLock j) (.addJob, j) .tryLock (reject s j)
  | tryLock (j : JobId) : PcStep s (.tryLock j) (.addJob, j) .tryLock .testEmpty
  | decline (j : JobId) : PcStep s (.testEmpty j) (.addJob, j) .testEmpty (.unlockForce false)
  | claim (j : JobId) : PcStep s (.testEmpty j) (.addJob, j) .testEmpty .setReady
  | setReady (j : JobId) : PcStep s (.setReady j) (.addJob, j) .setReady (.unlockForce true)
  | unlockRejected (j : JobId) :
    PcStep s (.unlockForce j false) (.addJob, j) (.unlockForce false) (reject s j)
  | unlockAccepted (j : JobId) :
    PcStep s (.unlockForce j true) (.addJob, j) (.unlockForce true) .inPlace
  | push (j : JobId) : PcStep s (.push j) (.addJob, j) .push .lock
  | lock (b : Activation) : PcStep s (.lock b) b .lock .testReady
  | skip (b : Activation) : PcStep s (.testReady b) b .testReady (.unlock none)
  | consume (b : Activation) : PcStep s (.testReady b) b .testReady .consumeOne
  | consumeOne (b : Activation) :
    PcStep s (.consumeOne b) b .consumeOne (.storeReady s.pendingJobs.head?)
  | storeReady (b : Activation) (n : Option JobId) :
    PcStep s (.storeReady b n) b (.storeReady n) (.unlock n)
  | unlockNone (b : Activation) : PcStep s (.unlock b none) b (.unlock none) .done
  | unlockSome (b : Activation) (k : JobId) :
    PcStep s (.unlock b (some k)) b (.unlock (some k)) (.pushToRunner k)
  | pushToRunner (b : Activation) (k : JobId) (w : ℕ) :
    PcStep s (.pushToRunner b k w) b (.pushToRunner k) .done
  | return_ (j : JobId) : PcStep s (.return_ j) (.addJob, j) .done (.returned .enqueued)
  | returnInPlace (j : JobId) (h : s.phase j = .finished) :
    PcStep s (.return_ j) (.addJob, j) .inPlace (.returned .finished)
  | release (e : Action) (k : JobId) (h : s.strandAlive = true) :
    PcStep s e (.aliveToken, k) .idle .lock

theorem idle_of_owns (hc : Coherent s) {k : JobId} (ho : s.ownsToken k = true) :
    s.pc (.aliveToken, k) = .idle := by
  simpa [State.view] using (hc.job k).released_of_owns ho

theorem idle_of_shared (hc : Coherent s) {k : JobId} (hs : 0 < s.sharedTokens k) :
    s.pc (.aliveToken, k) = .idle := by
  simpa [State.view] using (hc.job k).released_of_shared hs

/-- A release begins with the last reference, never in the middle of another. -/
theorem pc_release {pc : Activation → Pc} {c : Bool} (hi : c = true → s.pc (.aliveToken, j) = .idle)
    (hn : pc = if (s.strandAlive && c) = true then Function.update s.pc (.aliveToken, j) .lock
      else s.pc) (b : Activation) : pc b = s.pc b ∨ PcStep s e b (s.pc b) (pc b) := by
  subst hn
  split_ifs with ha
  · simp only [Bool.and_eq_true] at ha
    by_cases hb : b = (.aliveToken, j)
    · subst hb
      rw [hi ha.2, Function.update_self]
      exact Or.inr (.release e j ha.1)
    · exact Or.inl (Function.update_of_ne hb _ _)
  · exact Or.inl rfl

theorem pc_destroyed {pc : Activation → Pc} (hc : Coherent s)
    (hn : pc = if (s.strandAlive && s.ownsToken j && s.sharedTokens j == 0) = true then
      Function.update s.pc (.aliveToken, j) .lock else s.pc) (b : Activation) :
    pc b = s.pc b ∨ PcStep s e b (s.pc b) (pc b) := by
  rw [Bool.and_assoc] at hn
  refine pc_release (fun ho => idle_of_owns hc ?_) hn b
  simp only [Bool.and_eq_true] at ho
  exact ho.1

theorem pc_step (he : Enabled s e) (hc : Coherent s) (b : Activation) :
    (next s e).pc b = s.pc b ∨ PcStep s e b (s.pc b) ((next s e).pc b) := by
  -- one program counter moves
  have hset {a : Activation} {p q : Pc} (hn : (next s e).pc b = Function.update s.pc a q b)
      (hp : s.pc a = p) (hm : PcStep s e a p q) :
      (next s e).pc b = s.pc b ∨ PcStep s e b (s.pc b) ((next s e).pc b) := by
    by_cases hb : b = a
    · subst hb
      rw [hn, Function.update_self, hp]
      exact Or.inr hm
    · exact Or.inl (by rw [hn, Function.update_of_ne hb])
  cases e <;> simp only [Enabled] at he
  case call j form => cases form <;> exact hset rfl he (.call j _)
  case tryLock j =>
    by_cases hl : s.locked = true
    · exact hset (q := reject s j) (by simp only [next, if_pos hl, State.setPc]) he (.lockTaken j)
    · exact hset (q := .testEmpty) (by simp only [next, if_neg hl, State.setPc]) he (.tryLock j)
  case testEmpty j =>
    by_cases hr : (s.hasReadyJob || !s.pendingJobs.isEmpty) = true
    · exact hset (q := .unlockForce false) (by simp only [next, if_pos hr, State.setPc]) he
        (.decline j)
    · exact hset (q := .setReady) (by simp only [next, if_neg hr, State.setPc, State.setPhase]) he
        (.claim j)
  case setReady j => exact hset rfl he (.setReady j)
  case unlockForce j accepted =>
    cases accepted
    case false => exact hset rfl he (.unlockRejected j)
    case true => exact hset rfl he (.unlockAccepted j)
  case push j => exact hset rfl he (.push j)
  case lock a => exact hset rfl he.1 (.lock a)
  case testReady a =>
    by_cases hr : (!a.1.isInRunningJob && s.hasReadyJob) = true
    · exact hset (q := .unlock none) (by simp only [next, if_pos hr, State.setPc]) he (.skip a)
    · exact hset (q := .consumeOne) (by simp only [next, if_neg hr, State.setPc]) he (.consume a)
  case consumeOne a =>
    refine hset ?_ he (.consumeOne a)
    cases hp : s.pendingJobs <;> simp only [next, hp, State.setPc, State.setPhase] <;> rfl
  case storeReady a n => exact hset rfl he (.storeReady a n)
  case unlock a n =>
    cases n
    case none => exact hset rfl he (.unlockNone a)
    case some k => exact hset rfl he (.unlockSome a k)
  case pushToRunner a k w =>
    by_cases hr : s.runnerAlive = true
    · exact hset (by simp only [next, if_pos hr]; rfl) he (.pushToRunner a k w)
    -- destroying a job that the runner refuses may release its token
    by_cases hb : b = (.aliveToken, k) ∧
        (s.strandAlive && s.ownsToken k && s.sharedTokens k == 0) = true
    · obtain ⟨rfl, ho⟩ := hb
      have halive := ho
      simp only [Bool.and_eq_true] at halive
      right
      simp only [next, if_neg hr, State.destroyJob_eq, State.setPc, if_pos ho]
      rw [Function.update_self, idle_of_owns hc halive.1.2]
      exact .release _ k halive.1.1
    · refine hset ?_ he (.pushToRunner a k w)
      simp only [next, if_neg hr, State.destroyJob_eq, State.setPc]
      split_ifs with ho
      · exact Function.update_of_ne (fun h => hb ⟨h, ho⟩) _ _
      · rfl
  case return_ j =>
    rcases he with he | he
    · exact hset (by simp [next, he, State.setPc]) he (.return_ j)
    · exact hset (by simp [next, he, State.setPc]) he.1 (.returnInPlace j he.2)
  case finishJob k => exact pc_destroyed (j := k) hc (by simp only [next, State.destroyJob_eq]) b
  case discardQueued w k => exact pc_destroyed (j := k) hc (by simp only [next, State.destroyJob_eq]) b
  case dropToken k =>
    refine pc_release (c := s.sharedTokens k == 1 && !s.ownsToken k)
      (fun _ => idle_of_shared hc he) ?_ b
    simp only [next, State.releaseToken_eq]
    split_ifs <;> simp_all
  all_goals exact Or.inl rfl

/-- The lock belongs to somebody inside the section. -/
theorem held_step (he : Enabled s e) (hc : Coherent s)
    (h : s.locked = true → ∃ a, (s.pc a).inSection = true) (hl : (next s e).locked = true) :
    ∃ a, ((next s e).pc a).inSection = true := by
  by_cases hlock : (∃ c, e = .lock c) ∨ ∃ k, e = .tryLock k ∧ s.locked = false
  · rcases hlock with ⟨c, rfl⟩ | ⟨k, rfl, hfree⟩
    · exact ⟨c, by simp [next, State.setPc, Pc.inSection]⟩
    · exact ⟨(.addJob, k), by simp [next, hfree, State.setPc, Pc.inSection]⟩
  -- otherwise the lock was taken before, and is not given back
  have hold : s.locked = true ∧ (∀ c n, e ≠ .unlock c n) ∧ ∀ k b, e ≠ .unlockForce k b := by
    cases e
    case lock c => exact absurd (Or.inl ⟨c, rfl⟩) hlock
    case unlock c n => cases n <;> cases hl
    case unlockForce k b => cases b <;> cases hl
    case tryLock k =>
      refine ⟨?_, by simp, by simp⟩
      by_contra hfree
      exact hlock (Or.inr ⟨k, rfl, by simpa using hfree⟩)
    all_goals
      refine ⟨?_, by simp, by simp⟩
      simp only [next, State.destroyJob_eq, State.releaseToken_eq] at hl
      (repeat' split at hl) <;> exact hl
  obtain ⟨b, hb⟩ := h hold.1
  refine ⟨b, ?_⟩
  rcases pc_step he hc b with hp | hp
  · rwa [hp]
  · generalize s.pc b = q at hp hb
    generalize (next s e).pc b = p at hp
    cases hp with
    | unlockNone | unlockSome => exact absurd rfl (hold.2.1 b _)
    | unlockRejected | unlockAccepted => exact absurd rfl (hold.2.2 _ _)
    | decline | claim | setReady | skip | consume | consumeOne | storeReady => rfl
    | call | lockTaken | tryLock | push | lock | pushToRunner | return_ | returnInPlace
    | release => cases hb

/-- The moves of a job from one phase to the next. -/
inductive PhaseStep (s : State) : Action → JobId → Phase → Phase → Prop
  | claim (j : JobId) : PhaseStep s (.testEmpty j) j .absent .claimed
  | startInPlace (j : JobId) : PhaseStep s (.unlockForce j true) j .claimed .running
  | push (j : JobId) : PhaseStep s (.push j) j .absent .pending
  | consumeOne (a : Activation) (j : JobId) :
    PhaseStep s (.consumeOne a) j .pending (.popped a)
  | hand (a : Activation) (j : JobId) (w : ℕ) (h : s.runnerAlive = true) :
    PhaseStep s (.pushToRunner a j w) j (.popped a) (.queued w)
  | discardPopped (a : Activation) (j : JobId) (w : ℕ) (h : s.runnerAlive = false) :
    PhaseStep s (.pushToRunner a j w) j (.popped a) .discarded
  | startJob (w : ℕ) (j : JobId) : PhaseStep s (.startJob w j) j (.queued w) .running
  | finishJob (j : JobId) : PhaseStep s (.finishJob j) j .running .finished
  | discardQueued (w : ℕ) (j : JobId) (h : s.runnerAlive = false) :
    PhaseStep s (.discardQueued w j) j (.queued w) .discarded
  | expireStrand (j : JobId) : PhaseStep s .expireStrand j .pending .dropped

theorem phase_step (he : Enabled s e) (hc : Coherent s) (j : JobId) :
    (next s e).phase j = s.phase j ∨ PhaseStep s e j (s.phase j) ((next s e).phase j) := by
  -- one job moves
  have hset {k : JobId} {p q : Phase} (hn : (next s e).phase = Function.update s.phase k q)
      (hp : s.phase k = p) (hm : PhaseStep s e k p q) :
      (next s e).phase j = s.phase j ∨ PhaseStep s e j (s.phase j) ((next s e).phase j) := by
    by_cases hj : j = k
    · subst hj
      rw [hn, Function.update_self, hp]
      exact Or.inr hm
    · exact Or.inl (by rw [hn, Function.update_of_ne hj])
  cases e <;> simp only [Enabled] at he
  case testEmpty k =>
    have hk : s.phase k = .absent :=
      (hc.job k).phase_of_unaccepted (by simp [State.view, he, Pc.stage])
    by_cases hr : (s.hasReadyJob || !s.pendingJobs.isEmpty) = true
    · exact Or.inl (by simp only [next, if_pos hr, State.setPc])
    · exact hset (q := .claimed) (by simp only [next, if_neg hr, State.setPc, State.setPhase]) hk
        (.claim k)
  case unlockForce k accepted =>
    cases accepted with
    | false => exact Or.inl rfl
    | true =>
      have hk : s.phase k = .claimed :=
        (hc.job k).phase_of_claimed (by simp [State.view, he, Pc.stage])
      exact hset rfl hk (.startInPlace k)
  case push k =>
    have hk : s.phase k = .absent :=
      (hc.job k).phase_of_unaccepted (by simp [State.view, he, Pc.stage])
    exact hset rfl hk (.push k)
  case consumeOne a =>
    cases hp : s.pendingJobs with
    | nil => exact Or.inl (by simp only [next, hp, State.setPc])
    | cons k rest =>
      have hk : s.phase k = .pending := (hc.place.mem_pending k).mp (by simp [hp])
      exact hset (by simp only [next, hp, State.setPc, State.setPhase]) hk (.consumeOne a k)
  case pushToRunner a k w =>
    have hk : s.phase k = .popped a := (hc.place.carried a k).mp (by rw [he]; rfl)
    by_cases hr : s.runnerAlive = true
    · exact hset (q := .queued w) (by simp only [next, if_pos hr, State.setPc, State.setPhase]) hk
        (.hand a k w hr)
    · exact hset (q := .discarded)
        (by simp only [next, if_neg hr, State.destroyJob_eq, State.setPc]) hk
        (.discardPopped a k w (by simpa using hr))
  case startJob w k =>
    exact hset rfl ((hc.place.mem_queue w k).mp (List.mem_of_head? he)) (.startJob w k)
  case finishJob k =>
    exact hset (q := .finished) (by simp only [next, State.destroyJob_eq]) he (.finishJob k)
  case discardQueued w k =>
    exact hset (q := .discarded) (by simp only [next, State.destroyJob_eq])
      ((hc.place.mem_queue w k).mp (List.mem_of_head? he.2)) (.discardQueued w k he.1)
  case expireStrand =>
    by_cases hj : j ∈ s.pendingJobs
    · rw [(hc.place.mem_pending j).mp hj]
      simp only [next, if_pos hj]
      exact Or.inr (.expireStrand j)
    · exact Or.inl (by simp only [next, if_neg hj])
  case dropToken k =>
    left
    simp only [next, State.releaseToken_eq]
    split <;> rfl
  case call k form => cases form <;> exact Or.inl rfl
  case tryLock k =>
    left
    simp only [next]
    split <;> rfl
  case testReady a =>
    left
    simp only [next]
    split <;> rfl
  case unlock a n => cases n <;> exact Or.inl rfl
  all_goals exact Or.inl rfl

/-- Nobody goes back to where a call begins. -/
theorem PcStep.ne_idle {b : Activation} {p q : Pc} (h : PcStep s e b p q) : q ≠ .idle := by
  have hrej (j : JobId) : reject s j ≠ .idle := by
    unfold reject
    split <;> exact nofun
  cases h with
  | lockTaken j | unlockRejected j => exact hrej j
  | call j form => cases form <;> exact nofun
  | _ => exact nofun

end CrisCore.Strand
