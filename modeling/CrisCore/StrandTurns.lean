import CrisCore.StrandPlaces
import CrisCore.FifoBaton

/-! The strand takes turns like a `FifoBaton`: the job that holds the baton is the active one, it
passes the baton in the decision step of the release of its token. -/
namespace CrisCore.Strand

/-- Inside the section guarded by `hybrid_spin_mtx_`. -/
def Pc.inSection : Pc → Bool
  | .testEmpty | .setReady | .unlockForce _ | .testReady | .consumeOne | .storeReady _
  | .unlock _ => true
  | _ => false

structure LockInv (s : State) : Prop where
  locked : ∀ a, (s.pc a).inSection = true → s.locked = true
  unique : ∀ a a', (s.pc a).inSection = true → (s.pc a').inSection = true → a = a'

theorem lockInv_initial : LockInv initial := by
  constructor <;> simp [initial, Pc.inSection]

theorem reject_inSection (s : State) (j : JobId) : (reject s j).inSection = false := by
  unfold reject
  split <;> rfl

namespace LockInv
variable {s t : State}

theorem outside (h : LockInv s) (hl : s.locked = false) (a : Activation) :
    (s.pc a).inSection = false := by
  by_contra hin
  have hlocked := h.locked a (by simpa using hin)
  rw [hl] at hlocked
  cases hlocked

/-- Nobody enters the section. -/
theorem stay (h : LockInv s) (hl : t.locked = s.locked)
    (hpc : ∀ a, (t.pc a).inSection = true → (s.pc a).inSection = true) : LockInv t where
  locked a ha := by
    rw [hl]
    exact h.locked a (hpc a ha)
  unique a a' ha ha' := h.unique a a' (hpc a ha) (hpc a' ha')

/-- Somebody enters it, with the mutex found free. -/
theorem enter (h : LockInv s) (a : Activation) (hl : s.locked = false) (ht : t.locked = true)
    (hpc : ∀ a', a' ≠ a → (t.pc a').inSection = true → (s.pc a').inSection = true) :
    LockInv t := by
  have honly (a') (ha' : (t.pc a').inSection = true) : a' = a := by
    by_contra hne
    have hs := hpc a' hne ha'
    rw [h.outside hl a'] at hs
    cases hs
  exact ⟨fun _ _ => ht, fun a₁ a₂ h₁ h₂ => (honly a₁ h₁).trans (honly a₂ h₂).symm⟩

/-- The one inside leaves it. -/
theorem leave (h : LockInv s) (a : Activation) (ha : (s.pc a).inSection = true)
    (ht : (t.pc a).inSection = false)
    (hpc : ∀ a', a' ≠ a → (t.pc a').inSection = true → (s.pc a').inSection = true) :
    LockInv t := by
  have hnone (a') (ha' : (t.pc a').inSection = true) : False := by
    by_cases hne : a' = a
    · rw [hne, ht] at ha'
      cases ha'
    · exact hne (h.unique a' a (hpc a' hne ha') ha)
  exact ⟨fun a₁ h₁ => (hnone a₁ h₁).elim, fun a₁ _ h₁ _ => (hnone a₁ h₁).elim⟩

end LockInv

theorem setPc_inSection {s : State} {a : Activation} {p : Pc}
    (h : p.inSection = true → (s.pc a).inSection = true) (a' : Activation)
    (ha : ((s.setPc a p).pc a').inSection = true) : (s.pc a').inSection = true := by
  by_cases hne : a' = a
  · subst hne
    exact h (by simpa [State.setPc] using ha)
  · simpa [State.setPc, hne] using ha

theorem setPc_pc_of_ne {s : State} {a : Activation} {p : Pc} (a' : Activation) (hne : a' ≠ a)
    (ha : ((s.setPc a p).pc a').inSection = true) : (s.pc a').inSection = true := by
  simpa [State.setPc, hne] using ha

theorem releaseToken_inSection {s : State} {j : JobId} (a : Activation)
    (ha : ((s.releaseToken j).pc a).inSection = true) : (s.pc a).inSection = true := by
  unfold State.releaseToken at ha
  split_ifs at ha
  · exact setPc_inSection (by simp [Pc.inSection]) a ha
  · exact ha

theorem lockInv_releaseToken {s : State} {j : JobId} (h : LockInv s) :
    LockInv (s.releaseToken j) := by
  refine h.stay ?_ releaseToken_inSection
  simp only [State.releaseToken_eq]

theorem lockInv_destroyJob {s : State} {j : JobId} {p : Phase} (h : LockInv s) :
    LockInv (s.destroyJob j p) := by
  unfold State.destroyJob
  split_ifs
  · exact lockInv_releaseToken (h.stay rfl fun _ ha => ha)
  · exact h.stay rfl fun _ ha => ha

theorem lockInv_step {s : State} {e : Action} (he : Enabled s e) (h : LockInv s) :
    LockInv (next s e) := by
  have hrej := reject_inSection s
  cases e <;> simp only [Enabled] at he
  case call j form =>
    cases form <;> exact h.stay rfl (setPc_inSection (s := s) (by simp [Pc.inSection]))
  -- the steps that take the lock and the ones that give it back; the others stay on their side
  case tryLock j =>
    simp only [next]
    split_ifs with hl
    · exact h.stay rfl (setPc_inSection (by simp [hrej]))
    · exact h.enter (.addJob, j) (by simpa using hl) rfl setPc_pc_of_ne
  case testEmpty j =>
    simp only [next]
    split_ifs <;> exact h.stay rfl (setPc_inSection (s := s) (by simp [he, Pc.inSection]))
  case setReady j => exact h.stay rfl (setPc_inSection (s := s) (by simp [he, Pc.inSection]))
  case unlockForce j accepted =>
    have hj : (s.pc (.addJob, j)).inSection = true := by simp [he, Pc.inSection]
    cases accepted with
    | false =>
      exact h.leave _ hj (by simp [next, State.setPc, hrej]) (setPc_pc_of_ne (s := s))
    | true =>
      exact h.leave _ hj (by simp [next, State.setPc, State.setPhase, Pc.inSection])
        (setPc_pc_of_ne (s := s))
  case push j => exact h.stay rfl (setPc_inSection (s := s) (by simp [Pc.inSection]))
  case lock a => exact h.enter a he.2 rfl setPc_pc_of_ne
  case testReady a =>
    simp only [next]
    split_ifs <;> exact h.stay rfl (setPc_inSection (by simp [he, Pc.inSection]))
  case consumeOne a =>
    simp only [next]
    split <;> exact h.stay rfl (setPc_inSection (s := s) (by simp [he, Pc.inSection]))
  case storeReady a n => exact h.stay rfl (setPc_inSection (s := s) (by simp [he, Pc.inSection]))
  case unlock a n =>
    have ha : (s.pc a).inSection = true := by simp [he, Pc.inSection]
    cases n <;>
      exact h.leave a ha (by simp [next, State.setPc, Pc.inSection]) (setPc_pc_of_ne (s := s))
  case pushToRunner a k w =>
    have hd : LockInv (s.setPc a .done) := h.stay rfl (setPc_inSection (by simp [Pc.inSection]))
    simp only [next]
    split_ifs
    · exact hd.stay rfl fun _ ha => ha
    · exact lockInv_destroyJob hd
  case return_ j => exact h.stay rfl (setPc_inSection (by simp [Pc.inSection]))
  case finishJob j => exact lockInv_destroyJob h
  case discardQueued w j => exact lockInv_destroyJob (h.stay rfl fun _ ha => ha)
  case dropToken j =>
    simp only [next]
    split_ifs
    · exact lockInv_releaseToken (h.stay rfl fun _ ha => ha)
    · exact h.stay rfl fun _ ha => ha
  case startJob | shareToken | handOverToken | expireRunner | expireStrand =>
    exact h.stay rfl fun _ ha => ha

/-- The invariants about single jobs, the containers and the lock. -/
structure Coherent (s : State) : Prop where
  job : ∀ j, JobOk (s.view j)
  place : PlaceInv s
  lock : LockInv s

theorem coherent_initial : Coherent initial :=
  ⟨jobOk_initial, placeInv_initial, lockInv_initial⟩

theorem coherent_step {s : State} {e : Action} (he : Enabled s e) (h : Coherent s) :
    Coherent (next s e) :=
  ⟨jobOk_step he h.place h.job, placeInv_step he h.job h.place, lockInv_step he h.lock⟩

/-- What a program counter means for the turn of its job. -/
inductive Turn
  /-- The decision step of `PushToRunnerIfNeeded` is still ahead. -/
  | ahead
  /-- `AddJob` found the strand idle and will set `has_ready_job_`. -/
  | seizing
  /-- `ConsumeOne` comes next. -/
  | consuming
  /-- The next job is known and `has_ready_job_` not yet written. -/
  | storing (next : Option JobId)
  | settled
  deriving DecidableEq

def Pc.turn : Pc → Turn
  | .setReady => .seizing
  | .consumeOne => .consuming
  | .storeReady next => .storing next
  | .unlock _ | .pushToRunner _ | .done | .returned .enqueued => .settled
  | _ => .ahead

theorem Pc.inSection_of_turn {p : Pc}
    (h : p.turn = .seizing ∨ p.turn = .consuming ∨ ∃ n, p.turn = .storing n) :
    p.inSection = true := by
  unfold Pc.turn at h
  split at h <;> simp_all [Pc.inSection]

def Turn.decided : Turn → Bool
  | .storing _ | .settled => true
  | _ => false

/-- Popped from `pending_jobs_` or started in place. -/
def Phase.entered : Phase → Bool
  | .claimed | .popped _ | .queued _ | .running | .finished | .discarded => true
  | .absent | .pending | .dropped => false

/-- The decision step of the release of the token of `j` has been performed. -/
def Decided (s : State) (j : JobId) : Prop :=
  (s.pc (.aliveToken, j)).turn.decided = true

/-- Popped from `pending_jobs_` or started in place, and the decision step of the release of its
token not yet performed. -/
def Active (s : State) (j : JobId) : Prop :=
  (s.phase j).entered = true ∧ ¬ Decided s j

structure Refines (s : State) (b : FifoBaton JobId) : Prop where
  waiting : b.waiting = s.pendingJobs
  holder : ∀ j, Active s j ↔ b.holder = some j
  ended : ∀ j, Decided s j ↔ j ∈ b.ended
  ended_nodup : b.ended.Nodup
  ready : (∀ a, (s.pc a).turn ≠ .seizing) → (∀ a n, (s.pc a).turn ≠ .storing n) →
    s.hasReadyJob = b.holder.isSome
  seize : ∀ a, (s.pc a).turn = .seizing → b.holder = some a.2 ∧ a.1 = .addJob
  store : ∀ a n, (s.pc a).turn = .storing n → b.holder = n
  consume : ∀ j, (s.pc (.addJob, j)).turn = .consuming → b.holder = none
  undecided : b.holder = none → ∀ k ∈ s.pendingJobs, (s.pc (.addJob, k)).turn.decided = false
  seize_undecided : ∀ a, (s.pc a).turn = .seizing →
    ∀ k ∈ s.pendingJobs, (s.pc (.addJob, k)).turn.decided = false

/-- Steps that keep the pending queue, the flag, who entered and the turns keep the baton. -/
theorem Refines.congr {s t : State} {b : FifoBaton JobId} (h : Refines s b)
    (hpend : t.pendingJobs = s.pendingJobs) (hready : t.hasReadyJob = s.hasReadyJob)
    (hphase : ∀ j, (t.phase j).entered = (s.phase j).entered)
    (hturn : ∀ a, (t.pc a).turn = (s.pc a).turn) : Refines t b := by
  obtain ⟨h1, h2, h3, h4, h5, h6, h7, h8, h9, h10⟩ := h
  refine ⟨hpend ▸ h1, ?_, ?_, h4, ?_, ?_, ?_, ?_, ?_, ?_⟩ <;>
    simp only [Active, Decided, hpend, hready, hphase, hturn] <;> assumption

theorem refines_initial : Refines initial {} := by
  constructor <;> simp [initial, Active, Decided, Phase.entered, Pc.turn, Turn.decided]

theorem setPc_turn {s : State} {a : Activation} {p : Pc} (h : p.turn = (s.pc a).turn)
    (a' : Activation) : ((s.setPc a p).pc a').turn = (s.pc a').turn := by
  simp only [State.setPc, Function.update_apply]
  split
  case isTrue ha => rw [h, ha]
  case isFalse => rfl

theorem setPhase_entered {s : State} {k : JobId} {p : Phase}
    (h : p.entered = (s.phase k).entered) (j : JobId) :
    ((s.setPhase k p).phase j).entered = (s.phase j).entered := by
  simp only [State.setPhase, Function.update_apply]
  split
  case isTrue hj => rw [h, hj]
  case isFalse => rfl

theorem reject_turn (s : State) (j : JobId) : (reject s j).turn = .ahead := by
  unfold reject
  split <;> rfl

theorem refines_releaseToken {s : State} {b : FifoBaton JobId} {k : JobId} (hb : Refines s b)
    (hi : s.pc (.aliveToken, k) = .idle) : Refines (s.releaseToken k) b := by
  unfold State.releaseToken
  split
  · exact hb.congr rfl rfl (fun _ => rfl) (setPc_turn (by rw [hi]; rfl))
  · exact hb

theorem refines_destroyJob {s : State} {b : FifoBaton JobId} {k : JobId} {p : Phase}
    (hb : Refines s b) (hk : JobOk (s.view k)) (hp : p.entered = (s.phase k).entered) :
    Refines (s.destroyJob k p) b := by
  have ht : Refines { s.setPhase k p with ownsToken := Function.update s.ownsToken k false } b :=
    hb.congr rfl rfl (setPhase_entered hp) fun _ => rfl
  unfold State.destroyJob
  split
  case isTrue hc =>
    have ho : s.ownsToken k = true := by
      simp only [Bool.and_eq_true] at hc
      exact hc.1
    have hi : (s.view k).released = false := hk.released_of_owns ho
    have hi' : s.pc (.aliveToken, k) = .idle := by simpa [State.view] using hi
    exact refines_releaseToken ht hi'
  case isFalse => exact ht

theorem released_of_decided {s : State} {j : JobId} (h : Decided s j) :
    (s.view j).released = true := by
  simp only [State.view, bne_iff_ne, ne_eq]
  intro hi
  simp [Decided, hi, Pc.turn, Turn.decided] at h

theorem entered_of_released {s : State} (hs : Coherent s) {j : JobId}
    (hr : (s.view j).released = true) : (s.phase j).entered = true := by
  rcases (hs.job j).phase_of_released hr with hp | hp | hp
  all_goals
    change s.phase j = _ at hp
    rw [hp]
    rfl

/-- Who releases its token has started, and is active until the decision step. -/
theorem active_of_released {s : State} (hs : Coherent s) {j : JobId}
    (hr : (s.view j).released = true) (hd : ¬ Decided s j) : Active s j :=
  ⟨entered_of_released hs hr, hd⟩

theorem phase_of_ended {s : State} {b : FifoBaton JobId} (hs : Coherent s) (hb : Refines s b)
    {j : JobId} (h : j ∈ b.ended) :
    s.phase j = .running ∨ s.phase j = .finished ∨ s.phase j = .discarded :=
  (hs.job j).phase_of_released (released_of_decided ((hb.ended j).mpr h))

/-- While somebody is inside the section and not about to write the flag, the flag says whether
the baton is held. -/
theorem ready_of_inSection {s : State} {b : FifoBaton JobId} (hs : Coherent s) (hb : Refines s b)
    {a : Activation} (h : (s.pc a).inSection = true) (h1 : (s.pc a).turn ≠ .seizing)
    (h2 : ∀ n, (s.pc a).turn ≠ .storing n) : s.hasReadyJob = b.holder.isSome := by
  refine hb.ready (fun a' h' => ?_) (fun a' n h' => ?_)
  · cases hs.lock.unique a' a (Pc.inSection_of_turn (Or.inl h')) h
    exact h1 h'
  · cases hs.lock.unique a' a (Pc.inSection_of_turn (Or.inr (Or.inr ⟨n, h'⟩))) h
    exact h2 n h'

theorem refines_seize {s : State} {b : FifoBaton JobId} (hs : Coherent s) (hb : Refines s b)
    {k : JobId} (he : s.pc (.addJob, k) = .testEmpty) (hready : s.hasReadyJob = false)
    (hpend : s.pendingJobs = []) :
    b.step (.seize k) = some { b with holder := some k } ∧
      Refines ((s.setPc (.addJob, k) .setReady).setPhase k .claimed)
        { b with holder := some k } := by
  have hk : s.phase k = .absent :=
    (hs.job k).phase_of_unaccepted (by simp [State.view, he, Pc.stage])
  -- inside the section the flag is true to the baton
  have hh : b.holder = none := by
    have hr := ready_of_inSection hs hb (a := (.addJob, k)) (by rw [he]; rfl)
      (by simp [he, Pc.turn]) (by simp [he, Pc.turn])
    rw [hready] at hr
    simpa using hr.symm
  refine ⟨by simp [FifoBaton.step, hh, hb.waiting, hpend], ?_⟩
  have hsec (a') (h' : (s.pc a').inSection = true) : a' = (.addJob, k) :=
    hs.lock.unique a' _ h' (by rw [he]; rfl)
  have hended := phase_of_ended hs hb (j := k)
  have hin {p : Pc} := Pc.inSection_of_turn (p := p)
  obtain ⟨h1, h2, h3, h4, h5, h6, h7, h8, h9, h10⟩ := hb
  simp only [Active, Decided] at h2 h3
  constructor <;>
    simp -failIfUnchanged only [Active, Decided, State.setPc, State.setPhase,
      Function.update_apply] <;>
    grind [Pc.turn, Turn.decided, Phase.entered, Pc.inSection]

theorem refines_setReady {s : State} {b : FifoBaton JobId} (hs : Coherent s) (hb : Refines s b)
    {k : JobId} (he : s.pc (.addJob, k) = .setReady) : Refines (next s (.setReady k)) b := by
  have hsec (a') (h' : (s.pc a').inSection = true) : a' = (.addJob, k) :=
    hs.lock.unique a' _ h' (by rw [he]; rfl)
  have hin {p : Pc} := Pc.inSection_of_turn (p := p)
  have hh : b.holder = some k := (hb.seize (.addJob, k) (by rw [he]; rfl)).1
  obtain ⟨h1, h2, h3, h4, h5, h6, h7, h8, h9, h10⟩ := hb
  simp only [Active, Decided] at h2 h3
  constructor <;>
    simp -failIfUnchanged only [next, Active, Decided, State.setPc, Function.update_apply] <;>
    grind [Pc.turn, Turn.decided]

theorem refines_join {s : State} {b : FifoBaton JobId} (hs : Coherent s) (hb : Refines s b)
    {k : JobId} (he : s.pc (.addJob, k) = .push) :
    Refines (next s (.push k)) { b with waiting := b.waiting ++ [k] } := by
  have hk : s.phase k = .absent :=
    (hs.job k).phase_of_unaccepted (by simp [State.view, he, Pc.stage])
  have hended := phase_of_ended hs hb (j := k)
  obtain ⟨h1, h2, h3, h4, h5, h6, h7, h8, h9, h10⟩ := hb
  simp only [Active, Decided] at h2 h3
  constructor <;>
    simp -failIfUnchanged only [next, Active, Decided, State.setPc, State.setPhase,
      Function.update_apply] <;>
    grind [Pc.turn, Turn.decided, Phase.entered]

theorem refines_testReady {s : State} {b : FifoBaton JobId} (hs : Coherent s) (hb : Refines s b)
    {a : Activation} (he : s.pc a = .testReady) : Refines (next s (.testReady a)) b := by
  have hready := ready_of_inSection hs hb (a := a) (by rw [he]; rfl) (by simp [he, Pc.turn])
    (by simp [he, Pc.turn])
  have hsec (a') (h' : (s.pc a').inSection = true) : a' = a :=
    hs.lock.unique a' _ h' (by rw [he]; rfl)
  have hin {p : Pc} := Pc.inSection_of_turn (p := p)
  obtain ⟨role, k⟩ := a
  simp only [next]
  split_ifs with hc
  -- the flag is set, so the call leaves its job to the holder
  · have hh : b.holder ≠ none := by
      intro h
      simp [hready, h] at hc
    obtain ⟨h1, h2, h3, h4, h5, h6, h7, h8, h9, h10⟩ := hb
    simp only [Active, Decided] at h2 h3
    constructor <;>
      simp -failIfUnchanged only [Active, Decided, State.setPc, Function.update_apply] <;>
      grind [Pc.turn, Turn.decided, Role.isInRunningJob]
  -- the flag is not set, or it is the holder's own release
  · have hh : role = .addJob → b.holder = none := by
      intro h
      simpa [hready, h, Role.isInRunningJob] using hc
    obtain ⟨h1, h2, h3, h4, h5, h6, h7, h8, h9, h10⟩ := hb
    simp only [Active, Decided] at h2 h3
    constructor <;>
      simp -failIfUnchanged only [Active, Decided, State.setPc, Function.update_apply] <;>
      grind [Pc.turn, Turn.decided]

theorem refines_take {s : State} {b : FifoBaton JobId} (hs : Coherent s) (hb : Refines s b)
    {k : JobId} (he : s.pc (.addJob, k) = .consumeOne) :
    b.step .take =
        some { b with holder := s.pendingJobs.head?, waiting := s.pendingJobs.tail } ∧
      Refines (next s (.consumeOne (.addJob, k)))
        { b with holder := s.pendingJobs.head?, waiting := s.pendingJobs.tail } := by
  have hsec (a') (h' : (s.pc a').inSection = true) : a' = (.addJob, k) :=
    hs.lock.unique a' _ h' (by rw [he]; rfl)
  have hin {p : Pc} := Pc.inSection_of_turn (p := p)
  have hh : b.holder = none := hb.consume k (by rw [he]; rfl)
  have hended (j) := phase_of_ended hs hb (j := j)
  have hpend := hs.place.mem_pending
  refine ⟨by simp [FifoBaton.step, hh, hb.waiting], ?_⟩
  obtain ⟨h1, h2, h3, h4, h5, h6, h7, h8, h9, h10⟩ := hb
  simp only [Active, Decided] at h2 h3
  simp only [next]
  split <;> constructor <;>
    simp -failIfUnchanged only [Active, Decided, State.setPc, State.setPhase,
      Function.update_apply] <;>
    grind [Pc.turn, Turn.decided, Phase.entered]

theorem refines_pass {s : State} {b : FifoBaton JobId} (hs : Coherent s) (hb : Refines s b)
    {k : JobId} (he : s.pc (.aliveToken, k) = .consumeOne) :
    b.step .pass =
        some ⟨b.ended ++ [k], s.pendingJobs.head?, s.pendingJobs.tail⟩ ∧
      Refines (next s (.consumeOne (.aliveToken, k)))
        ⟨b.ended ++ [k], s.pendingJobs.head?, s.pendingJobs.tail⟩ := by
  have hsec (a') (h' : (s.pc a').inSection = true) : a' = (.aliveToken, k) :=
    hs.lock.unique a' _ h' (by rw [he]; rfl)
  have hin {p : Pc} := Pc.inSection_of_turn (p := p)
  -- who releases its token has started and not yet passed the baton on
  have hk : Active s k := active_of_released hs (by simp [State.view, he])
    (by simp [Decided, he, Pc.turn, Turn.decided])
  have hh : b.holder = some k := (hb.holder k).mp hk
  have hended (j) := phase_of_ended hs hb (j := j)
  have hpend := hs.place.mem_pending
  refine ⟨by simp [FifoBaton.step, hh, hb.waiting], ?_⟩
  obtain ⟨h1, h2, h3, h4, h5, h6, h7, h8, h9, h10⟩ := hb
  simp only [Active, Decided] at h2 h3
  simp only [next]
  split <;> constructor <;>
    simp -failIfUnchanged only [Active, Decided, State.setPc, State.setPhase,
      Function.update_apply] <;>
    grind [Pc.turn, Turn.decided, Phase.entered]

theorem refines_storeReady {s : State} {b : FifoBaton JobId} (hs : Coherent s) (hb : Refines s b)
    {a : Activation} {n : Option JobId} (he : s.pc a = .storeReady n) :
    Refines (next s (.storeReady a n)) b := by
  have hsec (a') (h' : (s.pc a').inSection = true) : a' = a :=
    hs.lock.unique a' _ h' (by rw [he]; rfl)
  have hin {p : Pc} := Pc.inSection_of_turn (p := p)
  have hh : b.holder = n := hb.store a n (by rw [he]; rfl)
  obtain ⟨h1, h2, h3, h4, h5, h6, h7, h8, h9, h10⟩ := hb
  simp only [Active, Decided] at h2 h3
  constructor <;>
    simp -failIfUnchanged only [next, Active, Decided, State.setPc, Function.update_apply] <;>
    grind [Pc.turn, Turn.decided]

theorem refines_clear {s : State} {b : FifoBaton JobId} (hs : Coherent s) (hb : Refines s b) :
    Refines (next s .expireStrand) { b with waiting := [] } := by
  have hpend := hs.place.mem_pending
  obtain ⟨h1, h2, h3, h4, h5, h6, h7, h8, h9, h10⟩ := hb
  simp only [Active, Decided] at h2 h3
  constructor <;> simp -failIfUnchanged only [next, Active, Decided] <;>
    grind [Phase.entered]

/-- A step of the strand is one operation on the baton or none; only the end of the strand clears
the queue. -/
theorem refines_step {s : State} {e : Action} {b : FifoBaton JobId} (he : Enabled s e)
    (hs : Coherent s) (hb : Refines s b) :
    ∃ c, Refines (next s e) c ∧
      (c = b ∨ ∃ op, b.step op = some c ∧ (op = .clear → e = .expireStrand)) := by
  have hrej := reject_turn s
  cases e <;> simp only [Enabled] at he
  case call k form =>
    refine ⟨b, ?_, Or.inl rfl⟩
    cases form <;>
      exact hb.congr rfl rfl (fun _ => rfl) (setPc_turn (s := s) (by rw [he]; rfl))
  case tryLock k =>
    refine ⟨b, ?_, Or.inl rfl⟩
    simp only [next]
    split_ifs
    · exact hb.congr rfl rfl (fun _ => rfl) (setPc_turn (s := s) (by rw [hrej, he]; rfl))
    · exact hb.congr rfl rfl (fun _ => rfl) (setPc_turn (s := s) (by rw [he]; rfl))
  -- the operations: seize, join, take, pass and clear
  case testEmpty k =>
    simp only [next]
    split_ifs with hc
    · refine ⟨b, ?_, Or.inl rfl⟩
      exact hb.congr rfl rfl (fun _ => rfl) (setPc_turn (s := s) (by rw [he]; rfl))
    · obtain ⟨hready, hpend⟩ : s.hasReadyJob = false ∧ s.pendingJobs = [] := by simpa using hc
      obtain ⟨hop, hc⟩ := refines_seize hs hb he hready hpend
      exact ⟨_, hc, Or.inr ⟨_, hop, by simp⟩⟩
  case setReady k => exact ⟨b, refines_setReady hs hb he, Or.inl rfl⟩
  case unlockForce k accepted =>
    refine ⟨b, ?_, Or.inl rfl⟩
    cases accepted with
    | false => exact hb.congr rfl rfl (fun _ => rfl) (setPc_turn (s := s) (by rw [hrej, he]; rfl))
    | true =>
      have hk : s.phase k = .claimed :=
        (hs.job k).phase_of_claimed (by simp [State.view, he, Pc.stage])
      exact hb.congr rfl rfl (setPhase_entered (s := s) (by rw [hk]; rfl))
        (setPc_turn (s := s) (by rw [he]; rfl))
  case push k => exact ⟨_, refines_join hs hb he, Or.inr ⟨.join k, rfl, by simp⟩⟩
  case lock a =>
    exact ⟨b, hb.congr rfl rfl (fun _ => rfl) (setPc_turn (s := s) (by rw [he.1]; rfl)), Or.inl rfl⟩
  case testReady a => exact ⟨b, refines_testReady hs hb he, Or.inl rfl⟩
  case consumeOne a =>
    obtain ⟨role, k⟩ := a
    cases role with
    | addJob =>
      obtain ⟨hop, hc⟩ := refines_take hs hb he
      exact ⟨_, hc, Or.inr ⟨_, hop, by simp⟩⟩
    | aliveToken =>
      obtain ⟨hop, hc⟩ := refines_pass hs hb he
      exact ⟨_, hc, Or.inr ⟨_, hop, by simp⟩⟩
  case storeReady a n => exact ⟨b, refines_storeReady hs hb he, Or.inl rfl⟩
  case unlock a n =>
    refine ⟨b, ?_, Or.inl rfl⟩
    cases n <;> exact hb.congr rfl rfl (fun _ => rfl) (setPc_turn (s := s) (by rw [he]; rfl))
  -- a job that the runner refuses has been popped, and stays the holder
  case pushToRunner a k w =>
    have hk : s.phase k = .popped a := (hs.place.carried a k).mp (by rw [he]; rfl)
    have hpc : Refines (s.setPc a .done) b :=
      hb.congr rfl rfl (fun _ => rfl) (setPc_turn (by rw [he]; rfl))
    refine ⟨b, ?_, Or.inl rfl⟩
    simp only [next]
    split_ifs
    · exact hpc.congr rfl rfl (setPhase_entered (s := s) (by rw [hk]; rfl)) fun _ => rfl
    · refine refines_destroyJob hpc ?_ (by rw [State.setPc, hk]; rfl)
      rw [view_setPc (by rw [he]; rfl) (by simp [he])]
      exact hs.job k
  case return_ k =>
    refine ⟨b, ?_, Or.inl rfl⟩
    refine hb.congr rfl rfl (fun _ => rfl) (setPc_turn (s := s) ?_)
    rcases he with he | he <;> simp [he, Pc.turn]
  case startJob w k =>
    have hk : s.phase k = .queued w := (hs.place.mem_queue w k).mp (List.mem_of_head? he)
    exact ⟨b, hb.congr rfl rfl (setPhase_entered (s := s) (by rw [hk]; rfl)) (fun _ => rfl),
      Or.inl rfl⟩
  case finishJob k =>
    exact ⟨b, refines_destroyJob hb (hs.job k) (by rw [he]; rfl), Or.inl rfl⟩
  case shareToken k | handOverToken k | expireRunner =>
    exact ⟨b, hb.congr rfl rfl (fun _ => rfl) (fun _ => rfl), Or.inl rfl⟩
  case dropToken k =>
    have ht : Refines
        { s with sharedTokens := Function.update s.sharedTokens k (s.sharedTokens k - 1) } b :=
      hb.congr rfl rfl (fun _ => rfl) fun _ => rfl
    have hi : (s.view k).released = false := (hs.job k).released_of_shared he
    refine ⟨b, ?_, Or.inl rfl⟩
    simp only [next]
    split_ifs
    · exact refines_releaseToken ht (by simpa [State.view] using hi)
    · exact ht
  case discardQueued w k =>
    have hk : s.phase k = .queued w := (hs.place.mem_queue w k).mp (List.mem_of_head? he.2)
    have ht : Refines
        { s with jobQueue := Function.update s.jobQueue w (s.jobQueue w).tail } b :=
      hb.congr rfl rfl (fun _ => rfl) fun _ => rfl
    exact ⟨b, refines_destroyJob ht (hs.job k) (by rw [hk]; rfl), Or.inl rfl⟩
  case expireStrand => exact ⟨_, refines_clear hs hb, Or.inr ⟨.clear, rfl, fun _ => rfl⟩⟩

end CrisCore.Strand
