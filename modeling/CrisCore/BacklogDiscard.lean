import CrisCore.StrandOwnership

/-! The call stack of a thread that releases a token of a strand. When the runner has expired
`PushToRunnerIfNeeded` destroys the job that it took, and with it the token of that job, whose
destructor calls `PushToRunnerIfNeeded` again before the first call returns. -/
namespace CrisCore.Strand.Nesting

structure Thread where
  strand : State
  /-- The calls of `PushToRunnerIfNeeded` that have not returned, the innermost one first. -/
  stack : List Activation

/-- What a call does next; `none` when it is at its end. -/
def nextAction (s : State) (a : Activation) (worker : ℕ) : Option Action :=
  match s.pc a with
  | .lock => some (.lock a)
  | .testReady => some (.testReady a)
  | .consumeOne => some (.consumeOne a)
  | .storeReady next => some (.storeReady a next)
  | .unlock next => some (.unlock a next)
  | .pushToRunner next => some (.pushToRunner a next worker)
  | _ => none

/-- The call of `PushToRunnerIfNeeded` that an action belongs to. -/
def call : Action → Option Activation
  | .lock a | .testReady a | .consumeOne a | .storeReady a _ | .unlock a _
  | .pushToRunner a _ _ => some a
  | _ => none

/-- The call that the destructor of `next` makes: the job had the last reference to its token. -/
def nestedCall (s : State) : Action → List Activation
  | .pushToRunner _ next _ =>
    if !s.runnerAlive && s.strandAlive && s.ownsToken next && s.sharedTokens next == 0 then
      [(.aliveToken, next)]
    else []
  | _ => []

inductive Move
  /-- The thread goes on; a live runner would add a job to this worker. -/
  | own (worker : ℕ)
  /-- Another thread does something with the strand, its runner or its tokens. -/
  | other (e : Action)

/-- The innermost call goes on, or returns to the destructor that it was called from. -/
def step (t : Thread) : Move → Option Thread
  | .own worker =>
    match t.stack with
    | [] => none
    | a :: callers =>
      match nextAction t.strand a worker with
      | none => some { t with stack := callers }
      | some e =>
        (Strand.step t.strand e).map fun strand => ⟨strand, nestedCall t.strand e ++ t.stack⟩
  | .other e =>
    if ∃ a ∈ t.stack, call e = some a then none
    else (Strand.step t.strand e).map fun strand => { t with strand := strand }

/-- The runner has expired, the strand is referenced, and the token of `j` has been released. -/
structure Releasing (s : State) (j : JobId) : Prop where
  reachable : Strand.system.Reachable s
  released : s.pc (.aliveToken, j) = .lock
  runnerExpired : s.runnerAlive = false
  strandAlive : s.strandAlive = true

/-- The thread in the destructor of the token. -/
def release (s : State) (j : JobId) : Thread :=
  ⟨s, [(.aliveToken, j)]⟩

def system : TransitionSystem Thread Move where
  init t := ∃ s j, Releasing s j ∧ t = release s j
  step := step

/-- While the backlog is the one found at the release, no stack on the way holds more than `c`
calls, whatever other threads do. -/
def NestsAtMost (c : ℕ) (s : State) (j : JobId) : Prop :=
  ∀ t moves, system.exec (release s j) moves = some t → t.strand.pushed = s.pushed →
    t.stack.length ≤ c

/-- The job that the innermost call has popped, counted. -/
def popped (t : Thread) : ℕ :=
  match t.stack with
  | [] => 0
  | a :: _ => if (t.strand.pc a).carried.isSome then 1 else 0

/-- `n` jobs were pending when `p` had been pushed: each job is pending still, or popped, or has
made the stack one deeper. -/
structure Bounded (n p : ℕ) (t : Thread) : Prop where
  coherent : Coherent t.strand
  runnerExpired : t.strand.runnerAlive = false
  begun : ∀ a ∈ t.stack, a.1 = .aliveToken ∧ t.strand.pc a ≠ .idle
  callers : ∀ a ∈ t.stack.tail, t.strand.pc a = .done
  count : t.strand.pendingJobs.length + popped t + t.stack.length + p ≤
    n + 1 + t.strand.pushed.length

section Bound
variable {n p worker : ℕ} {t u : Thread} {s : State} {e : Action} {j k : JobId} {a : Activation}
  {callers : List Activation}

theorem popped_cons (strand : State) (a : Activation) (callers : List Activation) :
    popped ⟨strand, a :: callers⟩ = if (strand.pc a).carried.isSome then 1 else 0 := rfl

theorem bounded_release (h : Releasing s j) :
    Bounded s.pendingJobs.length s.pushed.length (release s j) := by
  obtain ⟨hc, -⟩ := reachable_refines h.reachable
  have hpopped : popped (release s j) = 0 := by
    rw [release, popped_cons, h.released]
    rfl
  refine ⟨hc, h.runnerExpired, ?_, by simp [release], ?_⟩
  · simp [release, h.released]
  · rw [hpopped]
    exact Nat.le_refl _

/-- A call that is at its end returns. -/
theorem bounded_return (h : Bounded n p ⟨s, a :: callers⟩) : Bounded n p ⟨s, callers⟩ := by
  have hcount := h.count
  have hpopped : popped ⟨s, callers⟩ = 0 := by
    cases callers with
    | nil => rfl
    | cons b callers =>
      rw [popped_cons, h.callers b List.mem_cons_self]
      rfl
  refine ⟨h.coherent, h.runnerExpired, fun b hb => h.begun b (List.mem_cons_of_mem a hb),
    fun b hb => h.callers b (List.mem_of_mem_tail hb), ?_⟩
  simp only [List.length_cons] at hcount
  rw [hpopped]
  simp only
  omega

/-- The others neither move the calls on the stack nor touch what these have popped. -/
theorem pc_other (hs : Coherent s) (he : Enabled s e)
    (hb : a.1 = .aliveToken ∧ s.pc a ≠ .idle) (hother : call e ≠ some a) :
    (next s e).pc a = s.pc a := by
  rcases pc_step he hs a with hpc | hpc
  · exact hpc
  · generalize s.pc a = q at hpc hb
    generalize (next s e).pc a = r at hpc
    cases hpc with
    | lock | skip | consume | consumeOne | storeReady | unlockNone | unlockSome
    | pushToRunner => exact absurd rfl hother
    | release => exact absurd rfl hb.2
    | _ => cases hb.1

/-- The backlog grows by what is pushed only. -/
theorem pendingJobs_le (s : State) (e : Action) :
    (next s e).pendingJobs.length + s.pushed.length ≤
      s.pendingJobs.length + (next s e).pushed.length := by
  by_cases hpush : ∃ k, e = .push k
  · obtain ⟨k, rfl⟩ := hpush
    simp only [next, State.setPc, State.setPhase, List.length_append]
    omega
  · have hpushed : (next s e).pushed = s.pushed := pushed_next fun k hk => hpush ⟨k, hk⟩
    rw [hpushed]
    apply Nat.add_le_add_right
    -- popping a job and the end of the strand make the backlog shorter
    cases e
    case push k => exact absurd ⟨k, rfl⟩ hpush
    case consumeOne a =>
      cases hpend : s.pendingJobs with
      | nil => simp [next, hpend, State.setPc]
      | cons k rest => simp [next, hpend]
    case expireStrand => exact Nat.zero_le _
    all_goals
      rw [pendingJobs_next (by simp) (by simp) (by simp)]

theorem bounded_other (h : Bounded n p t) (he : Enabled t.strand e)
    (hother : ∀ a ∈ t.stack, call e ≠ some a) : Bounded n p { t with strand := next t.strand e } := by
  obtain ⟨s, stack⟩ := t
  have hpc (a : Activation) (ha : a ∈ stack) : (next s e).pc a = s.pc a :=
    pc_other h.coherent he (h.begun a ha) (hother a ha)
  have hrunner : (next s e).runnerAlive = false := by
    rw [next_runnerAlive, h.runnerExpired, Bool.false_and]
  have hpopped : popped ⟨next s e, stack⟩ = popped ⟨s, stack⟩ := by
    cases stack with
    | nil => rfl
    | cons a callers => rw [popped_cons, popped_cons, hpc a List.mem_cons_self]
  have hcount := h.count
  have hle := pendingJobs_le s e
  refine ⟨coherent_step he h.coherent, hrunner, fun a ha => ?_, fun a ha => ?_, ?_⟩
  · simp only [hpc a ha]
    exact h.begun a ha
  · simp only [hpc a (List.mem_of_mem_tail ha)]
    exact h.callers a ha
  · simp only at hcount ⊢
    rw [hpopped]
    omega

/-- A step that moves the innermost call only. -/
theorem bounded_move {q : Pc} (h : Bounded n p ⟨s, a :: callers⟩) (he : Enabled s e)
    (hpush : ∀ k, e ≠ .push k) (hact : s.pc a ≠ .done) (hq : q ≠ .idle)
    (hpcs : (next s e).pc = Function.update s.pc a q)
    (hrunner : (next s e).runnerAlive = s.runnerAlive)
    (hcount : (next s e).pendingJobs.length + (if q.carried.isSome then 1 else 0) ≤
      s.pendingJobs.length + if (s.pc a).carried.isSome then 1 else 0) :
    Bounded n p ⟨next s e, a :: callers⟩ := by
  have hold := h.count
  rw [popped_cons] at hold
  have hpushed : (next s e).pushed = s.pushed := pushed_next hpush
  refine ⟨coherent_step he h.coherent, hrunner.trans h.runnerExpired, fun b hb => ?_,
    fun b hb => ?_, ?_⟩
  · obtain ⟨hrole, hidle⟩ := h.begun b hb
    refine ⟨hrole, ?_⟩
    simp only [hpcs, Function.update_apply]
    split_ifs
    · exact hq
    · exact hidle
  -- a caller is at its end, so it is not the call that moves
  · have hdone : s.pc b = .done := h.callers b hb
    have hne : b ≠ a := by
      intro heq
      rw [heq] at hdone
      exact hact hdone
    simp only [hpcs]
    rw [Function.update_of_ne hne, hdone]
  · rw [popped_cons, hpcs, Function.update_self]
    simp only [hpushed] at hold ⊢
    omega

theorem bounded_testReady (h : Bounded n p ⟨s, a :: callers⟩) (hpc : s.pc a = .testReady) :
    Bounded n p ⟨next s (.testReady a), a :: callers⟩ := by
  have hact : s.pc a ≠ .done := by simp [hpc]
  have hrole : a.1 = .aliveToken := (h.begun a List.mem_cons_self).1
  have hnext : next s (.testReady a) = s.setPc a .consumeOne := by
    simp [next, hrole, Role.isInRunningJob]
  refine bounded_move h hpc (by simp) hact (q := .consumeOne) (by simp) (by rw [hnext]; rfl)
    (by rw [hnext]; rfl) ?_
  rw [hnext]
  exact Nat.le_add_right _ _

theorem bounded_consumeOne (h : Bounded n p ⟨s, a :: callers⟩) (hpc : s.pc a = .consumeOne) :
    Bounded n p ⟨next s (.consumeOne a), a :: callers⟩ := by
  have hact : s.pc a ≠ .done := by simp [hpc]
  cases hpend : s.pendingJobs with
  | nil =>
    have hnext : next s (.consumeOne a) = s.setPc a (.storeReady none) := by simp only [next, hpend]
    refine bounded_move h hpc (by simp) hact (q := .storeReady none) (by simp) (by rw [hnext]; rfl)
      (by rw [hnext]; rfl) ?_
    rw [hnext]
    exact Nat.le_add_right _ _
  | cons k rest =>
    have hnext : next s (.consumeOne a) =
        { (s.setPc a (.storeReady (some k))).setPhase k (.popped a) with pendingJobs := rest } := by
      simp only [next, hpend]
    refine bounded_move h hpc (by simp) hact (q := .storeReady (some k)) (by simp)
      (by rw [hnext]; rfl)
      (by rw [hnext]; rfl) ?_
    rw [hnext, hpend]
    exact Nat.le_add_right _ _

/-- The job that a call has popped still owns its token, which nobody shares. -/
theorem popped_owns (hc : Coherent s) (hpc : s.pc a = .pushToRunner k) :
    s.ownsToken k = true ∧ s.sharedTokens k = 0 := by
  have hphase : s.phase k = .popped a := (hc.place.carried a k).mp (by rw [hpc]; rfl)
  have hjob := hc.job k
  simp only [JobOk, State.view, hphase] at hjob
  exact hjob.2.2

/-- The popped job is destroyed, and the destructor of its token calls again. -/
theorem next_pushToRunner (worker : ℕ) (hc : Coherent s) (hrunner : s.runnerAlive = false)
    (hpc : s.pc a = .pushToRunner k) :
    next s (.pushToRunner a k worker) = (s.setPc a .done).destroyJob k .discarded ∧
      (next s (.pushToRunner a k worker)).pc =
        (if s.strandAlive then Function.update (Function.update s.pc a .done) (.aliveToken, k) .lock
        else Function.update s.pc a .done) ∧
      nestedCall s (.pushToRunner a k worker) =
        if s.strandAlive then [(.aliveToken, k)] else [] := by
  obtain ⟨howns, hshared⟩ := popped_owns hc hpc
  have hnext : next s (.pushToRunner a k worker) = (s.setPc a .done).destroyJob k .discarded := by
    simp only [next, hrunner]
    rfl
  refine ⟨hnext, ?_, ?_⟩
  · rw [hnext, State.destroyJob_eq]
    simp [State.setPc, howns, hshared]
  · simp [nestedCall, hrunner, howns, hshared]

/-- The calls on the stack are at their ends, and the release that begins is none of them. -/
theorem done_of_pushToRunner (worker : ℕ) (h : Bounded n p ⟨s, a :: callers⟩)
    (hpc : s.pc a = .pushToRunner k) {b : Activation} (hb : b ∈ a :: callers) :
    (next s (.pushToRunner a k worker)).pc b = .done := by
  obtain ⟨-, hpcs, -⟩ := next_pushToRunner worker h.coherent h.runnerExpired hpc
  have hidle : s.pc (.aliveToken, k) = .idle :=
    idle_of_owns h.coherent (popped_owns h.coherent hpc).1
  have hne : b ≠ (.aliveToken, k) := by
    intro heq
    rw [heq] at hb
    exact (h.begun _ hb).2 hidle
  have hold : Function.update s.pc a .done b = .done := by
    rcases List.mem_cons.mp hb with rfl | hb
    · exact Function.update_self b Pc.done s.pc
    · rw [Function.update_apply]
      split_ifs
      · rfl
      · exact h.callers b hb
  rw [hpcs]
  split_ifs
  · rw [Function.update_of_ne hne, hold]
  · exact hold

/-- The discarded job makes the stack one deeper. -/
theorem bounded_pushToRunner (h : Bounded n p ⟨s, a :: callers⟩)
    (hpc : s.pc a = .pushToRunner k) : Bounded n p ⟨next s (.pushToRunner a k worker),
      nestedCall s (.pushToRunner a k worker) ++ a :: callers⟩ := by
  have hc : Coherent s := h.coherent
  obtain ⟨-, hpcs, hcall⟩ := next_pushToRunner worker hc h.runnerExpired hpc
  have hcoherent : Coherent (next s (.pushToRunner a k worker)) := coherent_step hpc hc
  have hpending : (next s (.pushToRunner a k worker)).pendingJobs = s.pendingJobs :=
    pendingJobs_next nofun nofun nofun
  have hpushed : (next s (.pushToRunner a k worker)).pushed = s.pushed := pushed_next nofun
  have hexpired : (next s (.pushToRunner a k worker)).runnerAlive = false := by
    rw [next_runnerAlive, h.runnerExpired, Bool.false_and]
  have hdone (b : Activation) (hb : b ∈ a :: callers) :
      (next s (.pushToRunner a k worker)).pc b = .done := done_of_pushToRunner worker h hpc hb
  have hrole (b : Activation) (hb : b ∈ a :: callers) : b.1 = .aliveToken := (h.begun b hb).1
  have hcount := h.count
  rw [popped_cons, hpc] at hcount
  simp only [Pc.carried, Option.isSome_some, if_true, List.length_cons] at hcount
  cases hstrand : s.strandAlive with
  -- the strand has expired meanwhile, and the job was the last one
  | false =>
    rw [hcall, hstrand, if_neg Bool.false_ne_true, List.nil_append]
    refine ⟨hcoherent, hexpired, fun b hb => ⟨hrole b hb, ?_⟩, fun b hb => ?_, ?_⟩
    · simp [hdone b hb]
    · exact hdone b (List.mem_of_mem_tail hb)
    · rw [popped_cons, hdone a List.mem_cons_self]
      simp only [hpending, hpushed, Pc.carried, List.length_cons]
      simp
      omega
  -- the popped job becomes one more call
  | true =>
    have hlock : (next s (.pushToRunner a k worker)).pc (.aliveToken, k) = .lock := by
      rw [hpcs, hstrand, if_pos rfl, Function.update_self]
    rw [hcall, hstrand, if_pos rfl, List.singleton_append]
    refine ⟨hcoherent, hexpired, fun b hb => ?_, hdone, ?_⟩
    · rcases List.mem_cons.mp hb with rfl | hb
      · exact ⟨rfl, by simp [hlock]⟩
      · exact ⟨hrole b hb, by simp [hdone b hb]⟩
    · rw [popped_cons, hlock]
      simp only [hpending, hpushed, Pc.carried, List.length_cons]
      simp
      omega

/-- One case for each point that the innermost call can be at. -/
theorem bounded_own (h : Bounded n p ⟨s, a :: callers⟩) (ha : nextAction s a worker = some e)
    (he : Enabled s e) : Bounded n p ⟨next s e, nestedCall s e ++ a :: callers⟩ := by
  unfold nextAction at ha
  cases hpc : s.pc a <;> rw [hpc] at ha <;> cases ha
  case lock =>
    exact bounded_move h he nofun (by simp [hpc]) (q := .testReady) nofun rfl rfl
      (Nat.le_add_right _ _)
  case testReady => exact bounded_testReady h hpc
  case consumeOne => exact bounded_consumeOne h hpc
  case storeReady k =>
    refine bounded_move h he nofun (by simp [hpc]) (q := .unlock k) nofun rfl rfl ?_
    rw [hpc]
    exact Nat.le_refl _
  case unlock k =>
    cases k with
    | none =>
      exact bounded_move h he nofun (by simp [hpc]) (q := .done) nofun rfl rfl
        (Nat.le_add_right _ _)
    | some k =>
      refine bounded_move h he nofun (by simp [hpc]) (q := .pushToRunner k) nofun rfl rfl ?_
      rw [hpc]
      exact Nat.le_refl _
  case pushToRunner k => exact bounded_pushToRunner h hpc

theorem bounded_step {m : Move} (h : Bounded n p t) (hs : step t m = some u) : Bounded n p u := by
  obtain ⟨s, stack⟩ := t
  cases m with
  | own worker =>
    cases stack with
    | nil => cases hs
    | cons a callers =>
      simp only [step] at hs
      cases ha : nextAction s a worker with
      | none =>
        rw [ha] at hs
        cases hs
        exact bounded_return h
      | some e =>
        rw [ha] at hs
        obtain ⟨s', hs', rfl⟩ := Option.map_eq_some_iff.mp hs
        obtain ⟨he, rfl⟩ := step_eq_some.mp hs'
        exact bounded_own h ha he
  | other e =>
    simp only [step] at hs
    split_ifs at hs with hother
    obtain ⟨s', hs', rfl⟩ := Option.map_eq_some_iff.mp hs
    obtain ⟨he, rfl⟩ := step_eq_some.mp hs'
    exact bounded_other h he fun a ha heq => hother ⟨a, ha, heq⟩

/-- Every further call on the stack is for a job that was pending at the release, or that was pushed
since. -/
theorem stack_le_pending {moves : List Move} (h : Releasing s j)
    (ht : system.exec (release s j) moves = some t) :
    t.stack.length + s.pushed.length ≤ s.pendingJobs.length + 1 + t.strand.pushed.length := by
  have hlast : Bounded s.pendingJobs.length s.pushed.length t :=
    TransitionSystem.exec_induction (bounded_release h)
      (fun u m v hu hv => bounded_step hu hv) ht
  have hcount := hlast.count
  omega

end Bound

section Depth
variable {worker : ℕ} {t u : Thread} {s : State} {e : Action} {j k : JobId} {a b : Activation}
  {callers : List Activation}

/-- What the release of a token goes through. -/
def Pc.ofRelease : Pc → Bool
  | .idle | .lock | .testReady | .consumeOne | .storeReady _ | .unlock _ | .pushToRunner _
  | .done => true
  | _ => false

theorem ofRelease_of_reachable (h : Strand.system.Reachable s) (k : JobId) :
    Pc.ofRelease (s.pc (.aliveToken, k)) = true := by
  refine h.invariant_of_reachable (P := fun s => Pc.ofRelease (s.pc (.aliveToken, k)) = true) ?_ ?_
  · rintro s rfl
    rfl
  · intro u e v hu hp hv
    obtain ⟨he, rfl⟩ := step_eq_some.mp hv
    rcases pc_step he (reachable_refines hu).1 (.aliveToken, k) with hpc | hpc
    · rw [hpc, hp]
    · generalize u.pc (.aliveToken, k) = q at hpc
      generalize (next u e).pc (.aliveToken, k) = r at hpc
      cases hpc <;> rfl

theorem held_of_reachable (h : Strand.system.Reachable s) :
    s.locked = true → ∃ a, (s.pc a).inSection = true := by
  refine h.invariant_of_reachable
    (P := fun s => s.locked = true → ∃ a, (s.pc a).inSection = true) ?_ ?_
  · rintro s rfl hl
    cases hl
  · intro u e v hu hp hv
    obtain ⟨he, rfl⟩ := step_eq_some.mp hv
    exact held_step he (reachable_refines hu).1 hp

theorem view_released (hpc : s.pc (.aliveToken, k) ≠ .idle) : (s.view k).released = true := by
  simpa [State.view] using hpc

/-- The released job holds the baton still. -/
theorem active_of_releasing (h : Releasing s j) : Active s j := by
  obtain ⟨hc, -⟩ := reachable_refines h.reachable
  apply active_of_released hc (view_released (by simp [h.released]))
  simp [Decided, h.released, Pc.turn, Turn.decided]

theorem eq_of_active (h : Releasing s j) (hk : Active s k) : k = j := by
  obtain ⟨-, β, hb⟩ := reachable_refines h.reachable
  exact hb.active_unique hk (active_of_releasing h)

/-- A job that a call has popped would be active too. -/
theorem carried_of_releasing (h : Releasing s j) (a : Activation) : (s.pc a).carried = none := by
  obtain ⟨hc, -⟩ := reachable_refines h.reachable
  by_contra hsome
  obtain ⟨k, hk⟩ := Option.ne_none_iff_exists'.mp hsome
  have hphase : s.phase k = .popped a := (hc.place.carried a k).mp hk
  rw [eq_of_active h (active_of_waiting hc (Or.inr ⟨a, hphase⟩))] at hphase
  have hreleased := (hc.job j).phase_of_released (view_released (by simp [h.released]))
  simp [State.view, hphase] at hreleased

/-- And so would be one that a call is about to run in place. -/
theorem not_claimed_of_releasing (h : Releasing s j) (k : JobId) :
    (s.pc (.addJob, k)).stage ≠ .claimed := by
  intro hstage
  obtain ⟨hc, -⟩ := reachable_refines h.reachable
  have hphase : s.phase k = .claimed := (hc.job k).phase_of_claimed hstage
  have hjob := hc.job k
  simp only [JobOk, State.view, hphase] at hjob
  have hidle : s.pc (.aliveToken, k) = .idle := by simpa using hjob.2.1
  have hactive : Active s k :=
    ⟨by rw [hphase]; rfl, by simp [Decided, hidle, Pc.turn, Turn.decided]⟩
  rw [eq_of_active h hactive, h.released] at hidle
  cases hidle

/-- Another release inside the section has decided already. -/
theorem decided_of_inSection (h : Releasing s j)
    (hin : (s.pc (.aliveToken, k)).inSection = true) : Decided s k := by
  obtain ⟨hc, -⟩ := reachable_refines h.reachable
  have hpc : s.pc (.aliveToken, k) ≠ .idle := by
    intro hidle
    rw [hidle] at hin
    cases hin
  by_contra hout
  rw [eq_of_active h (active_of_released hc (view_released hpc) hout), h.released] at hin
  cases hin

theorem not_storing_of_releasing (h : Releasing s j) (next : Option JobId) :
    s.pc b ≠ .storeReady next := by
  intro hpc
  obtain ⟨-, β, hβ⟩ := reachable_refines h.reachable
  have hholder : β.holder = some j := (hβ.holder j).mp (active_of_releasing h)
  have hnext : β.holder = next := hβ.store b next (by rw [hpc]; rfl)
  have hcarried := carried_of_releasing h b
  rw [hpc] at hcarried
  simp only [Pc.carried] at hcarried
  rw [hholder, hcarried] at hnext
  cases hnext

/-- Whoever is inside when a token is released is on the way out, or is a call of `AddJob` that has
not decided. -/
theorem position_of_inSection (h : Releasing s j) (hb : (s.pc b).inSection = true) :
    s.pc b = .unlock none ∨ b.1 = .addJob ∧
      (s.pc b = .testReady ∨ s.pc b = .testEmpty ∨ s.pc b = .unlockForce false) := by
  obtain ⟨-, β, hβ⟩ := reachable_refines h.reachable
  have hholder : β.holder = some j := (hβ.holder j).mp (active_of_releasing h)
  have hcarried := carried_of_releasing h b
  obtain ⟨role, k⟩ := b
  cases role with
  | addJob =>
    have hclaim := not_claimed_of_releasing h k
    cases hpc : s.pc (.addJob, k) <;> rw [hpc] at hb hcarried hclaim <;>
      simp only [Pc.inSection, Bool.false_eq_true] at hb
    -- the calls that would take the baton from `j` cannot be there
    case testReady => exact Or.inr ⟨rfl, Or.inl rfl⟩
    case testEmpty => exact Or.inr ⟨rfl, Or.inr (Or.inl rfl)⟩
    case setReady => exact absurd rfl hclaim
    case unlockForce accepted =>
      cases accepted with
      | false => exact Or.inr ⟨rfl, Or.inr (Or.inr rfl)⟩
      | true => exact absurd rfl hclaim
    case consumeOne =>
      have hnone : β.holder = none := hβ.consume k (by rw [hpc]; rfl)
      rw [hholder] at hnone
      cases hnone
    case storeReady next => exact absurd hpc (not_storing_of_releasing h next)
    case unlock next =>
      simp only [Pc.carried] at hcarried
      exact Or.inl (by rw [hcarried])
  | aliveToken =>
    have hkind := ofRelease_of_reachable h.reachable k
    have hdecided := decided_of_inSection h hb
    unfold Decided at hdecided
    cases hpc : s.pc (.aliveToken, k) <;> rw [hpc] at hb hcarried hkind hdecided <;>
      simp only [Pc.inSection, Bool.false_eq_true] at hb
    case testReady => cases hdecided
    case consumeOne => cases hdecided
    case storeReady next => exact absurd hpc (not_storing_of_releasing h next)
    case unlock next =>
      simp only [Pc.carried] at hcarried
      exact Or.inl (by rw [hcarried])
    all_goals cases hkind

theorem ready_of_releasing (h : Releasing s j) (hb : (s.pc b).inSection = true) :
    s.hasReadyJob = true := by
  obtain ⟨hc, β, hβ⟩ := reachable_refines h.reachable
  have hholder : β.holder = some j := (hβ.holder j).mp (active_of_releasing h)
  have hready : s.hasReadyJob = β.holder.isSome := by
    refine ready_of_inSection hc hβ hb ?_ ?_ <;>
      rcases position_of_inSection h hb with hpc | ⟨-, hpc | hpc | hpc⟩ <;> simp [hpc, Pc.turn]
  rw [hready, hholder]
  rfl

theorem step_other (he : Enabled s e) (hcall : call e ≠ some a) :
    system.step ⟨s, [a]⟩ (.other e) = some ⟨next s e, [a]⟩ := by
  have hnone : ¬ ∃ b ∈ [a], call e = some b := by simpa using hcall
  change (if ∃ b ∈ [a], call e = some b then none else _) = _
  rw [if_neg hnone, Strand.step, if_pos he]
  rfl

theorem step_own (callers : List Activation) (ha : nextAction s a worker = some e)
    (he : Enabled s e) :
    system.step ⟨s, a :: callers⟩ (.own worker) =
      some ⟨next s e, nestedCall s e ++ a :: callers⟩ := by
  change (match nextAction s a worker with | none => _ | some e => _) = _
  rw [ha]
  simp only
  rw [Strand.step, if_pos he]
  rfl

/-- Others can give the lock back and leave everything else as the releasing thread found it. -/
def FreesLock (s : State) (j : JobId) : Prop :=
  ∃ s' moves, system.exec (release s j) moves = some (release s' j) ∧ Releasing s' j ∧
    s'.locked = false ∧ s'.pendingJobs = s.pendingJobs ∧ s'.pushed = s.pushed

theorem freesLock_of_other (h : Releasing s j) (he : Enabled s e)
    (hcall : call e ≠ some (.aliveToken, j)) (hpush : ∀ k, e ≠ .push k)
    (hpop : ∀ a, e ≠ .consumeOne a) (hend : e ≠ .expireStrand)
    (hrest : Releasing (next s e) j → FreesLock (next s e) j) : FreesLock s j := by
  obtain ⟨hc, -⟩ := reachable_refines h.reachable
  have hpc : (next s e).pc (.aliveToken, j) = s.pc (.aliveToken, j) :=
    pc_other hc he ⟨rfl, by simp [h.released]⟩ hcall
  have hnext : Releasing (next s e) j := by
    refine ⟨h.reachable.step (step_eq_some.mpr ⟨he, rfl⟩), hpc.trans h.released, ?_, ?_⟩
    · rw [next_runnerAlive, h.runnerExpired, Bool.false_and]
    · rw [next_strandAlive, h.strandAlive, Bool.true_and, bne_iff_ne]
      exact hend
  obtain ⟨s', moves, hexec, hs', hfree, hpend, hpushed⟩ := hrest hnext
  refine ⟨s', .other e :: moves, ?_, hs', hfree, ?_, ?_⟩
  · rw [release, TransitionSystem.exec_cons, step_other he hcall]
    exact hexec
  · rw [hpend, pendingJobs_next hpush hpop hend]
  · rw [hpushed, pushed_next hpush]

theorem freesLock_of_unlocked (h : Releasing s j) (hfree : s.locked = false) : FreesLock s j :=
  ⟨s, [], rfl, h, hfree, rfl, rfl⟩

theorem freesLock_of_leaving (h : Releasing s j) (hpc : s.pc b = .unlock none) :
    FreesLock s j := by
  have hcall : call (.unlock b none) ≠ some (.aliveToken, j) := by
    intro heq
    rw [Option.some.inj heq, h.released] at hpc
    cases hpc
  exact freesLock_of_other (e := .unlock b none) h hpc hcall nofun nofun nofun
    fun hnext => freesLock_of_unlocked hnext rfl

theorem freesLock_of_declining (h : Releasing s j) (hpc : s.pc (.addJob, k) = .unlockForce false) :
    FreesLock s j :=
  freesLock_of_other (e := .unlockForce k false) h hpc nofun nofun nofun nofun
    fun hnext => freesLock_of_unlocked hnext rfl

/-- The release never waits for the lock in vain. -/
theorem freesLock_of_releasing (h : Releasing s j) : FreesLock s j := by
  cases hl : s.locked with
  | false => exact freesLock_of_unlocked h hl
  | true =>
    obtain ⟨⟨role, k⟩, hb⟩ := held_of_reachable h.reachable hl
    have hready := ready_of_releasing h hb
    obtain hpc | ⟨rfl, hpc | hpc | hpc⟩ := position_of_inSection h hb
    · exact freesLock_of_leaving h hpc
    · -- a job is ready, and the call leaves it at that
      refine freesLock_of_other (e := .testReady (.addJob, k)) h hpc (by simp [call]) (by simp)
        (by simp) (by simp) fun hnext => freesLock_of_leaving (b := (.addJob, k)) hnext ?_
      simp [next, hready, Role.isInRunningJob, State.setPc]
    · refine freesLock_of_other (e := .testEmpty k) h hpc (by simp [call]) (by simp) (by simp)
        (by simp) fun hnext => freesLock_of_declining (k := k) hnext ?_
      simp [next, hready, State.setPc]
    · exact freesLock_of_declining h hpc

/-- A release about to discard the next job of the backlog. -/
structure Discarding (s : State) (a : Activation) : Prop where
  coherent : Coherent s
  role : a.1 = .aliveToken
  released : s.pc a = .lock
  runnerExpired : s.runnerAlive = false
  strandAlive : s.strandAlive = true
  unlocked : s.locked = false

theorem discarding_of_releasing (h : Releasing s j) (hfree : s.locked = false) :
    Discarding s (.aliveToken, j) :=
  ⟨(reachable_refines h.reachable).1, rfl, h.released, h.runnerExpired, h.strandAlive, hfree⟩

theorem coherent_exec {moves : List Move} (h : Coherent t.strand)
    (ht : system.exec t moves = some u) : Coherent u.strand := by
  refine TransitionSystem.exec_induction (P := fun t => Coherent t.strand) h ?_ ht
  rintro ⟨s, stack⟩ m v hs hv
  change step ⟨s, stack⟩ m = some v at hv
  have hnext {e : Action} {s' : State} (hs' : Strand.step s e = some s') : Coherent s' := by
    obtain ⟨he, rfl⟩ := step_eq_some.mp hs'
    exact coherent_step he hs
  unfold step at hv
  split at hv
  · split at hv
    · cases hv
    · split at hv
      · cases hv
        exact hs
      · obtain ⟨s', hs', rfl⟩ := Option.map_eq_some_iff.mp hv
        exact hnext hs'
  · split_ifs at hv
    obtain ⟨s', hs', rfl⟩ := Option.map_eq_some_iff.mp hv
    exact hnext hs'

/-- From the lock to the end of the section. -/
def afterSection (s : State) (a : Activation) (k : JobId) (rest : List JobId) : State :=
  { s with
    pc := Function.update s.pc a (.pushToRunner k)
    phase := Function.update s.phase k (.popped a)
    pendingJobs := rest
    hasReadyJob := true
    locked := false }

theorem exec_section (callers : List Activation) {rest : List JobId} (h : Discarding s a)
    (hpend : s.pendingJobs = k :: rest) :
    system.exec ⟨s, a :: callers⟩ (List.replicate 5 (.own 0)) =
      some ⟨afterSection s a k rest, a :: callers⟩ := by
  obtain ⟨-, hrole, hpc, -, -, hfree⟩ := h
  have htest : next (next s (.lock a)) (.testReady a) =
      { s.setPc a .consumeOne with locked := true } := by
    simp [next, hrole, Role.isInRunningJob, State.setPc]
  have hpop : next { s.setPc a .consumeOne with locked := true } (.consumeOne a) =
      { (s.setPc a (.storeReady (some k))).setPhase k (.popped a) with
        pendingJobs := rest, locked := true } := by
    simp [next, hpend, State.setPc, State.setPhase]
  simp only [List.replicate, TransitionSystem.exec_cons, TransitionSystem.exec_nil]
  rw [step_own callers (e := .lock a) (by rw [nextAction, hpc]) ⟨hpc, hfree⟩]
  simp only [nestedCall, List.nil_append, Option.bind_some]
  rw [step_own callers (e := .testReady a) (by simp [nextAction, next, State.setPc])
    (by simp [Enabled, next, State.setPc]), htest]
  simp only [nestedCall, List.nil_append, Option.bind_some]
  rw [step_own callers (e := .consumeOne a) (by simp [nextAction, State.setPc])
    (by simp [Enabled, State.setPc]), hpop]
  simp only [nestedCall, List.nil_append, Option.bind_some]
  rw [step_own callers (e := .storeReady a (some k)) (by simp [nextAction, State.setPc, State.setPhase])
    (by simp [Enabled, State.setPc, State.setPhase])]
  simp only [nestedCall, List.nil_append, Option.bind_some]
  rw [step_own callers (e := .unlock a (some k)) (by simp [nextAction, next, State.setPc, State.setPhase])
    (by simp [Enabled, next, State.setPc, State.setPhase])]
  simp [nestedCall, next, afterSection, State.setPc, State.setPhase]

/-- One job of the backlog is discarded, and the release of its token begins inside the call. -/
theorem exec_discard (callers : List Activation) {rest : List JobId} (h : Discarding s a)
    (hpend : s.pendingJobs = k :: rest) :
    ∃ s', system.exec ⟨s, a :: callers⟩ (List.replicate 6 (.own 0)) =
        some ⟨s', (.aliveToken, k) :: a :: callers⟩ ∧ Discarding s' (.aliveToken, k) ∧
      s'.pendingJobs = rest ∧ s'.pushed = s.pushed := by
  have hsection := exec_section callers h hpend
  generalize hafter : afterSection s a k rest = u at hsection
  have hc : Coherent u := coherent_exec h.coherent hsection
  have hpc : u.pc a = .pushToRunner k := by simp [← hafter, afterSection]
  have hrunner : u.runnerAlive = false := by rw [← hafter]; exact h.runnerExpired
  have hstrand : u.strandAlive = true := by rw [← hafter]; exact h.strandAlive
  obtain ⟨hnext, hpcs, hcall⟩ := next_pushToRunner 0 hc hrunner hpc
  rw [hstrand, if_pos rfl] at hpcs hcall
  have hstep := step_own callers (e := .pushToRunner a k 0)
    (by rw [nextAction, hpc]) hpc
  rw [hcall] at hstep
  have hlast : (List.replicate 6 (.own 0) : List Move) = List.replicate 5 (.own 0) ++ [.own 0] := rfl
  refine ⟨next u (.pushToRunner a k 0), ?_, ⟨coherent_step hpc hc, rfl, ?_, ?_, ?_, ?_⟩, ?_, ?_⟩
  · rw [hlast, TransitionSystem.exec_snoc]
    exact ⟨_, hsection, hstep⟩
  · rw [hpcs, Function.update_self]
  · rw [next_runnerAlive, hrunner, Bool.false_and]
  · rw [next_strandAlive, hstrand]
    rfl
  · rw [hnext, State.destroyJob_eq, ← hafter]
    rfl
  · rw [hnext, State.destroyJob_eq, ← hafter]
    rfl
  · rw [pushed_next (e := .pushToRunner a k 0) nofun, ← hafter]
    rfl

/-- The whole backlog is discarded by calls nested in each other. -/
theorem exec_discards (callers : List Activation) (pending : List JobId) (h : Discarding s a)
    (hpend : s.pendingJobs = pending) :
    ∃ moves t, system.exec ⟨s, a :: callers⟩ moves = some t ∧ t.strand.pushed = s.pushed ∧
      t.stack.length = pending.length + (callers.length + 1) := by
  -- on the backlog, with the stack as deep as it has become
  induction pending generalizing s a callers with
  | nil => exact ⟨[], _, rfl, rfl, by simp⟩
  | cons k rest ih =>
    obtain ⟨s', hexec, hs', hrest, hpushed⟩ := exec_discard callers h hpend
    obtain ⟨moves, t, ht, htp, hlen⟩ := ih (a :: callers) hs' hrest
    refine ⟨List.replicate 6 (.own 0) ++ moves, t, ?_, htp.trans hpushed, ?_⟩
    · rw [TransitionSystem.exec_append_some _ hexec, ht]
    · rw [hlen]
      simp only [List.length_cons]
      omega

theorem deepest_stack (h : Releasing s j) :
    ∃ moves t, system.exec (release s j) moves = some t ∧ t.strand.pushed = s.pushed ∧
      t.stack.length = s.pendingJobs.length + 1 := by
  obtain ⟨s', first, hfirst, hs', hfree, hpend, hpushed⟩ := freesLock_of_releasing h
  obtain ⟨moves, t, ht, htp, hlen⟩ :=
    exec_discards [] s'.pendingJobs (discarding_of_releasing hs' hfree) rfl
  refine ⟨first ++ moves, t, ?_, htp.trans hpushed, ?_⟩
  · rw [TransitionSystem.exec_append_some _ hfirst]
    exact ht
  · rw [hlen, hpend]
    rfl

end Depth

section Backlog
variable {s : State} {c : ℕ} {j : JobId}

/-- The calls nest one deeper than the backlog is long: they stay within a bound exactly when fewer
jobs are pending. -/
theorem nestsAtMost_iff (h : Releasing s j) : NestsAtMost c s j ↔ s.pendingJobs.length < c := by
  constructor
  · intro hbound
    obtain ⟨moves, t, ht, hpushed, hlen⟩ := deepest_stack h
    have hle := hbound t moves ht hpushed
    omega
  · intro hlt t moves ht hpushed
    have hle := stack_le_pending h ht
    rw [hpushed] at hle
    omega

/-- Job 0 runs when job 1 is added and the runner expires. -/
def backlogRun : List Action :=
  [.call 0 .enqueue, .push 0, .lock (.addJob, 0), .testReady (.addJob, 0),
    .consumeOne (.addJob, 0), .storeReady (.addJob, 0) (some 0), .unlock (.addJob, 0) (some 0),
    .pushToRunner (.addJob, 0) 0 0, .startJob 0 0, .call 1 .enqueue, .push 1,
    .lock (.addJob, 1), .testReady (.addJob, 1), .unlock (.addJob, 1) none, .expireRunner,
    .finishJob 0]

theorem releasing_backlogRun : Releasing (afterRun backlogRun) 0 :=
  ⟨reachable_afterRun backlogRun, by decide, by decide, by decide⟩

theorem nestsAtMost_iff_backlogRun :
    (afterRun backlogRun).pendingJobs.length = 1 ∧ NestsAtMost 2 (afterRun backlogRun) 0 ∧
      ¬ NestsAtMost 1 (afterRun backlogRun) 0 := by
  have hpend : (afterRun backlogRun).pendingJobs.length = 1 := by decide
  refine ⟨hpend, (nestsAtMost_iff releasing_backlogRun).mpr (by omega), fun h => ?_⟩
  have hlt := (nestsAtMost_iff releasing_backlogRun).mp h
  omega

/-- Job 0 runs, and `n` more have been added. -/
structure Backlog (n : ℕ) (s : State) : Prop where
  reachable : Strand.system.Reachable s
  length : s.pendingJobs.length = n
  ready : s.hasReadyJob = true
  unlocked : s.locked = false
  strandAlive : s.strandAlive = true
  running : s.phase 0 = .running
  owned : s.ownsToken 0 = true ∧ s.sharedTokens 0 = 0
  later : ∀ k, n < k → s.pc (.addJob, k) = .idle

/-- The calls up to the start of job 0. -/
def startRun : List Action :=
  backlogRun.take 9

theorem backlog_zero : Backlog 0 (afterRun startRun) := by
  have hpc : (afterRun startRun).pc =
      Function.update (Function.update (Function.update (Function.update (Function.update
        (Function.update (Function.update (Function.update initial.pc (.addJob, 0) .push)
          (.addJob, 0) .lock) (.addJob, 0) .testReady) (.addJob, 0) .consumeOne)
            (.addJob, 0) (.storeReady (some 0))) (.addJob, 0) (.unlock (some 0)))
              (.addJob, 0) (.pushToRunner 0)) (.addJob, 0) .done := rfl
  refine ⟨reachable_afterRun startRun, by decide, by decide, by decide, by decide, by decide,
    by decide, fun k hk => ?_⟩
  have hne : ((.addJob, k) : Activation) ≠ (.addJob, 0) := by simp [hk.ne']
  simp only [hpc, Function.update_of_ne hne]
  rfl

/-- A call of `AddJob(job)` that finds a job ready. -/
def enqueueRun (k : JobId) : List Action :=
  [.call k .enqueue, .push k, .lock (.addJob, k), .testReady (.addJob, k),
    .unlock (.addJob, k) none]

def enqueued (s : State) (k : JobId) : State :=
  { s with
    form := Function.update s.form k .enqueue
    pc := Function.update s.pc (.addJob, k) .done
    phase := Function.update s.phase k .pending
    pendingJobs := s.pendingJobs ++ [k]
    ownsToken := Function.update s.ownsToken k true
    pushed := s.pushed ++ [k] }

theorem exec_enqueueRun {k : JobId} (hpc : s.pc (.addJob, k) = .idle)
    (hready : s.hasReadyJob = true) (hfree : s.locked = false) :
    Strand.system.exec s (enqueueRun k) = some (enqueued s k) := by
  simp [enqueueRun, enqueued, Strand.system, Strand.step, Enabled, next, State.setPc,
    State.setPhase, Role.isInRunningJob, hpc, hready, hfree]

theorem backlog_succ {n : ℕ} (h : Backlog n s) : Backlog (n + 1) (enqueued s (n + 1)) := by
  have hrun := exec_enqueueRun (h.later (n + 1) (Nat.lt_succ_self n)) h.ready h.unlocked
  refine ⟨h.reachable.exec hrun, ?_, h.ready, h.unlocked, h.strandAlive, ?_, ⟨?_, h.owned.2⟩,
    fun k hk => ?_⟩
  · simp [enqueued, h.length]
  · simp [enqueued, h.running]
  · simp [enqueued, h.owned.1]
  · have hne : ((.addJob, k) : Activation) ≠ (.addJob, n + 1) := by simp [hk.ne']
    simp only [enqueued]
    rw [Function.update_of_ne hne]
    exact h.later k (by omega)

theorem exists_backlog (n : ℕ) : ∃ s, Backlog n s := by
  induction n with
  | zero => exact ⟨_, backlog_zero⟩
  | succ n ih =>
    obtain ⟨s, hs⟩ := ih
    exact ⟨_, backlog_succ hs⟩

/-- The runner expires, and job 0 finishes. -/
theorem releasing_of_backlog {n : ℕ} (h : Backlog n s) :
    ∃ t, Releasing t 0 ∧ t.pendingJobs.length = n := by
  let u := next (next s .expireRunner) (.finishJob 0)
  have hexpire : Strand.system.step s .expireRunner = some (next s .expireRunner) :=
    step_eq_some.mpr ⟨trivial, rfl⟩
  have hfinish : Strand.system.step (next s .expireRunner) (.finishJob 0) = some u :=
    step_eq_some.mpr ⟨h.running, rfl⟩
  have hu : u = { s with
      runnerAlive := false
      phase := Function.update s.phase 0 .finished
      ownsToken := Function.update s.ownsToken 0 false
      pc := Function.update s.pc (.aliveToken, 0) .lock } := by
    simp [u, next, State.destroyJob_eq, h.strandAlive, h.owned]
  refine ⟨u, ⟨(h.reachable.step hexpire).step hfinish, ?_, ?_, ?_⟩, ?_⟩
  · rw [hu]
    exact Function.update_self (Role.aliveToken, 0) Pc.lock s.pc
  · rw [hu]
  · rw [hu]
    exact h.strandAlive
  · rw [hu]
    exact h.length

/-- No constant bounds the nesting for every backlog. -/
theorem discards_nest : ¬ ∃ c, ∀ s j, Releasing s j → NestsAtMost c s j := by
  rintro ⟨c, hc⟩
  obtain ⟨s, hs⟩ := exists_backlog c
  obtain ⟨t, ht, hlen⟩ := releasing_of_backlog hs
  obtain ⟨moves, u, hu, hpushed, hdeep⟩ := deepest_stack ht
  have hle := hc t 0 ht u moves hu hpushed
  omega

end Backlog
end CrisCore.Strand.Nesting
