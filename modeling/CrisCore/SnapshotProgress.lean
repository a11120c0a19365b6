import CrisCore.SnapshotHandshake

/-! An awaited job that can still run does run if the threads take their turns: the strand comes
to it, a worker picks it up, its flag is set. -/
namespace CrisCore.RecorderThreads
open Strand (JobId)
variable {s : State} {op : Op} {j : JobId} {w v : ℕ}

theorem strandAction_plain (he : Enabled s op) {a : Strand.Action}
    (h : s.strandAction op = some a) : a.plain = true := by
  cases op <;> simp only [State.strandAction, Option.some.injEq, reduceCtorEq] at h
  case strand b =>
    subst h
    have hi := he.1
    cases b <;> first | rfl | cases hi
  case addSnapshotJob | addRecordJob | leaveRunner | leaveStop | releaseRunner =>
    split_ifs at h
    cases h
    rfl
  all_goals
    subst h
    rfl

/-- Whoever is under way can go on: the strand in its plain use, jobs and workers in step. -/
structure Live (s : State) : Prop where
  plain : Strand.Plain s.strand
  executed : ∀ j, s.strand.phase j = .running → ∃ w, s.worker w = .executing j
  begun : ∀ w j, s.worker w = .executing j → s.progress j ≠ .notStarted
  released : ∀ w j, s.worker w = .releasing j → s.strand.phase j = .finished
  adding : ∀ j, s.call j = .adding → s.strand.pc (.addJob, j) ≠ .idle

theorem live_init (h : Init s) : Live s where
  plain := h.strand ▸ Strand.plain_initial
  executed j hj := by
    rw [h.strand] at hj
    cases hj
  begun w j hw := nomatch (h.running w).2.symm.trans hw
  released w j hw := nomatch (h.running w).2.symm.trans hw
  adding j hj := nomatch (h.noJobs j).1.symm.trans hj

/-- A worker leaves the body of a job at its end. -/
theorem finishJob_of_turn (he : Enabled s op) {p : WorkerPc} (h : s.turn op = some (w, p))
    (hw : s.worker w = .executing j) : op = .finishJob w j := by
  cases op <;> simp only [State.turn, Option.some.injEq, Prod.mk.injEq, reduceCtorEq] at h <;>
    obtain ⟨rfl, -⟩ := h <;> simp only [Enabled, hw, reduceCtorEq, false_and, and_false,
      or_self] at he
  obtain ⟨-, hk, -⟩ := he
  cases hk
  rfl

theorem finishJob_of_releasing (h : s.turn op = some (w, .releasing j)) :
    op = .finishJob w j := by
  cases op <;> simp only [State.turn, Option.some.injEq, Prod.mk.injEq, reduceCtorEq,
    and_false] at h
  case finishJob v k =>
    obtain ⟨rfl, hk⟩ := h
    cases hk
    rfl
  all_goals
    have h := h.2
    split_ifs at h

theorem live_step (he : Enabled s op) (h : Inv s) (hl : Live s) : Live (next s op) := by
  constructor
  case plain =>
    exact strand_invariant he hl.plain fun a hact ha =>
      Strand.plain_step ha h.coherent (strandAction_plain he hact) hl.plain
  case executed =>
    intro j hj
    -- a running job keeps its worker until `finishJob`
    have hold (hph : s.strand.phase j = .running) : ∃ w, (next s op).worker w = .executing j := by
      obtain ⟨w, hw⟩ := hl.executed j hph
      rcases worker_next s op w with hn | hn
      · exact ⟨w, hn.trans hw⟩
      · have hop := finishJob_of_turn he hn hw
        subst hop
        cases (phase_finishJob s w j).symm.trans hj
    have hp := phase_next he h.coherent j
    generalize hq : (next s op).strand.phase j = q at hp
    rw [hq] at hj
    cases hp with
    | stay => exact hold hj
    | internal a q hint =>
      subst hj
      generalize hph : s.strand.phase j = p at hint
      cases hint
      exact hold hph
    | start w queue =>
      exact ⟨w, by simp [next, State.setProgress, State.setWorker, State.act]⟩
    | finish | discardQueued => cases hj
  case begun =>
    intro w j hw
    rcases executing_next hw with ⟨hw, -⟩ | ⟨queue, rfl⟩
    · have hbegun := hl.begun w j hw
      rcases progress_next s op j with hp | ⟨v, queue, -, hp⟩ | ⟨v, -, hp⟩ <;> rw [hp]
      · exact hbegun
      · exact JobPc.first_ne_notStarted _ _
      · exact JobPc.next_ne_notStarted hbegun _
    · simp only [next, State.setProgress, Function.update_self]
      exact JobPc.first_ne_notStarted _ _
  case released =>
    intro w j hw
    -- nothing moves a finished job
    have hold (hph : s.strand.phase j = .finished) : (next s op).strand.phase j = .finished := by
      have hp := phase_next he h.coherent j
      generalize (next s op).strand.phase j = q at hp
      cases hp with
      | stay => exact hph
      | internal a q hint =>
        rw [hph] at hint
        cases hint
        rfl
      | start v queue => cases hph.symm.trans (h.queued_of_pickUp he)
      | finish => rfl
      | discardQueued queue =>
        cases hph.symm.trans (Strand.phase_of_head h.coherent he.2.2)
    rcases worker_next s op w with hn | hn
    · exact hold (hl.released w j (hn ▸ hw))
    · rw [hw] at hn
      have hop := finishJob_of_releasing hn
      subst hop
      exact phase_finishJob s w j
  case adding =>
    intro j hj
    -- and nothing takes a call of `AddJob` back to its start
    have hold (hadd : s.call j = .adding) : (next s op).strand.pc (.addJob, j) ≠ .idle :=
      strand_invariant (P := fun t => t.pc (.addJob, j) ≠ .idle) he (hl.adding j hadd)
        fun a hact ha =>
          Strand.started_pc_next ha h.coherent (strandAction_plain he hact) hl.plain
            (hl.adding j hadd)
    have hc := call_next he j
    generalize hp : (next s op).call j = p at hc
    rw [hp] at hj
    cases hc with
    | stay => exact hold hj
    | wake | returnAddJob => cases hj
    | addSnapshotJob own =>
      split_ifs at hj with halive
      simp [next, State.addJobToRunner_eq, halive, Strand.next, Strand.State.setPc]
    | addRecordJob file =>
      split_ifs at hj with halive
      simp [next, State.addJobToRunner_eq, halive, Strand.next, Strand.State.setPc]
    | leaveRunner | testPredicate => split_ifs at hj

/-- In some continuation of the run the flag of the call is set. -/
def FlagReachable (s : State) (j : JobId) : Prop :=
  ∃ ops t, system.exec s ops = some t ∧ t.generated j = true

theorem FlagReachable.of_exec {t : State} {ops : List Op} (he : system.exec s ops = some t)
    (h : FlagReachable t j) : FlagReachable s j := by
  obtain ⟨ops', u, hu, hg⟩ := h
  exact ⟨ops ++ ops', u, (system.exec_append_some he ops').trans hu, hg⟩

theorem exec_step (he : Enabled s op) : system.exec s [op] = some (next s op) := by
  simp [step_eq_some.mpr ⟨he, rfl⟩]

/-- A call that waits in a state the code can reach. -/
structure Attended (s : State) (j : JobId) : Prop where
  inv : Inv s
  live : Live s
  awaited : Awaited s j

/-- The runner exists and was not stopped. -/
def Served (s : State) : Prop :=
  s.strand.runnerAlive = true ∧ ∃ w, Serving s w

/-- Neither a stop, nor the end of the runner, nor a step that ends the wait for `j`. -/
def Op.peaceful (j : JobId) (op : Op) : Bool :=
  op.leavesFlags && !op.dropsRunner && op != .testPredicate j

theorem Attended.next (hg : Attended s j) (he : Enabled s op)
    (hset : ∀ w, op = .jobStep w j → s.progress j ≠ .setFlag) (htest : op ≠ .testPredicate j) :
    Attended (RecorderThreads.next s op) j :=
  ⟨inv_step he hg.inv, live_step he hg.inv hg.live, hg.awaited.next he hset htest⟩

theorem Served.next (h : Served s) (he : Enabled s op) (hflags : op.leavesFlags = true)
    (hdrop : op.dropsRunner = false) : Served (RecorderThreads.next s op) := by
  obtain ⟨halive, w, hlt, hw⟩ := h
  refine ⟨?_, w, ?_, (shutdown_of_leavesFlags hflags).trans hw⟩
  · rw [runnerAlive_next he, halive, hdrop]
    rfl
  · rwa [threadNum_next]

/-- A job of `GenerateSnapshot` that runs comes to its flag. -/
theorem flagReachable_of_running (hg : Attended s j) (hrun : s.strand.phase j = .running) :
    FlagReachable s j := by
  obtain ⟨w, hw⟩ := hg.live.executed j hrun
  have hen {t : State} (ht : Attended t j) (hw : t.worker w = .executing j)
      (hp : t.progress j ≠ .ended) : Enabled t (.jobStep w j) :=
    ⟨ht.inv.bound w j hw, hw, hp⟩
  have hflag (t : State) (ht : Attended t j) (hw : t.worker w = .executing j)
      (hp : t.progress j = .setFlag) : FlagReachable t j :=
    ⟨_, _, exec_step (hen ht hw (by simp [hp])), by simp [next, State.advance_eq, hp]⟩
  have hgenerate (t : State) (ht : Attended t j) (hw : t.worker w = .executing j)
      (hp : t.progress j = .generate) : FlagReachable t j := by
    have he := hen ht hw (by simp [hp])
    refine .of_exec (exec_step he) (hflag _ (ht.next he (by simp [hp]) (by simp)) ?_ ?_) <;>
      simp [next, State.advance_eq, hw, hp, JobPc.next]
  cases hp : s.progress j with
  | notStarted => exact absurd hp (hg.live.begun w j hw)
  | preStart =>
    have he := hen hg hw (by simp [hp])
    refine .of_exec (exec_step he) (hgenerate _ (hg.next he (by simp [hp]) (by simp)) ?_ ?_) <;>
      simp [next, State.advance_eq, hw, hp, JobPc.next]
  | generate => exact hgenerate s hg hw hp
  | setFlag => exact hflag s hg hw hp
  | write => exact absurd hg.awaited.file (hg.inv.write j hp)
  | notifyAll | postFinish | ended =>
    have hset := hg.inv.generated j hg.awaited.file (by simp [JobPc.PastFlag, hp])
    cases hg.awaited.unset.symm.trans hset

/-- A way from one state to another on which the call keeps waiting, the strand neither takes a
job nor a lock, and the runner keeps serving. -/
structure Leads (s t : State) (j : JobId) : Prop where
  exec : ∃ ops, system.exec s ops = some t
  attended : Attended t j
  served : Served s → Served t
  pending : t.strand.pendingJobs = s.strand.pendingJobs
  unlocked : s.strand.locked = false → t.strand.locked = false

theorem Leads.refl (hg : Attended s j) : Leads s s j :=
  ⟨⟨[], rfl⟩, hg, id, rfl, id⟩

theorem Leads.step {t : State} (h : Leads s t j) (he : Enabled t op)
    (hset : ∀ w, op ≠ .jobStep w j) (hop : op.peaceful j = true)
    (hpending : (next t op).strand.pendingJobs = t.strand.pendingJobs)
    (hlock : t.strand.locked = false → (next t op).strand.locked = false) :
    Leads s (next t op) j := by
  simp only [Op.peaceful, Bool.and_eq_true, Bool.not_eq_true', bne_iff_ne] at hop
  obtain ⟨ops, hops⟩ := h.exec
  exact ⟨⟨ops ++ [op], (system.exec_append_some hops _).trans (exec_step he)⟩,
    h.attended.next he (fun w hw => absurd hw (hset w)) hop.2,
    fun hs => (h.served hs).next he hop.1.1 hop.1.2, hpending.trans h.pending,
    fun hl => hlock (h.unlocked hl)⟩

theorem Leads.flagReachable {t : State} (h : Leads s t j) (ht : FlagReachable t j) :
    FlagReachable s j := by
  obtain ⟨ops, hops⟩ := h.exec
  exact ht.of_exec hops

theorem head_of_queued (h : Inv s) {k : JobId} (hq : s.strand.phase k = .queued v) :
    (s.strand.jobQueue v).head? = some k := by
  have hmem := (h.coherent.place.mem_queue v k).mpr hq
  cases hqueue : s.strand.jobQueue v with
  | nil => simp [hqueue] at hmem
  | cons i rest =>
    have hi : s.strand.phase i = .queued v :=
      (h.coherent.place.mem_queue v i).mp (by simp [hqueue])
    rw [List.head?_cons, h.queued_unique hi hq]

/-- While a job waits for a worker, no release is about to give the strand another. -/
theorem released_of_queued (h : Inv s) (hl : Live s) {i k : JobId}
    (hq : s.strand.phase k = .queued v) (hw : s.worker w = .releasing i) :
    s.strand.pc (.aliveToken, i) = .idle ∨ s.strand.pc (.aliveToken, i) = .done ∨
      s.strand.pc (.aliveToken, i) = .unlock none := by
  obtain ⟨hc, b, hb⟩ := Strand.reachable_refines h.strand
  have hk := Strand.active_of_waiting hc (Or.inl ⟨v, hq⟩)
  -- two jobs would be active at once
  have hpopped {a : Strand.Activation} {n : JobId} (ha : (s.strand.pc a).carried = some n) :
      False := by
    have hn := (hc.place.carried a n).mp ha
    have hnk := hb.active_unique (Strand.active_of_waiting hc (Or.inr ⟨a, hn⟩)) hk
    rw [hnk, hq] at hn
    cases hn
  -- as would the released one, had it not decided
  have hnot : Strand.Decided s.strand i := by
    by_contra hd
    have hfin := hl.released w i hw
    have hik := hb.active_unique ⟨by rw [hfin]; rfl, hd⟩ hk
    rw [hik, hq] at hfin
    cases hfin
  have hrel := (Strand.reachable_recorded h.strand).releases i
  simp only [Strand.Decided] at hnot
  cases hp : s.strand.pc (.aliveToken, i) <;> rw [hp] at hnot hrel <;>
    simp only [Strand.Pc.turn, Strand.Turn.decided, Bool.false_eq_true] at hnot
  -- the places behind the decision that carry a job are out
  case storeReady n =>
    have hn := hb.store _ n (by rw [hp]; rfl)
    have hcar : (s.strand.pc (.aliveToken, i)).carried = some k := by
      rw [hp, Strand.Pc.carried, ← hn, (hb.holder k).mp hk]
    exact (hpopped hcar).elim
  case unlock n =>
    cases n with
    | none => exact Or.inr (Or.inr rfl)
    | some n => exact (hpopped (by rw [hp]; rfl)).elim
  case pushToRunner n => exact (hpopped (by rw [hp]; rfl)).elim
  case done => exact Or.inr (Or.inl rfl)
  case returned => cases hrel

/-- A worker that will look into a queue comes to the job in it. -/
theorem leads_to_pickUp (hg : Attended s j) {k : JobId} (hq : s.strand.phase k = .queued v)
    (ht : Takes s w v) :
    ∃ t, Leads s t j ∧ t.strand.phase k = .queued v ∧ Enabled t (.pickUp w v k) := by
  -- from the end of the way back: at the queue, before it, at the test of the flag, elsewhere
  have hpick (t : State) (hlead : Leads s t j) (hq : t.strand.phase k = .queued v)
      (hlt : w < t.threadNum)
      (hw : t.worker w = .polling ∧ v = w ∨ t.worker w = .stealing) :
      ∃ t, Leads s t j ∧ t.strand.phase k = .queued v ∧ Enabled t (.pickUp w v k) :=
    ⟨t, hlead, hq, hlt, hw, head_of_queued hlead.attended.inv hq⟩
  have hpoll (t : State) (hlead : Leads s t j) (hq : t.strand.phase k = .queued v)
      (hlt : w < t.threadNum) (hw : t.worker w = .polling)
      (hv : w = v ∨ t.readyForStealing = true) :
      ∃ t, Leads s t j ∧ t.strand.phase k = .queued v ∧ Enabled t (.pickUp w v k) := by
    rcases hv with hv | hv
    · exact hpick t hlead hq hlt (Or.inl ⟨hw, hv.symm⟩)
    · have he : Enabled t (.findNothing w) := ⟨hlt, Or.inl hw⟩
      refine hpick _ (hlead.step he (by simp) rfl rfl id) hq hlt (Or.inr ?_)
      simp [next, State.setWorker, hw, hv]
  have htest (t : State) (hlead : Leads s t j) (hq : t.strand.phase k = .queued v)
      (hlt : w < t.threadNum) (hw : t.worker w = .test) (hs : t.shutdown w = false)
      (hv : w = v ∨ t.readyForStealing = true) :
      ∃ t, Leads s t j ∧ t.strand.phase k = .queued v ∧ Enabled t (.pickUp w v k) := by
    have he : Enabled t (.testShutdown w) := ⟨hlt, hw⟩
    refine hpoll _ (hlead.step he (by simp) rfl rfl id) hq hlt ?_ hv
    simp [next, State.setWorker, hs]
  have hback (op : Op) (t : State) (hlead : Leads s t j) (he : Enabled t op) (hset : ∀ w, op ≠ .jobStep w j)
      (hop : op.peaceful j = true) (hn : next t op = t.setWorker w .test)
      (hq : t.strand.phase k = .queued v)
      (hlt : w < t.threadNum) (hs : t.shutdown w = false)
      (hv : w = v ∨ t.readyForStealing = true) :
      ∃ t, Leads s t j ∧ t.strand.phase k = .queued v ∧ Enabled t (.pickUp w v k) := by
    have hlead' := hlead.step he hset hop (by rw [hn]; rfl) (by rw [hn]; exact id)
    rw [hn] at hlead'
    exact htest _ hlead' hq hlt (Function.update_self ..) hs hv
  have hself := Leads.refl hg
  rcases ht.2 with hw | ⟨hw | hs, hv⟩
  · exact hpick s hself hq ht.1 (Or.inr hw)
  · exact hpoll s hself hq ht.1 hw hv
  cases hw : s.worker w with
  | test => exact htest s hself hq ht.1 hw hs hv
  | polling => exact hpoll s hself hq ht.1 hw hv
  | stealing => exact hpick s hself hq ht.1 (Or.inr hw)
  | idle => exact hback (.leaveIdle w) s hself ⟨ht.1, hw⟩ (by simp) rfl rfl hq ht.1 hs hv
  | busy => exact hback (.finishOther w) s hself ⟨ht.1, hw⟩ (by simp) rfl rfl hq ht.1 hs hv
  | exited => cases hs.symm.trans (hg.inv.exited w hw)
  -- the job on the worker would be active beside the one that waits
  | executing i =>
    have hrun := hg.inv.executing w i hw
    obtain ⟨hc, b, hb⟩ := Strand.reachable_refines hg.inv.strand
    have hi := (Strand.active_of_running hc hrun).resolve_right fun hover =>
      by cases hover.1.symm.trans (hg.live.plain.unshared i).2
    have hik := hb.active_unique hi (Strand.active_of_waiting hc (Or.inl ⟨v, hq⟩))
    rw [hik, hq] at hrun
    cases hrun
  | releasing i =>
    rcases released_of_queued hg.inv hg.live hq hw with hp | hp | hp
    · exact hback (.finishRelease w i) s hself ⟨ht.1, hw, Or.inl hp⟩ (by simp) rfl rfl hq ht.1
        hs hv
    · exact hback (.finishRelease w i) s hself ⟨ht.1, hw, Or.inr hp⟩ (by simp) rfl rfl hq ht.1
        hs hv
    · have he : Enabled s (.strand (.unlock (.aliveToken, i) none)) := ⟨rfl, hp⟩
      have hlead := hself.step he (by simp) rfl rfl fun _ => rfl
      refine hback (.finishRelease w i) _ hlead ⟨ht.1, hw, Or.inr ?_⟩ (by simp) rfl rfl hq ht.1
        hs hv
      simp [next, State.act, Strand.next, Strand.State.setPc]

theorem flagReachable_of_queued (hg : Attended s j) (hq : s.strand.phase j = .queued v)
    (ht : Takes s w v) : FlagReachable s j := by
  obtain ⟨t, hlead, -, he⟩ := leads_to_pickUp hg hq ht
  have hlead := hlead.step he nofun rfl rfl id
  exact hlead.flagReachable (flagReachable_of_running hlead.attended (phase_pickUp t w v j))

/-- A popped job comes to a queue of a runner that serves. -/
theorem flagReachable_of_popped (hg : Attended s j) (hs : Served s) {a : Strand.Activation}
    (hp : s.strand.phase j = .popped a) : FlagReachable s j := by
  -- whoever popped it pushes it to a worker that serves
  have hpush (t : State) (hg : Attended t j) (hs : Served t)
      (ha : t.strand.pc a = .pushToRunner j) : FlagReachable t j := by
    obtain ⟨halive, w, hw⟩ := hs
    have he : Enabled t (.strand (.pushToRunner a j w)) := ⟨by simpa [isInternal] using hw.1, ha⟩
    have hq : (next t (.strand (.pushToRunner a j w))).strand.phase j = .queued w := by
      simp [next, State.act, Strand.next, halive, Strand.State.setPhase]
    have ht : Takes (next t (.strand (.pushToRunner a j w))) w w :=
      ⟨by simpa [threadNum_next] using hw.1,
        Or.inr ⟨Or.inr ((shutdown_of_leavesFlags rfl).trans hw.2), Or.inl rfl⟩⟩
    exact .of_exec (exec_step he) (flagReachable_of_queued (hg.next he (by simp) (by simp)) hq ht)
  have hunlock (t : State) (hg : Attended t j) (hs : Served t)
      (ha : t.strand.pc a = .unlock (some j)) : FlagReachable t j := by
    have he : Enabled t (.strand (.unlock a (some j))) := ⟨rfl, ha⟩
    refine .of_exec (exec_step he) (hpush _ (hg.next he (by simp) (by simp))
      (hs.next he rfl rfl) ?_)
    simp [next, State.act, Strand.next, Strand.State.setPc]
  -- where it is carried
  have hcar := (hg.inv.coherent.place.carried a j).mpr hp
  cases ha : s.strand.pc a <;> simp only [ha, Strand.Pc.carried, Option.some.injEq,
    reduceCtorEq] at hcar
  case storeReady n =>
    subst hcar
    have he : Enabled s (.strand (.storeReady a (some j))) := ⟨rfl, ha⟩
    refine .of_exec (exec_step he) (hunlock _ (hg.next he (by simp) (by simp))
      (hs.next he rfl rfl) ?_)
    simp [next, State.act, Strand.next, Strand.State.setPc]
  case unlock n =>
    subst hcar
    exact hunlock s hg hs ha
  case pushToRunner n =>
    subst hcar
    exact hpush s hg hs ha

/-- Steps left in the body of a job. -/
def JobPc.left : JobPc → ℕ
  | .notStarted | .preStart => 6
  | .generate => 5
  | .setFlag => 4
  | .notifyAll => 3
  | .postFinish | .write => 2
  | .ended => 0

theorem JobPc.left_next {p : JobPc} (hp : p ≠ .notStarted) (hend : p ≠ .ended)
    (postFinish : Bool) : (p.next postFinish).left < p.left := by
  cases p <;> cases postFinish <;> simp_all [JobPc.next, JobPc.left]

/-- The body of another job ends. -/
theorem leads_to_end (hg : Attended s j) {k : JobId} (hk : k ≠ j) {t : State}
    (hlead : Leads s t j) (hw : t.worker w = .executing k) :
    ∃ u, Leads s u j ∧ u.strand = t.strand ∧ u.worker w = .executing k ∧
      u.progress k = .ended := by
  by_cases hend : t.progress k = .ended
  · exact ⟨t, hlead, rfl, hw, hend⟩
  have he : Enabled t (.jobStep w k) := ⟨hlead.attended.inv.bound w k hw, hw, hend⟩
  have hstrand : (next t (.jobStep w k)).strand = t.strand := by
    simp only [next, State.advance_eq]
  have hdec : ((next t (.jobStep w k)).progress k).left < (t.progress k).left := by
    have hleft := JobPc.left_next (hlead.attended.live.begun w k hw) hend t.postFinish
    simpa [next, State.advance_eq] using hleft
  have hset (v : ℕ) : Op.jobStep w k ≠ .jobStep v j := fun hop => hk (by cases hop; rfl)
  obtain ⟨u, hu, hus, huw, hup⟩ := leads_to_end hg hk
    (hlead.step he hset rfl (by rw [hstrand]) (by rw [hstrand]; exact id))
    (by simpa [next, State.advance_eq] using hw)
  exact ⟨u, hu, hus.trans hstrand, huw, hup⟩
termination_by (t.progress k).left

/-- Another job that runs comes to the release of its token. -/
theorem leads_to_release (hg : Attended s j) {k : JobId} (hk : k ≠ j)
    (hrun : s.strand.phase k = .running) :
    ∃ t, Leads s t j ∧ t.strand.pc (.aliveToken, k) = .lock := by
  obtain ⟨w, hw⟩ := hg.live.executed k hrun
  obtain ⟨t, hlead, hstrand, hw, hend⟩ := leads_to_end hg hk (.refl hg) hw
  have hlt := hlead.attended.inv.bound w k hw
  have he : Enabled t (.finishJob w k) := ⟨hlt, hw, hend, by rw [hstrand]; exact hrun⟩
  have hunshared := hlead.attended.live.plain.unshared k
  have hown : t.strand.ownsToken k = true := by
    have hok := hlead.attended.inv.coherent.job k
    rw [← hstrand] at hrun
    simp only [Strand.JobOk, Strand.State.view, hrun] at hok
    by_contra ho
    cases hunshared.2.symm.trans (hok.2.1 (by simpa using ho))
  refine ⟨_, hlead.step he (by simp) rfl ?_ ?_, ?_⟩
  · simp only [next, State.act, State.setWorker, Strand.next, Strand.State.destroyJob_eq]
  · simp only [next, State.act, State.setWorker, Strand.next, Strand.State.destroyJob_eq]
    exact id
  · simp [next, State.act, State.setWorker, Strand.next, Strand.State.destroyJob_eq,
      hlead.attended.live.plain.alive, hown, hunshared.1]

section Pending

-- What is known of the states that are about to pop the head of `pending`.
variable {pending : List JobId}
  (hpop : ∀ t a, Attended t j → Served t → t.strand.pendingJobs = pending →
    t.strand.pc a = .consumeOne → FlagReachable t j)
include hpop

theorem flagReachable_of_lock (hg : Attended s j) (hs : Served s)
    (hp : s.strand.pendingJobs = pending) (hl : s.strand.locked = false) {a : Strand.Activation}
    (ha : s.strand.pc a = .lock) (hnext : a.1.isInRunningJob = true ∨ s.strand.hasReadyJob = false) :
    FlagReachable s j := by
  have he : Enabled s (.strand (.lock a)) := ⟨rfl, ha, hl⟩
  refine .of_exec (exec_step he) ?_
  have hg' := hg.next he (by simp) (by simp)
  have hs' := hs.next he rfl rfl
  have ha' : (next s (.strand (.lock a))).strand.pc a = .testReady := by
    simp [next, State.act, Strand.next, Strand.State.setPc]
  have he' : Enabled (next s (.strand (.lock a))) (.strand (.testReady a)) := ⟨rfl, ha'⟩
  -- the section is entered for good: a job is consumed
  have hnot : ¬ (!a.1.isInRunningJob && (next s (.strand (.lock a))).strand.hasReadyJob) = true := by
    rcases hnext with h | h
    · simp [h]
    · simp [next, State.act, Strand.next, Strand.State.setPc, h]
  have hn : (next (next s (.strand (.lock a))) (.strand (.testReady a))).strand =
      (next s (.strand (.lock a))).strand.setPc a .consumeOne := if_neg hnot
  refine .of_exec (exec_step he') (hpop _ a (hg'.next he' (by simp) (by simp))
    (hs'.next he' rfl rfl) ?_ ?_)
  · rw [hn]
    exact hp
  · rw [hn]
    exact Function.update_self ..

theorem flagReachable_behind_running (hg : Attended s j) (hs : Served s)
    (hp : s.strand.pendingJobs = pending) (hl : s.strand.locked = false) {k : JobId} (hk : k ≠ j)
    (hrun : s.strand.phase k = .running) : FlagReachable s j := by
  obtain ⟨t, hlead, hlock⟩ := leads_to_release hg hk hrun
  exact hlead.flagReachable (flagReachable_of_lock hpop hlead.attended (hlead.served hs)
    (hlead.pending.trans hp) (hlead.unlocked hl) hlock (Or.inl rfl))

theorem flagReachable_behind_queued (hg : Attended s j) (hs : Served s)
    (hp : s.strand.pendingJobs = pending) (hl : s.strand.locked = false) {k : JobId} (hk : k ≠ j)
    (hq : s.strand.phase k = .queued v) : FlagReachable s j := by
  obtain ⟨halive, w, hlt, hw⟩ := hs
  have ht : Takes s w v := ⟨hlt, Or.inr ⟨Or.inr hw, Or.inr (hg.inv.stealing halive)⟩⟩
  obtain ⟨t, hlead, -, he⟩ := leads_to_pickUp hg hq ht
  have hlead := hlead.step he nofun rfl rfl id
  exact hlead.flagReachable (flagReachable_behind_running hpop hlead.attended
    (hlead.served ⟨halive, w, hlt, hw⟩) (hlead.pending.trans hp) (hlead.unlocked hl) hk
    (phase_pickUp t w v k))

theorem flagReachable_behind_popped (hg : Attended s j) (hs : Served s)
    (hp : s.strand.pendingJobs = pending) (hl : s.strand.locked = false) {k : JobId} (hk : k ≠ j)
    {a : Strand.Activation} (ha : s.strand.phase k = .popped a) : FlagReachable s j := by
  have hout := hg.inv.coherent.lock.outside hl a
  have hcar := (hg.inv.coherent.place.carried a k).mpr ha
  have hpc : s.strand.pc a = .pushToRunner k := by
    cases hpc : s.strand.pc a <;> rw [hpc] at hout hcar <;>
      simp_all [Strand.Pc.inSection, Strand.Pc.carried]
  obtain ⟨halive, w, hw⟩ := hs
  have he : Enabled s (.strand (.pushToRunner a k w)) := ⟨by simpa [isInternal] using hw.1, hpc⟩
  refine .of_exec (exec_step he) (flagReachable_behind_queued (v := w) hpop
    (hg.next he (by simp) (by simp)) (Served.next ⟨halive, w, hw⟩ he rfl rfl) ?_ ?_ hk ?_) <;>
    simp [next, State.act, Strand.next, halive, Strand.State.setPhase, Strand.State.setPc, hp, hl]

theorem flagReachable_behind_finished (hg : Attended s j) (hs : Served s)
    (hp : s.strand.pendingJobs = pending) (hl : s.strand.locked = false) {k : JobId}
    (hfin : s.strand.phase k = .finished) (hk : ¬ Strand.Decided s.strand k) :
    FlagReachable s j := by
  refine flagReachable_of_lock hpop hg hs hp hl (a := (.aliveToken, k)) ?_ (Or.inl rfl)
  have hrec := Strand.reachable_recorded hg.inv.strand
  have hok := hg.inv.coherent.job k
  simp only [Strand.JobOk, Strand.State.view, hfin] at hok
  have hteth := hrec.tethered hg.live.plain.alive k (Or.inr (Or.inl hfin))
  have hreleased : s.strand.pc (.aliveToken, k) ≠ .idle := by
    simpa [Strand.State.view, hok.2.1, (hg.live.plain.unshared k).1] using hteth
  have hout := hg.inv.coherent.lock.outside hl (.aliveToken, k)
  have hrel := hrec.releases k
  simp only [Strand.Decided] at hk
  cases hpc : s.strand.pc (.aliveToken, k) <;> rw [hpc] at hreleased hout hrel hk <;>
    simp_all [Strand.Pc.inSection, Strand.Pc.releases, Strand.Pc.turn, Strand.Turn.decided]

/-- With the lock free, the active job ends or the call itself decides. -/
theorem flagReachable_of_unlocked (hg : Attended s j) (hs : Served s)
    (hp : s.strand.pendingJobs = pending) (hl : s.strand.locked = false)
    (hj : s.strand.phase j = .pending) : FlagReachable s j := by
  obtain ⟨hc, b, hb⟩ := Strand.reachable_refines hg.inv.strand
  have hready := hb.ready_of_unlocked hc hl
  cases hh : b.holder with
  -- nobody holds the baton: the call itself is still to decide
  | none =>
    have hund := hb.undecided hh j ((hc.place.mem_pending j).mpr hj)
    have hok := hc.job j
    simp only [Strand.JobOk, Strand.State.view, hj] at hok
    have hout := hc.lock.outside hl (.addJob, j)
    refine flagReachable_of_lock hpop hg hs hp hl (a := (.addJob, j)) ?_
      (Or.inr (by rw [hready, hh]; rfl))
    have hstage := hok.1
    unfold Strand.Pc.stage at hstage
    split at hstage <;>
      simp_all [Strand.Pc.inSection, Strand.Pc.turn, Strand.Turn.decided]
  -- another job holds it: wherever it is, it comes to the release of its token
  | some k =>
    have hk : Strand.Active s.strand k := (hb.holder k).mpr hh
    have hkj : k ≠ j := by
      rintro rfl
      have hent := hk.1
      rw [hj] at hent
      cases hent
    cases hph : s.strand.phase k with
    | absent | pending | dropped =>
      have hent := hk.1
      rw [hph] at hent
      cases hent
    | claimed =>
      have hok := hc.job k
      simp only [Strand.JobOk, Strand.State.view, hph] at hok
      have hstage := hok.1
      have hplain := hg.live.plain.pc k
      unfold Strand.Pc.stage at hstage
      split at hstage <;> simp_all [Strand.Pc.plain]
    | popped a => exact flagReachable_behind_popped hpop hg hs hp hl hkj hph
    | queued v => exact flagReachable_behind_queued hpop hg hs hp hl hkj hph
    | running => exact flagReachable_behind_running hpop hg hs hp hl hkj hph
    | finished => exact flagReachable_behind_finished hpop hg hs hp hl hph hk.2
    | discarded =>
      have hrec := Strand.reachable_recorded hg.inv.strand
      exact absurd hph (hrec.noLoss.discarded hs.1 k)

/-- Whoever holds the lock pops the head or leaves the section. -/
theorem flagReachable_of_section (hg : Attended s j) (hs : Served s)
    (hp : s.strand.pendingJobs = pending) (hj : s.strand.phase j = .pending) :
    FlagReachable s j := by
  cases hl : s.strand.locked
  · exact flagReachable_of_unlocked hpop hg hs hp hl hj
  obtain ⟨a, ha⟩ := hg.live.plain.held hl
  -- outside the section again, with the job still pending
  have hunlock (t : State) (n : Option JobId) (hg : Attended t j) (hs : Served t)
      (hp : t.strand.pendingJobs = pending) (hj : t.strand.phase j = .pending)
      (ha : t.strand.pc a = .unlock n) : FlagReachable t j := by
    have he : Enabled t (.strand (.unlock a n)) := ⟨rfl, ha⟩
    refine .of_exec (exec_step he) (flagReachable_of_unlocked hpop (hg.next he (by simp) (by simp))
      (hs.next he rfl rfl) ?_ ?_ ?_) <;> cases n <;> first | exact hp | exact hj | rfl
  have hplain := hg.live.plain.pc
  have hrel := (Strand.reachable_recorded hg.inv.strand).releases
  cases hpc : s.strand.pc a <;> rw [hpc] at ha <;> simp only [Strand.Pc.inSection,
    Bool.false_eq_true] at ha
  -- at each place in the section, the way to `ConsumeOne` or out
  case testReady =>
    have he : Enabled s (.strand (.testReady a)) := ⟨rfl, hpc⟩
    have hg' := hg.next he (by simp) (by simp)
    have hs' := hs.next he rfl rfl
    refine .of_exec (exec_step he) ?_
    by_cases hr : (!a.1.isInRunningJob && s.strand.hasReadyJob) = true
    · have hn : (next s (.strand (.testReady a))).strand = s.strand.setPc a (.unlock none) :=
        if_pos hr
      exact hunlock _ none hg' hs' (by rw [hn]; exact hp) (by rw [hn]; exact hj)
        (by rw [hn]; exact Function.update_self ..)
    · have hn : (next s (.strand (.testReady a))).strand = s.strand.setPc a .consumeOne :=
        if_neg hr
      exact hpop _ a hg' hs' (by rw [hn]; exact hp) (by rw [hn]; exact Function.update_self ..)
  case consumeOne => exact hpop s a hg hs hp hpc
  case storeReady n =>
    have he : Enabled s (.strand (.storeReady a n)) := ⟨rfl, hpc⟩
    exact .of_exec (exec_step he) (hunlock _ n (hg.next he (by simp) (by simp))
      (hs.next he rfl rfl) hp hj
      (Function.update_self ..))
  case unlock n => exact hunlock s n hg hs hp hj hpc
  all_goals
    obtain ⟨role, i⟩ := a
    cases role
    · have hplain := hplain i
      rw [hpc] at hplain
      cases hplain
    · have hrel := hrel i
      rw [hpc] at hrel
      cases hrel

end Pending

/-- A pending job comes to the head of the strand's queue, and then to its flag. -/
theorem flagReachable_of_pending {s : State} (hg : Attended s j) (hs : Served s)
    (hj : s.strand.phase j = .pending) : FlagReachable s j := by
  have hmem : j ∈ s.strand.pendingJobs := (hg.inv.coherent.place.mem_pending j).mpr hj
  refine flagReachable_of_section (fun t a hg hs hp ha => ?_) hg hs rfl hj
  have he : Enabled t (.strand (.consumeOne a)) := ⟨rfl, ha⟩
  have hg' := hg.next he nofun nofun
  have hs' := hs.next he rfl rfl
  refine .of_exec (exec_step he) ?_
  have hjt : t.strand.phase j = .pending :=
    (hg.inv.coherent.place.mem_pending j).mp (by rwa [hp])
  cases hpend : s.strand.pendingJobs with
  | nil => simp [hpend] at hmem
  | cons k rest =>
    have hn : (next t (.strand (.consumeOne a))).strand =
        { (t.strand.setPc a (.storeReady (some k))).setPhase k (.popped a) with
          pendingJobs := rest } := by
      simp only [next, State.act, Strand.next, hp, hpend]
    -- popped itself, or one place further to the front
    by_cases hk : j = k
    · subst hk
      exact flagReachable_of_popped hg' hs' (a := a)
        (by rw [hn]; exact Function.update_self ..)
    · have hlt : rest.idxOf j < s.strand.pendingJobs.idxOf j := by
        rw [hpend, List.idxOf_cons_ne _ (Ne.symm hk)]
        exact Nat.lt_succ_self _
      apply flagReachable_of_pending hg' hs'
      rw [hn]
      exact (Function.update_of_ne hk _ _).trans hjt
termination_by s.strand.pendingJobs.idxOf j
decreasing_by
  rw [hn]
  exact hlt

/-- A job that can run does run in some continuation. -/
theorem flagReachable_of_canRun (hg : Attended s j) (hrun : CanRun s j) : FlagReachable s j := by
  cases hph : s.strand.phase j <;> simp only [CanRun, hph] at hrun
  case absent =>
    have hok := hg.inv.coherent.job j
    simp only [Strand.JobOk, Strand.State.view, hph] at hok
    have hpush : s.strand.pc (.addJob, j) = .push := by
      have hstage := hok.1
      have hplain := hg.live.plain.pc j
      have hadd := hg.live.adding j hrun.1
      unfold Strand.Pc.stage at hstage
      split at hstage <;> simp_all [Strand.Pc.plain]
    have he : Enabled s (.strand (.push j)) := ⟨rfl, hpush⟩
    exact .of_exec (exec_step he) (flagReachable_of_pending (hg.next he (by simp) (by simp))
      (Served.next hrun.2 he rfl rfl) (Function.update_self ..))
  case pending => exact flagReachable_of_pending hg hrun hph
  case popped a => exact flagReachable_of_popped hg hrun hph
  case queued v =>
    obtain ⟨w, hw⟩ := hrun
    exact flagReachable_of_queued hg hph hw
  case running => exact flagReachable_of_running hg hph

/-- A thread in the wait of `GenerateSnapshot` whose job can no longer set the flag. -/
def BlockedForever (s : State) (j : JobId) : Prop :=
  (s.call j = .testing ∨ s.call j = .asleep) ∧ s.file j = none ∧ ¬ FlagReachable s j

/-- Along every run the waiters of `GenerateSnapshot` stay served exactly if every step meets
`KeepsServing`, and then none of them is ever left in its wait. -/
theorem snapshot_handshake {s t : State} {ops : List Op} (h : Init s)
    (he : system.exec s ops = some t) :
    (system.StatesMeet NobodyStranded s ops ↔ system.StepsMeet KeepsServing s ops) ∧
      (system.StepsMeet KeepsServing s ops →
        system.StatesMeet (fun u => ∀ j, ¬ BlockedForever u j) s ops) := by
  have hiff : system.StatesMeet NobodyStranded s ops ↔ system.StepsMeet KeepsServing s ops := by
    refine TransitionSystem.statesMeet_iff_stepsMeet (I := Inv) (fun u op v hu hstep => ?_)
      (fun u op v hu hs hstep => ?_) (inv_init h) (nobodyStranded_init h) he
    · obtain ⟨hen, rfl⟩ := step_eq_some.mp hstep
      exact inv_step hen hu
    · obtain ⟨hen, rfl⟩ := step_eq_some.mp hstep
      exact nobodyStranded_next hen hu hs
  refine ⟨hiff, fun hk => ?_⟩
  -- the invariants along the run, and from them the way to the flag
  have hall := hk.statesMeet (P := fun u => Inv u ∧ Live u ∧ NobodyStranded u)
    ⟨inv_init h, live_init h, nobodyStranded_init h⟩ ?_
  · refine hall.mono fun u hu j hb => ?_
    obtain ⟨hinv, hlive, hserved⟩ := hu
    obtain ⟨hwait, hfile, hstuck⟩ := hb
    have hunset : u.generated j = false := by
      by_contra hg
      exact hstuck ⟨[], u, rfl, by simpa using hg⟩
    have hawait : Awaited u j := by
      rcases hwait with hcall | hcall <;>
        exact ⟨hfile, by simp [hcall], by simp [hcall], hunset⟩
    exact hstuck (flagReachable_of_canRun ⟨hinv, hlive, hawait⟩ (hserved j hawait))
  · rintro u op v ⟨hinv, hlive, hserved⟩ hc hstep
    obtain ⟨hen, rfl⟩ := step_eq_some.mp hstep
    exact ⟨inv_step hen hinv, live_step hen hinv hlive,
      (nobodyStranded_next hen hinv hserved).mpr hc⟩

/-- The runner is stopped while the snapshot job is in its queue. -/
def stopAfterEnqueueRun : List Op :=
  [.testSnapshotShutdown, .addSnapshotJob 0 true] ++ addJobSteps 0 ++ [.testPredicate 0] ++
    stopSteps false ++ [.testPredicate 0, .testShutdown 0]

theorem exec_stopAfterEnqueueRun : system.exec (newRecorder 1) stopAfterEnqueueRun =
    some (system.after (newRecorder 1) stopAfterEnqueueRun) :=
  system.exec_after (by decide)

theorem snapshot_handshake_stopAfterEnqueueRun :
    (system.StatesMeet NobodyStranded (newRecorder 1) stopAfterEnqueueRun ↔
        system.StepsMeet KeepsServing (newRecorder 1) stopAfterEnqueueRun) ∧
      (system.StepsMeet KeepsServing (newRecorder 1) stopAfterEnqueueRun →
        system.StatesMeet (fun u => ∀ j, ¬ BlockedForever u j) (newRecorder 1)
          stopAfterEnqueueRun) :=
  snapshot_handshake (init_newRecorder 1) exec_stopAfterEnqueueRun

/-- Without workers no flag is set. -/
theorem not_flagReachable_of_exited (hw : ∀ w < s.threadNum, s.worker w = .exited)
    (hunset : s.generated j = false) : ¬ FlagReachable s j := by
  rintro ⟨ops, t, he, hg⟩
  have hend : (∀ w < t.threadNum, t.worker w = .exited) ∧ t.generated j = false := by
    refine TransitionSystem.exec_induction
      (P := fun u => (∀ w < u.threadNum, u.worker w = .exited) ∧ u.generated j = false)
      ⟨hw, hunset⟩ ?_ he
    rintro u op v ⟨hexit, hunset⟩ hstep
    obtain ⟨hen, rfl⟩ := step_eq_some.mp hstep
    refine ⟨fun w hlt => exited_stays hen (hexit w (by rwa [threadNum_next] at hlt)), ?_⟩
    rcases generated_next u op j with hsame | ⟨w, rfl, -⟩
    · exact hsame.trans hunset
    · exact nomatch (hexit w hen.1).symm.trans hen.2.1
  exact nomatch hend.2.symm.trans hg

/-- `StopMainLoop` joins the snapshot thread, which waits for a job that no worker will take. -/
theorem stop_strands_snapshot :
    ∃ s, system.Reachable s ∧ BlockedForever s 0 ∧ s.snapshotThread = .inCall 0 ∧
      s.closer = .joining := by
  refine ⟨system.after (newRecorder 1) stopAfterEnqueueRun, .after (init_newRecorder 1) _,
    ⟨Or.inr (by decide), by decide, not_flagReachable_of_exited (by decide) (by decide)⟩,
    by decide, by decide⟩

end CrisCore.RecorderThreads
