import CrisCore.RecorderJobs

/-! The wait of `GenerateSnapshot`: which workers the job it waits for still has, and which steps
take the last of them away. -/
namespace CrisCore.RecorderThreads
open Strand (JobId)
variable {s : State} {op : Op} {j : JobId} {w v : ℕ}

/-- Nobody told worker `w` to stop. -/
def Serving (s : State) (w : ℕ) : Prop :=
  w < s.threadNum ∧ s.shutdown w = false

/-- Worker `w` will look once more into the queue of worker `v`: it searches it now, or it comes
to it from its own queue, or it is told to stop only after its next test of the flag. -/
def Takes (s : State) (w v : ℕ) : Prop :=
  w < s.threadNum ∧ (s.worker w = .stealing ∨
    ((s.worker w = .polling ∨ s.shutdown w = false) ∧ (w = v ∨ s.readyForStealing = true)))

/-- The job of a call may still run: it runs, or a worker will look into the queue that holds it,
or it comes to a queue of a runner that exists and was not stopped. -/
def CanRun (s : State) (j : JobId) : Prop :=
  match s.strand.phase j with
  | .absent => s.call j = .adding ∧ s.strand.runnerAlive = true ∧ ∃ w, Serving s w
  | .pending | .popped _ => s.strand.runnerAlive = true ∧ ∃ w, Serving s w
  | .queued v => ∃ w, Takes s w v
  | .running => True
  | _ => False

/-- A call of `GenerateSnapshot` that has not seen its flag set. -/
structure Awaited (s : State) (j : JobId) : Prop where
  file : s.file j = none
  called : s.call j ≠ .idle
  unreturned : s.call j ≠ .returned
  unset : s.generated j = false

def NobodyStranded (s : State) : Prop :=
  ∀ j, Awaited s j → CanRun s j

/-- On the way to the queues of the runner. -/
def Unqueued (s : State) (j : JobId) : Prop :=
  s.strand.phase j = .absent ∨ s.strand.phase j = .pending ∨ ∃ a, s.strand.phase j = .popped a

/-- Every awaited job in a queue has a worker that will look into it and meets `R`. -/
def Covered (s : State) (R : ℕ → ℕ → Prop) : Prop :=
  ∀ j v, Awaited s j → s.strand.phase j = .queued v → ∃ w, Takes s w v ∧ R w v

/-- What no step may do: ask for a snapshot without a runner that serves; let the runner expire
under a job on its way to it; stop the last worker that would take an awaited job, or keep it busy
elsewhere once it was told to stop; end the stealing an awaited job depends on. -/
def KeepsServing (s : State) : Op → Prop
  | .addSnapshotJob _ _ => s.strand.runnerAlive = true ∧ ∃ w, Serving s w
  | .leaveRunner _ | .leaveStop | .releaseRunner =>
    s.runnerRefs = 1 → ∀ j, Awaited s j → ¬ Unqueued s j
  | .stopStealing => Covered s fun w v => s.worker w = .stealing ∨ w = v
  | .stopWorker w | .stopNextWorker w =>
    (∀ j, Awaited s j → Unqueued s j → ∃ v, v ≠ w ∧ Serving s v) ∧
      Covered s fun v _ => v = w → s.worker w = .polling ∨ s.worker w = .stealing
  | .pickUpOther w =>
    Covered s fun v u => v = w → s.shutdown w = false ∧ (w = u ∨ s.readyForStealing = true)
  | .findNothing w =>
    Covered s fun v u => v = w → (s.worker w = .polling ∧ s.readyForStealing = true) ∨
      (s.shutdown w = false ∧ (w = u ∨ s.readyForStealing = true))
  | _ => True

/-- A step leaves a call awaited or begins one. -/
theorem awaited_next (he : Enabled s op) (h : Awaited (next s op) j) :
    Awaited s j ∨ ∃ own, op = .addSnapshotJob j own := by
  have hcalled := h.called
  have hunreturned := h.unreturned
  have hc := call_next he j
  generalize (next s op).call j = p at hc hcalled hunreturned
  rcases file_next s op j with hfile | ⟨own, rfl, -⟩ | ⟨file, -, hfile⟩
  · have hunset : s.generated j = false := by
      by_contra hg
      cases h.unset.symm.trans (generated_mono s op (by simpa using hg))
    have hcall : s.call j ≠ .idle ∧ s.call j ≠ .returned ∨ ∃ own, op = .addSnapshotJob j own := by
      cases hc with
      | stay => exact Or.inl ⟨hcalled, hunreturned⟩
      | wake _ hsleep => exact Or.inl (by simp [hsleep])
      | addSnapshotJob own => exact Or.inr ⟨own, rfl⟩
      | addRecordJob file =>
        have hsome : (next s (.addRecordJob j file)).file j = some file := by
          simp [next, State.addJobToRunner_eq]
        cases hsome.symm.trans h.file
      | returnAddJob => exact Or.inl (by simp [he.1])
      | leaveRunner | testPredicate =>
        simp only [Enabled] at he
        exact Or.inl (by simp [he])
    exact hcall.imp_left fun hcall => ⟨hfile ▸ h.file, hcall.1, hcall.2, hunset⟩
  · exact Or.inr ⟨own, rfl⟩
  · cases hfile.symm.trans h.file

/-- Two queued jobs of the record strand are one. -/
theorem Inv.queued_unique (h : Inv s) {k : JobId} (hj : s.strand.phase j = .queued v)
    (hk : s.strand.phase k = .queued w) : j = k := by
  obtain ⟨hc, b, hb⟩ := Strand.reachable_refines h.strand
  exact hb.active_unique (Strand.active_of_waiting hc (Or.inl ⟨v, hj⟩))
    (Strand.active_of_waiting hc (Or.inl ⟨w, hk⟩))

/-- A worker that is not at a queue will only look into one if nobody told it to stop. -/
theorem Takes.unstopped (h : Takes s w v) (hsteal : s.worker w ≠ .stealing)
    (hpoll : s.worker w ≠ .polling) :
    s.shutdown w = false ∧ (w = v ∨ s.readyForStealing = true) := by
  rcases h.2 with h | ⟨h | h, hv⟩
  · exact absurd h hsteal
  · exact absurd h hpoll
  · exact ⟨h, hv⟩

/-- Neither a stop nor the end of stealing. -/
def Op.leavesFlags : Op → Bool
  | .stopWorker _ | .stopNextWorker _ | .stopStealing => false
  | _ => true

theorem shutdown_of_leavesFlags (h : op.leavesFlags = true) :
    (next s op).shutdown w = s.shutdown w := by
  rcases shutdown_next s op w with hs | ⟨-, rfl | rfl⟩
  · exact hs
  all_goals cases h

theorem stealing_of_leavesFlags (h : op.leavesFlags = true) :
    (next s op).readyForStealing = s.readyForStealing := by
  rw [readyForStealing_next]
  have hop : op ≠ .stopStealing := by
    rintro rfl
    cases h
  simp [hop]

/-- A worker that moves keeps its queues if nobody told it to stop. -/
theorem Takes.next (h : Takes s w v) (hflags : op.leavesFlags = true)
    (hturn : ∀ p, s.turn op = some (w, p) →
      p = .stealing ∨ s.shutdown w = false ∧ (w = v ∨ s.readyForStealing = true)) :
    Takes (next s op) w v := by
  rw [Takes, threadNum_next, shutdown_of_leavesFlags hflags, stealing_of_leavesFlags hflags]
  refine ⟨h.1, ?_⟩
  rcases worker_next s op w with hw | hw
  · rw [hw]
    exact h.2
  · exact (hturn _ hw).imp_right fun hs => ⟨Or.inr hs.1, hs.2⟩

/-- An awaited job in a queue keeps a worker, or is picked up. -/
theorem takes_next (he : Enabled s op) (hk : KeepsServing s op) (ha : Awaited s j)
    (hq : s.strand.phase j = .queued v) (hpick : ∀ w queue, op ≠ .pickUp w queue j)
    (hw : ∃ w, Takes s w v) (h : Inv s) : ∃ w, Takes (RecorderThreads.next s op) w v := by
  obtain ⟨w, hw⟩ := hw
  have hother (u : ℕ) (hturn : ∀ p, s.turn op ≠ some (u, p)) (p : WorkerPc)
      (ht : s.turn op = some (u, p)) : p = .stealing ∨
      s.shutdown u = false ∧ (u = v ∨ s.readyForStealing = true) := absurd ht (hturn p)
  cases op
  -- the steps that can cost the job its worker: `KeepsServing` names another one
  case stopStealing =>
    obtain ⟨u, hu, hR⟩ := hk j v ha hq
    rcases hu.2 with hsteal | ⟨hlook, -⟩
    · exact ⟨u, hu.1, Or.inl hsteal⟩
    · exact ⟨u, hu.1, hR.imp id fun hR => ⟨hlook, Or.inl hR⟩⟩
  case stopWorker x | stopNextWorker x =>
    obtain ⟨u, hu, hR⟩ := hk.2 j v ha hq
    refine ⟨u, hu.1, ?_⟩
    by_cases hx : u = x
    · subst hx
      rcases hu.2 with hsteal | ⟨-, hv⟩
      · exact Or.inl hsteal
      · exact (hR rfl).symm.imp id fun hpoll => ⟨Or.inl hpoll, hv⟩
    · refine hu.2.imp id fun hlook => ⟨hlook.1.imp id fun hs => ?_, hlook.2⟩
      exact (Function.update_of_ne hx _ _).trans hs
  case pickUp x queue k =>
    refine absurd ?_ (hpick x queue)
    rw [h.queued_unique hq (h.queued_of_pickUp he)]
  case pickUpOther x =>
    obtain ⟨u, hu, hR⟩ := hk j v ha hq
    refine ⟨u, hu.next rfl fun p hp => ?_⟩
    cases hp
    exact Or.inr (hR rfl)
  case findNothing x =>
    obtain ⟨u, hu, hR⟩ := hk j v ha hq
    refine ⟨u, hu.next rfl fun p hp => ?_⟩
    cases hp
    rcases hR rfl with hR | hR
    · exact Or.inl (if_pos hR)
    · exact Or.inr hR
  -- the other turns of a worker that is not stopped lead back to its queue
  case testShutdown x | leaveIdle x =>
    refine ⟨w, hw.next rfl fun p hp => ?_⟩
    cases hp
    exact Or.inr (hw.unstopped (by simp [he.2]) (by simp [he.2]))
  case breakIdle x | finishJob x k | finishRelease x k =>
    refine ⟨w, hw.next rfl fun p hp => ?_⟩
    cases hp
    exact Or.inr (hw.unstopped (by simp [he.2.1]) (by simp [he.2.1]))
  case finishOther x =>
    refine ⟨w, hw.next rfl fun p hp => ?_⟩
    cases hp
    exact Or.inr (hw.unstopped (by simp [he.2]) (by simp [he.2]))
  all_goals exact ⟨w, hw.next rfl nofun⟩

theorem Unqueued.served (hu : Unqueued s j) (h : CanRun s j) :
    s.strand.runnerAlive = true ∧ ∃ w, Serving s w := by
  rcases hu with hu | hu | ⟨a, hu⟩ <;> simp only [CanRun, hu] at h
  · exact h.2
  · exact h
  · exact h

theorem serving_next (hk : KeepsServing s op) (ha : Awaited s j) (hu : Unqueued s j)
    (hw : ∃ w, Serving s w) : ∃ w, Serving (RecorderThreads.next s op) w := by
  have hkeep (w : ℕ) (hs : Serving s w) (hne : op ≠ .stopWorker w ∧ op ≠ .stopNextWorker w) :
      Serving (RecorderThreads.next s op) w := by
    refine ⟨(threadNum_next s op).symm ▸ hs.1, ?_⟩
    rcases shutdown_next s op w with hsh | ⟨-, hop | hop⟩
    · exact hsh.trans hs.2
    · exact absurd hop hne.1
    · exact absurd hop hne.2
  obtain ⟨w, hw⟩ := hw
  cases op
  case stopWorker x | stopNextWorker x =>
    obtain ⟨u, hux, hu⟩ := hk.1 j ha hu
    exact ⟨u, hkeep u hu (by simp [Ne.symm hux])⟩
  all_goals exact ⟨w, hkeep w hw (by simp)⟩

theorem alive_next (he : Enabled s op) (hk : KeepsServing s op) (ha : Awaited s j)
    (hu : Unqueued s j) (halive : s.strand.runnerAlive = true) :
    (RecorderThreads.next s op).strand.runnerAlive = true := by
  rw [runnerAlive_next he, halive, Bool.true_and, Bool.not_eq_true', Bool.and_eq_false_iff,
    beq_eq_false_iff_ne]
  cases op
  case leaveRunner | leaveStop | releaseRunner => exact Or.inr fun hrefs => hk hrefs j ha hu
  all_goals exact Or.inl rfl

/-- The call stays in `runner->AddJob` until its job is pushed. -/
theorem adding_next (he : Enabled s op) (hc : Strand.Coherent s.strand)
    (habs : s.strand.phase j = .absent) (hadd : s.call j = .adding) :
    (RecorderThreads.next s op).call j = .adding := by
  have hcall := call_next he j
  generalize (RecorderThreads.next s op).call j = p at hcall
  cases hcall with
  | stay => exact hadd
  | wake _ hsleep => cases hsleep.symm.trans hadd
  | addSnapshotJob | addRecordJob => cases he.1.symm.trans hadd
  | leaveRunner | testPredicate => cases hadd.symm.trans he
  | returnAddJob =>
    have hok := hc.job j
    simp only [Strand.JobOk, Strand.State.view, habs] at hok
    rcases he.2 with hp | ⟨hp, -⟩ <;> rw [hp] at hok <;> cases hok.1

/-- A step that keeps serving strands no job it finds awaited. -/
theorem canRun_next (he : Enabled s op) (h : Inv s) (hk : KeepsServing s op) (ha : Awaited s j)
    (hrun : CanRun s j) : CanRun (RecorderThreads.next s op) j := by
  have hserved (hu : Unqueued s j) : (RecorderThreads.next s op).strand.runnerAlive = true ∧
      ∃ w, Serving (RecorderThreads.next s op) w :=
    ⟨alive_next he hk ha hu (hu.served hrun).1, serving_next hk ha hu (hu.served hrun).2⟩
  have hstay (hp : (RecorderThreads.next s op).strand.phase j = s.strand.phase j) :
      CanRun (RecorderThreads.next s op) j := by
    simp only [CanRun] at hrun ⊢
    cases hph : s.strand.phase j <;> simp only [hp, hph] at hrun ⊢
    case absent => exact ⟨adding_next he h.coherent hph hrun.1, hserved (Or.inl hph)⟩
    case pending => exact hserved (Or.inr (Or.inl hph))
    case popped a => exact hserved (Or.inr (Or.inr ⟨a, hph⟩))
    case queued v =>
      refine takes_next he hk ha hph (fun w queue hop => ?_) hrun h
      subst hop
      rw [phase_pickUp, hph] at hp
      cases hp
  have hp := phase_next he h.coherent j
  generalize hq : (RecorderThreads.next s op).strand.phase j = q at hp
  cases hp with
  | stay => exact hstay hq
  | start w queue =>
    simp only [CanRun, hq]
  -- a job ends behind its flag, so nobody waits for it
  | finish w =>
    have hgen := h.generated j ha.file (Or.inr (Or.inr he.2.2.1))
    exact nomatch ha.unset.symm.trans hgen
  -- queues are destroyed when all workers have left, one of which would have served
  | discardQueued queue =>
    have hph : s.strand.phase j = .queued queue := Strand.phase_of_head h.coherent he.2.2
    simp only [CanRun, hph] at hrun
    obtain ⟨w, hw⟩ := hrun
    have hexit := he.1 w hw.1
    have hstop := (hw.unstopped (by simp [hexit]) (by simp [hexit])).1
    exact nomatch hstop.symm.trans (h.exited w hexit)
  | internal a q hint =>
    generalize hph : s.strand.phase j = p at hint
    cases hint with
    | stay => exact hstay (hq.trans hph.symm)
    | push =>
      simp only [CanRun, hq]
      exact hserved (Or.inl hph)
    | pop b =>
      simp only [CanRun, hq]
      exact hserved (Or.inr (Or.inl hph))
    | hand b v halive =>
      obtain ⟨halive, w, hw⟩ := hserved (Or.inr (Or.inr ⟨b, hph⟩))
      simp only [CanRun, hq]
      exact ⟨w, hw.1, Or.inr ⟨Or.inr hw.2, Or.inr ((inv_step he h).stealing halive)⟩⟩
    | discard b hdead =>
      have halive := (Unqueued.served (Or.inr (Or.inr ⟨b, hph⟩)) hrun).1
      exact nomatch hdead.symm.trans halive

/-- Only its flag ends the wait for a job. -/
theorem Awaited.next (ha : Awaited s j) (he : Enabled s op)
    (hset : ∀ w, op = .jobStep w j → s.progress j ≠ .setFlag)
    (htest : op ≠ .testPredicate j) : Awaited (RecorderThreads.next s op) j := by
  have hadd : s.call j ≠ .idle := ha.called
  have hcall : (RecorderThreads.next s op).call j ≠ .idle ∧
      (RecorderThreads.next s op).call j ≠ .returned := by
    have hc := call_next he j
    generalize (RecorderThreads.next s op).call j = p at hc
    cases hc with
    | stay => exact ⟨ha.called, ha.unreturned⟩
    | wake | returnAddJob => exact ⟨nofun, nofun⟩
    | addSnapshotJob | addRecordJob => exact absurd he.1 hadd
    | leaveRunner => simp [ha.file]
    | testPredicate => exact absurd rfl htest
  refine ⟨?_, hcall.1, hcall.2, ?_⟩
  · rcases file_next s op j with hf | ⟨own, -, hf⟩ | ⟨file, rfl, -⟩
    · exact hf.trans ha.file
    · exact hf
    · exact absurd he.1 hadd
  · rcases generated_next s op j with hg | ⟨w, hop, hp, -⟩
    · exact hg.trans ha.unset
    · exact absurd hp (hset w hop)

theorem phase_of_dropsRunner (he : Enabled s op) (hc : Strand.Coherent s.strand)
    (hop : op.dropsRunner = true) (j : JobId) :
    (RecorderThreads.next s op).strand.phase j = s.strand.phase j := by
  have hp := phase_next he hc j
  generalize (RecorderThreads.next s op).strand.phase j = q at hp
  cases hp with
  | stay => rfl
  | _ => cases hop

/-- A worker that leaves a queue looks again only if it steals now or nobody told it to stop. -/
theorem Takes.of_next {x : ℕ} {p : WorkerPc} (h : Takes (RecorderThreads.next s op) w v)
    (hflags : op.leavesFlags = true) (hturn : s.turn op = some (x, p))
    (hx : (RecorderThreads.next s op).worker x = p) (hp : p ≠ .polling)
    (hsteal : p = .stealing → s.worker x = .polling ∧ s.readyForStealing = true) :
    Takes s w v ∧ (w = x → (p = .stealing ∨
      s.shutdown x = false ∧ (x = v ∨ s.readyForStealing = true))) := by
  have hlt := h.1
  have hlook := h.2
  rw [threadNum_next] at hlt
  rw [shutdown_of_leavesFlags hflags, stealing_of_leavesFlags hflags] at hlook
  by_cases hwx : w = x
  · subst hwx
    rw [hx] at hlook
    rcases hlook with hs | ⟨hs | hs, hv⟩
    · obtain ⟨hpoll, hready⟩ := hsteal hs
      exact ⟨⟨hlt, Or.inr ⟨Or.inl hpoll, Or.inr hready⟩⟩, fun _ => Or.inl hs⟩
    · exact absurd hs hp
    · exact ⟨⟨hlt, Or.inr ⟨Or.inr hs, hv⟩⟩, fun _ => Or.inr ⟨hs, hv⟩⟩
  · rcases worker_next s op w with hw | hw
    · rw [hw] at hlook
      exact ⟨⟨hlt, hlook⟩, fun hwx' => absurd hwx' hwx⟩
    · rw [hturn, Option.some.injEq, Prod.mk.injEq] at hw
      exact absurd hw.1.symm hwx

theorem unstopped_of_setShutdown {x : ℕ} (h : (s.setShutdown x).shutdown w = false) :
    w ≠ x ∧ s.shutdown w = false := by
  simp only [State.setShutdown, Function.update_apply] at h
  split_ifs at h with hwx
  exact ⟨hwx, h⟩

theorem Unqueued.congr {t : State} (h : Unqueued s j)
    (hp : t.strand.phase j = s.strand.phase j) : Unqueued t j := by
  rwa [Unqueued, hp]

theorem awaited_addSnapshotJob {own : Bool} (he : Enabled s (.addSnapshotJob j own)) (h : Inv s) :
    Awaited (RecorderThreads.next s (.addSnapshotJob j own)) j := by
  have hunset : s.generated j = false := by
    by_contra hg
    have hpast := h.flagged j (by simpa using hg)
    rw [h.progress_of_idle he.2.1] at hpast
    rcases hpast with hp | hp | hp <;> cases hp
  refine ⟨?_, ?_, ?_, ?_⟩ <;>
    simp only [RecorderThreads.next, State.addJobToRunner_eq, Function.update_self]
  · split_ifs <;> simp
  · split_ifs <;> simp
  · exact hunset

/-- A job that `GenerateSnapshot` just added can run if the runner took it and serves. -/
theorem canRun_addSnapshotJob {own : Bool} (he : Enabled s (.addSnapshotJob j own)) (h : Inv s) :
    CanRun (RecorderThreads.next s (.addSnapshotJob j own)) j ↔
      s.strand.runnerAlive = true ∧ ∃ w, Serving s w := by
  have habs := Strand.phase_of_idle h.coherent he.2.1
  simp only [CanRun, Serving, RecorderThreads.next, State.addJobToRunner_eq, Function.update_self]
  cases halive : s.strand.runnerAlive
  · simp [habs]
  · have hphase : (Strand.next s.strand (.call j .enqueue)).phase j = .absent := habs
    have hrunner : (Strand.next s.strand (.call j .enqueue)).runnerAlive = true := halive
    simp [hphase, hrunner]

/-- A step keeps every awaited job served exactly if it meets `KeepsServing`. -/
theorem nobodyStranded_next (he : Enabled s op) (h : Inv s) (hs : NobodyStranded s) :
    NobodyStranded (RecorderThreads.next s op) ↔ KeepsServing s op := by
  constructor
  · intro hn
    -- a step that moves no job must leave every queued one a worker
    have hcover {R : ℕ → ℕ → Prop} (hset : ∀ j w, op ≠ .jobStep w j)
        (htest : ∀ j, op ≠ .testPredicate j)
        (hphase : (RecorderThreads.next s op).strand.phase = s.strand.phase)
        (hR : ∀ w v, Takes (RecorderThreads.next s op) w v → Takes s w v ∧ R w v) :
        Covered s R := by
      intro j v ha hq
      have hrun := hn j (ha.next he (fun w hw => absurd hw (hset j w)) (htest j))
      simp only [CanRun, hphase, hq] at hrun
      obtain ⟨w, hw⟩ := hrun
      exact ⟨w, hR w v hw⟩
    cases op
    case addSnapshotJob k own =>
      exact (canRun_addSnapshotJob he h).mp (hn k (awaited_addSnapshotJob he h))
    case leaveRunner k | leaveStop | releaseRunner =>
      intro hrefs i ha hu
      have hphase := phase_of_dropsRunner he h.coherent rfl i
      have halive := (Unqueued.served (s := RecorderThreads.next s _) (j := i) (hu.congr hphase)
        (hn i (ha.next he (by simp) (by simp)))).1
      rw [runnerAlive_next he] at halive
      simp [Op.dropsRunner, hrefs] at halive
    case stopStealing =>
      refine hcover (by simp) (by simp) rfl fun u v hu => ?_
      rcases hu.2 with hsteal | ⟨hlook, hv | hv⟩
      · exact ⟨⟨hu.1, Or.inl hsteal⟩, Or.inl hsteal⟩
      · exact ⟨⟨hu.1, Or.inr ⟨hlook, Or.inl hv⟩⟩, Or.inr hv⟩
      · cases hv
    case stopWorker x | stopNextWorker x =>
      refine ⟨fun i ha hu => ?_, hcover (by simp) (by simp) rfl fun u v hu => ?_⟩
      · have hserved := (Unqueued.served (s := RecorderThreads.next s _) (j := i) (hu.congr rfl)
          (hn i (ha.next he (by simp) (by simp)))).2
        obtain ⟨u, hlt, hu⟩ := hserved
        obtain ⟨hux, hu⟩ := unstopped_of_setShutdown hu
        exact ⟨u, hux, hlt, hu⟩
      · rcases hu.2 with hsteal | ⟨hpoll | hlook, hv⟩
        · exact ⟨⟨hu.1, Or.inl hsteal⟩, fun hux => Or.inr (hux ▸ hsteal)⟩
        · exact ⟨⟨hu.1, Or.inr ⟨Or.inl hpoll, hv⟩⟩, fun hux => Or.inl (hux ▸ hpoll)⟩
        · obtain ⟨hux, hlook⟩ := unstopped_of_setShutdown hlook
          exact ⟨⟨hu.1, Or.inr ⟨Or.inr hlook, hv⟩⟩, fun hux' => absurd hux' hux⟩
    case pickUpOther x =>
      refine hcover (by simp) (by simp) rfl fun u v hu => ?_
      -- the worker itself may still come, if nothing stops it
      obtain ⟨hu, hR⟩ := hu.of_next rfl rfl (Function.update_self ..) (by simp) (by simp)
      exact ⟨hu, fun hux => (hR hux).resolve_left (by simp)⟩
    case findNothing x =>
      refine hcover (by simp) (by simp) rfl fun u v hu => ?_
      obtain ⟨hu, hR⟩ := hu.of_next rfl rfl (Function.update_self ..)
        (by split_ifs <;> simp) fun hp => by
          split_ifs at hp with hsteal
          exact hsteal
      refine ⟨hu, fun hux => (hR hux).imp_left fun hp => ?_⟩
      split_ifs at hp with hsteal
      exact hsteal
    all_goals trivial
  · intro hk j ha
    rcases awaited_next he ha with ha' | ⟨own, rfl⟩
    · exact canRun_next he h hk ha' (hs j ha')
    · exact (canRun_addSnapshotJob he h).mpr hk

theorem nobodyStranded_init (h : Init s) : NobodyStranded s :=
  fun j ha => absurd (h.noJobs j).1 ha.called

end CrisCore.RecorderThreads
