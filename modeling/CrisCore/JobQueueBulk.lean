import CrisCore.CallAnswers
import CrisCore.JobLockQueue

/-! The bulk calls of `JobLockQueue` beside those of its base class `JobQueue`, which it overrides:
one `Push` for each job, and `ConsumeOne` until there is nothing to consume. -/
namespace CrisCore.JobLockQueue
variable {α : Type*}

/-- `JobQueue::PushBatch` -/
def basePushBatch (q : JobLockQueue α) (jobs : List α) : JobLockQueue α :=
  jobs.foldl push q

theorem size_consumeOne {q : JobLockQueue α} {takes : α → Bool}
    (h : (q.consumeOne takes).2.result = some true) :
    (q.consumeOne takes).1.size < q.size := by
  unfold consumeOne at h ⊢
  split_ifs at h ⊢ with hs
  · cases h
  · show q.size - 1 < q.size
    omega

/-- The loop of `JobQueue::ConsumeAll`, with its local variable `consumed`. -/
def baseConsumeLoop (q : JobLockQueue α) (takes : α → Bool) (consumed : Bool) :
    JobLockQueue α × Answer (Option α) :=
  if (q.consumeOne takes).2.result = some true then
    let rest := baseConsumeLoop (q.consumeOne takes).1 takes true
    (rest.1, ⟨rest.2.result, (q.consumeOne takes).2.handed ++ rest.2.handed⟩)
  else ((q.consumeOne takes).1, ⟨some consumed, (q.consumeOne takes).2.handed⟩)
termination_by q.size
decreasing_by exact size_consumeOne ‹_›

/-- `JobQueue::ConsumeAll` -/
def baseConsumeAll (q : JobLockQueue α) (takes : α → Bool) : JobLockQueue α × Answer (Option α) :=
  q.baseConsumeLoop takes false

/-- The calls of a queue that overrides neither bulk call. -/
def baseCall (q : JobLockQueue α) : Call α → JobLockQueue α × Answer (Option α)
  | .pushBatch jobs => (q.basePushBatch jobs, ⟨none, []⟩)
  | .consumeAll takes => q.baseConsumeAll takes
  | .push job => q.call (.push job)
  | .consumeOne takes => q.call (.consumeOne takes)
  | .empty => q.call .empty

/-- The queue holds the jobs of a list and has a capacity that loses none of them. -/
structure StandsFor (q : JobLockQueue α) (l : List α) : Prop where
  fifo : BehavesAsFifo q l
  capacity : IsPowerOfTwoOrZero q.jobs.length

/-- The list's answer, in the queue's terms: the functor of the queue is passed a cell. -/
def listCall (l : List α) (c : Call α) : List α × Answer (Option α) :=
  ((fifoCall l c).1, (fifoCall l c).2.map some)

theorem standsFor_make {initCapacity : ℕ} (hcap : IsPowerOfTwoOrZero initCapacity) :
    StandsFor (make initCapacity : JobLockQueue α) [] where
  fifo := behavesAsFifo_make initCapacity
  capacity := by
    have hlen : (make initCapacity : JobLockQueue α).jobs.length = initCapacity := by simp [make]
    rw [hlen]
    exact hcap

theorem answersAlike_call :
    AnswersAlike (call : JobLockQueue α → Call α → _) listCall StandsFor where
  answer _ _ c h := h.fifo.answers c
  kept _ _ c h :=
    { fifo := (behavesAsFifo_call h.fifo c).mpr
        (not_overlaps_of_powerOfTwo h.capacity h.fifo.ring _)
      capacity := powerOfTwoOrZero_call h.capacity c }

section Base
variable {q : JobLockQueue α} {l : List α}

theorem StandsFor.push (h : StandsFor q l) (job : α) : StandsFor (q.push job) (l ++ [job]) :=
  answersAlike_call.kept q l (.push job) h

theorem StandsFor.pushBatch (h : StandsFor q l) (jobs : List α) :
    StandsFor (q.pushBatch jobs) (l ++ jobs) :=
  answersAlike_call.kept q l (.pushBatch jobs) h

theorem StandsFor.consumeAll (h : StandsFor q l) (takes : α → Bool) :
    StandsFor (q.consumeAll takes).1 [] :=
  answersAlike_call.kept q l (.consumeAll takes) h

/-- Pushing the jobs one at a time grows the queue in other steps, to the same list. -/
theorem StandsFor.basePushBatch (h : StandsFor q l) (jobs : List α) :
    StandsFor (q.basePushBatch jobs) (l ++ jobs) := by
  induction jobs generalizing q l with
  | nil =>
    rw [List.append_nil]
    exact h
  | cons job jobs ih =>
    have hrest := ih (h.push job)
    rw [List.append_assoc] at hrest
    exact hrest

/-- The loop hands out the whole list, and says so unless it never got a job. -/
theorem StandsFor.baseConsumeLoop (h : StandsFor q l) (takes : α → Bool) (consumed : Bool) :
    StandsFor (q.baseConsumeLoop takes consumed).1 [] ∧
      (q.baseConsumeLoop takes consumed).2 = ⟨some (consumed || !l.isEmpty), l.map some⟩ := by
  have hone := answersAlike_call.kept q l (.consumeOne takes) h
  have hanswer : (q.consumeOne takes).2 = _ := answersAlike_call.answer q l (.consumeOne takes) h
  induction l generalizing q consumed with
  | nil =>
    -- nothing is left: this turn of the loop is its last
    have hstop : (q.consumeOne takes).2.result ≠ some true := by
      rw [hanswer]
      simp [listCall, fifoCall, Answer.map]
    rw [JobLockQueue.baseConsumeLoop, if_neg hstop, hanswer]
    refine ⟨hone, ?_⟩
    simp [listCall, fifoCall, Answer.map]
  | cons job l ih =>
    have hgo : (q.consumeOne takes).2.result = some true := by
      rw [hanswer]
      rfl
    have hone' : StandsFor (q.consumeOne takes).1 l := hone
    obtain ⟨hrest, hhanded⟩ := ih hone' true (answersAlike_call.kept _ _ (.consumeOne takes) hone')
      (answersAlike_call.answer _ _ (.consumeOne takes) hone')
    rw [JobLockQueue.baseConsumeLoop, if_pos hgo]
    refine ⟨hrest, ?_⟩
    simp only [hhanded, hanswer]
    simp [listCall, fifoCall, Answer.map]

end Base

/-- A queue that overrides no bulk call stands for the same lists. -/
theorem answersAlike_baseCall :
    AnswersAlike (baseCall : JobLockQueue α → Call α → _) listCall StandsFor where
  answer q l c h := by
    cases c with
    | pushBatch jobs => rfl
    | consumeAll takes => exact (h.baseConsumeLoop takes false).2
    | push job => exact answersAlike_call.answer q l (.push job) h
    | consumeOne takes => exact answersAlike_call.answer q l (.consumeOne takes) h
    | empty => exact answersAlike_call.answer q l .empty h
  kept q l c h := by
    cases c with
    | pushBatch jobs => exact h.basePushBatch jobs
    | consumeAll takes => exact (h.baseConsumeLoop takes false).1
    | push job => exact h.push job
    | consumeOne takes => exact answersAlike_call.kept q l (.consumeOne takes) h
    | empty => exact h

/-- No later calls tell the two queues apart, whether or not the second one overrides the bulk
calls. -/
def Indistinguishable (q r : JobLockQueue α) : Prop :=
  ∀ later, answersTo call q later = answersTo call r later ∧
    answersTo call q later = answersTo baseCall r later

theorem StandsFor.indistinguishable {q r : JobLockQueue α} {l : List α} (hq : StandsFor q l)
    (hr : StandsFor r l) : Indistinguishable q r := by
  intro later
  have hlist := answersAlike_call.answersTo hq later
  constructor
  · rw [hlist, answersAlike_call.answersTo hr later]
  · rw [hlist, answersAlike_baseCall.answersTo hr later]

theorem StandsFor.contents_eq {q r : JobLockQueue α} {l : List α} (hq : StandsFor q l)
    (hr : StandsFor r l) : q.contents = r.contents := by
  rw [hq.fifo.contents, hr.fifo.contents]

/-- The states of a queue that was made with a capacity. -/
def ReachedFrom (initCapacity : ℕ) (q : JobLockQueue α) : Prop :=
  ∃ calls : List (Call α), q = afterCalls call (make initCapacity) calls

/-- In every state reached, each bulk call does to the list of jobs what its base class definition
does, answers as it does, and leaves a queue that no later call tells from the other one. -/
theorem bulk_calls_agree_with_base {initCapacity : ℕ} (hcap : IsPowerOfTwoOrZero initCapacity)
    {q : JobLockQueue α} (hq : ReachedFrom initCapacity q) :
    (∀ jobs, (q.pushBatch jobs).contents = (q.basePushBatch jobs).contents ∧
      Indistinguishable (q.pushBatch jobs) (q.basePushBatch jobs)) ∧
    (∀ takes, (q.consumeAll takes).2 = (q.baseConsumeAll takes).2 ∧
      (q.consumeAll takes).1.contents = (q.baseConsumeAll takes).1.contents ∧
      Indistinguishable (q.consumeAll takes).1 (q.baseConsumeAll takes).1) := by
  obtain ⟨calls, hcalls⟩ := hq
  have hstands := answersAlike_call.afterCalls (standsFor_make hcap) calls
  rw [← hcalls] at hstands
  constructor
  · intro jobs
    have hbulk := hstands.pushBatch jobs
    have hbase := hstands.basePushBatch jobs
    exact ⟨hbulk.contents_eq hbase, hbulk.indistinguishable hbase⟩
  · intro takes
    have hbulk := hstands.consumeAll takes
    obtain ⟨hbase, hanswer⟩ := hstands.baseConsumeLoop takes false
    refine ⟨?_, hbulk.contents_eq hbase, hbulk.indistinguishable hbase⟩
    exact (answersAlike_call.answer q _ (.consumeAll takes) hstands).trans hanswer.symm

/-- Four cells, four jobs that go round the end, three more: one growth step here, one there, at
other places, and the same jobs come out. -/
theorem bulk_calls_agree_round_the_end :
    let q := afterCalls call (make 4)
      [.pushBatch [1, 2, 3], .consumeOne fun _ => true, .push 4, .push 5]
    q.contents = [some 2, some 3, some 4, some 5] ∧
      (q.pushBatch [6, 7, 8]).contents = (q.basePushBatch [6, 7, 8]).contents ∧
      (q.consumeAll fun _ => true).2 = (q.baseConsumeAll fun _ => true).2 := by
  intro q
  have hcap : IsPowerOfTwoOrZero 4 := Or.inr ⟨2, rfl⟩
  have hagree := bulk_calls_agree_with_base hcap ⟨_, Eq.refl q⟩
  exact ⟨by decide, (hagree.1 [6, 7, 8]).1, (hagree.2 fun _ => true).1⟩

end CrisCore.JobLockQueue
