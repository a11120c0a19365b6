import CrisCore.GuardedCalls
import CrisCore.JobQueueBulk

/-! `JobLockQueue` between its threads: the calls statement by statement, each under `mtx_`. The call
of the functor is one step, which does not call the queue. -/
namespace CrisCore.JobLockQueue
open GuardedCalls (objectAfter)
variable {α : Type*}

/-- Where a call stands, with its local variables. `jobs` are those that are still to be written, `n`
is how many there were. -/
inductive Loc (α : Type*)
  | expandUnsafe (jobs : List α)
  /-- Behind `resize`, in `ExpandUnsafe`. -/
  | resized (jobs : List α) (originalCapacity capacityAfterResize : ℕ)
  /-- In `std::move`, with so many jobs still to be moved. -/
  | moving (jobs : List α) (first dest count readHeadAfterResize : ℕ)
  | writing (jobs : List α) (n : ℕ)
  /-- Between the writing of a job and that of `write_head_`. -/
  | written (jobs : List α) (n writeHeadAfterPush : ℕ)
  | consumeOne (takes : α → Bool)
  | handedOne (handed : List (Option α)) (readHeadAfterPop : ℕ)
  | popped (handed : List (Option α))
  | consumeAll (takes : α → Bool)
  | handing (takes : α → Bool) (idx i : ℕ) (handed : List (Option α))
  | empty

def Loc.enter : Call α → Loc α
  | .push job => .expandUnsafe [job]
  | .pushBatch jobs => .expandUnsafe jobs
  | .consumeOne takes => .consumeOne takes
  | .consumeAll takes => .consumeAll takes
  | .empty => .empty

def statement (q : JobLockQueue α) :
    Loc α → JobLockQueue α × (Loc α ⊕ Answer (Option α))
  | .expandUnsafe jobs =>
    let targetCapacity := q.size + jobs.length
    if targetCapacity ≤ q.jobs.length then (q, .inl (.writing jobs jobs.length))
    else
      let capacityAfterResize := bitCeil targetCapacity
      ({ q with jobs := q.jobs ++ List.replicate (capacityAfterResize - q.jobs.length) none },
        .inl (.resized jobs q.jobs.length capacityAfterResize))
  | .resized jobs originalCapacity capacityAfterResize =>
    if q.readHead < q.writeHead ∨ q.size = 0 then (q, .inl (.writing jobs jobs.length))
    else
      let readHeadAfterResize := q.readHead + capacityAfterResize - originalCapacity
      (q, .inl (.moving jobs q.readHead readHeadAfterResize (originalCapacity - q.readHead)
        readHeadAfterResize))
  | .moving jobs first dest (count + 1) readHeadAfterResize =>
    ({ q with jobs := (q.jobs.set dest (q.jobs.getD first none)).set first none },
      .inl (.moving jobs (first + 1) (dest + 1) count readHeadAfterResize))
  | .moving jobs _ _ 0 readHeadAfterResize =>
    ({ q with readHead := readHeadAfterResize }, .inl (.writing jobs jobs.length))
  | .writing (job :: jobs) n =>
    ({ q with jobs := q.jobs.set q.writeHead (some job) },
      .inl (.written jobs n (headAfter q.jobs.length q.writeHead)))
  | .writing [] n => ({ q with size := q.size + n }, .inr ⟨none, []⟩)
  | .written jobs n writeHeadAfterPush =>
    ({ q with writeHead := writeHeadAfterPush }, .inl (.writing jobs n))
  | .consumeOne takes =>
    if q.size = 0 then (q, .inr ⟨some false, []⟩)
    else
      ({ q with jobs := handOver q.jobs q.readHead takes },
        .inl (.handedOne [q.jobs.getD q.readHead none] (headAfter q.jobs.length q.readHead)))
  | .handedOne handed readHeadAfterPop =>
    ({ q with readHead := readHeadAfterPop }, .inl (.popped handed))
  | .popped handed => ({ q with size := q.size - 1 }, .inr ⟨some true, handed⟩)
  | .consumeAll takes =>
    if q.size = 0 then (q, .inr ⟨some false, []⟩)
    else (q, .inl (.handing takes q.readHead 0 []))
  | .handing takes idx i handed =>
    if i < q.size then
      ({ q with jobs := handOver q.jobs idx takes },
        .inl (.handing takes (headAfter q.jobs.length idx) (i + 1)
          (handed ++ [q.jobs.getD idx none])))
    else ({ q with readHead := 0, writeHead := 0, size := 0 }, .inr ⟨some true, handed⟩)
  | .empty => (q, .inr ⟨some (q.size == 0), []⟩)

def statements : SmallSteps (JobLockQueue α) (Call α) (Loc α) (Answer (Option α)) where
  enter := Loc.enter
  next := statement

/-! Without another thread in between, the statements of a call do what the call does. -/

section Alone
variable {q : JobLockQueue α} {r : JobLockQueue α × Answer (Option α)}

theorem ends_writing (q : JobLockQueue α) (jobs : List α) (n : ℕ) :
    statements.Ends q (.writing jobs n)
      ({ jobs.foldl writeJob q with size := (jobs.foldl writeJob q).size + n }, ⟨none, []⟩) := by
  induction jobs generalizing q with
  | nil => exact .answer rfl
  | cons job jobs ih =>
    apply SmallSteps.Ends.work rfl
    apply SmallSteps.Ends.work rfl
    exact ih (q.writeJob job)

theorem ends_moving {jobs : List α} {first dest count readHeadAfterResize : ℕ}
    (h : statements.Ends
      { q with
        jobs := moveRange q.jobs first dest count
        readHead := readHeadAfterResize }
      (.writing jobs jobs.length) r) :
    statements.Ends q (.moving jobs first dest count readHeadAfterResize) r := by
  induction count generalizing q first dest with
  | zero => exact .work rfl h
  | succ count ih =>
    apply SmallSteps.Ends.work rfl
    apply ih
    exact h

theorem ends_expandUnsafe {jobs : List α}
    (h : statements.Ends (q.expandUnsafe (q.size + jobs.length)) (.writing jobs jobs.length) r) :
    statements.Ends q (.expandUnsafe jobs) r := by
  unfold JobLockQueue.expandUnsafe at h
  by_cases hroom : q.size + jobs.length ≤ q.jobs.length
  · rw [if_pos hroom] at h
    refine .work ?_ h
    simp only [statements, statement, if_pos hroom]
  · rw [if_neg hroom] at h
    have hresize : statement q (.expandUnsafe jobs) = (_, .inl (.resized jobs q.jobs.length _)) :=
      if_neg hroom
    refine .work hresize ?_
    by_cases hfront : q.readHead < q.writeHead ∨ q.size = 0
    · rw [if_pos hfront] at h
      refine .work ?_ h
      simp only [statements, statement, if_pos hfront]
    · rw [if_neg hfront] at h
      refine .work (if_neg hfront) (ends_moving ?_)
      exact h

theorem ends_pushBatch (q : JobLockQueue α) (jobs : List α) :
    statements.Ends q (.expandUnsafe jobs) (q.pushBatch jobs, ⟨none, []⟩) := by
  apply ends_expandUnsafe
  exact ends_writing _ jobs jobs.length

theorem ends_consumeOne (q : JobLockQueue α) (takes : α → Bool) :
    statements.Ends q (.consumeOne takes) (q.consumeOne takes) := by
  unfold JobLockQueue.consumeOne
  by_cases hsize : q.size = 0
  · rw [if_pos hsize]
    apply SmallSteps.Ends.answer
    simp only [statements, statement, if_pos hsize]
  · rw [if_neg hsize]
    have hhand : statement q (.consumeOne takes) = (_, .inl (.handedOne _ _)) := if_neg hsize
    exact .work hhand (.work rfl (.answer rfl))

/-- From turn `i` of the loop on, `n` turns before its end. -/
theorem ends_handing (takes : α → Bool) {q : JobLockQueue α} {idx i n : ℕ}
    (handed : List (Option α)) (hn : i + n = q.size) :
    statements.Ends q (.handing takes idx i handed)
      ({ q with
          jobs := (consumeLoop takes q.jobs idx n).1
          readHead := 0
          writeHead := 0
          size := 0 },
        ⟨some true, handed ++ (consumeLoop takes q.jobs idx n).2⟩) := by
  induction n generalizing q idx i handed with
  | zero =>
    have hlast : ¬ i < q.size := by omega
    apply SmallSteps.Ends.answer
    simp only [statements, statement, if_neg hlast, consumeLoop, List.append_nil]
  | succ n ih =>
    have hturn : i < q.size := by omega
    have hrest := @ih { q with jobs := handOver q.jobs idx takes } (headAfter q.jobs.length idx)
      (i + 1) (handed ++ [q.jobs.getD idx none]) (show i + 1 + n = q.size by omega)
    rw [List.append_assoc] at hrest
    refine .work ?_ hrest
    simp only [statements, statement, if_pos hturn]

theorem ends_consumeAll (q : JobLockQueue α) (takes : α → Bool) :
    statements.Ends q (.consumeAll takes) (q.consumeAll takes) := by
  unfold JobLockQueue.consumeAll
  by_cases hsize : q.size = 0
  · rw [if_pos hsize]
    apply SmallSteps.Ends.answer
    simp only [statements, statement, if_pos hsize]
  · rw [if_neg hsize]
    refine .work ?_ (ends_handing takes [] (Nat.zero_add q.size))
    simp only [statements, statement, if_neg hsize]

theorem statements_perform : (statements (α := α)).Performs call := by
  intro q c
  cases c with
  | push job => exact ends_pushBatch q [job]
  | pushBatch jobs => exact ends_pushBatch q jobs
  | consumeOne takes => exact ends_consumeOne q takes
  | consumeAll takes => exact ends_consumeAll q takes
  | empty => exact .answer rfl

end Alone

/-- The jobs that a call pushes. -/
def Call.pushed : Call α → List α
  | .push job => [job]
  | .pushBatch jobs => jobs
  | .consumeOne _ | .consumeAll _ | .empty => []

/-- The list loses no job and doubles none: a job is handed over, or is still there. -/
theorem handed_append_list (l : List α) (calls : List (Call α)) :
    (answersTo listCall l calls).flatMap Answer.handed ++ (afterCalls listCall l calls).map some =
      (l ++ calls.flatMap Call.pushed).map some := by
  induction calls generalizing l with
  | nil => simp [answersTo, afterCalls]
  | cons c calls ih =>
    have hone : (listCall l c).2.handed ++ (listCall l c).1.map some =
        (l ++ c.pushed).map some := by
      cases c with
      | push job => rfl
      | pushBatch jobs => rfl
      | consumeOne takes => cases l <;> simp [listCall, fifoCall, Answer.map, Call.pushed]
      | consumeAll takes => simp [listCall, fifoCall, Answer.map, Call.pushed]
      | empty => simp [listCall, fifoCall, Answer.map, Call.pushed]
    calc (answersTo listCall l (c :: calls)).flatMap Answer.handed ++
          (afterCalls listCall l (c :: calls)).map some
        = (listCall l c).2.handed ++ ((answersTo listCall (listCall l c).1 calls).flatMap
            Answer.handed ++ (afterCalls listCall (listCall l c).1 calls).map some) := by
          rw [answersTo, List.flatMap_cons, List.append_assoc]
          rfl
      _ = (listCall l c).2.handed ++ (listCall l c).1.map some ++
            (calls.flatMap Call.pushed).map some := by
          rw [ih, List.map_append, List.append_assoc]
      _ = (l ++ (c :: calls).flatMap Call.pushed).map some := by
          rw [hone, ← List.map_append, List.append_assoc, List.flatMap_cons]

section Threads
variable {θ : Type*} [DecidableEq θ] {initCapacity : ℕ}

/-- The queue with the threads that call it. -/
def threads (α θ : Type*) [DecidableEq θ] (initCapacity : ℕ) :
    TransitionSystem (GuardedCalls.State θ (JobLockQueue α) (Call α) (Loc α) (Answer (Option α)))
      (GuardedCalls.Action θ (Call α)) :=
  GuardedCalls.system θ statements (make initCapacity)

/-- However the statements of the threads interleave, the calls answer as one list of jobs that takes
them one after the other, a call that has returned before those made afterwards; no job is lost and
none handed over twice; and no call is stuck. -/
theorem threads_share_one_list (hcap : IsPowerOfTwoOrZero initCapacity)
    {s : GuardedCalls.State θ (JobLockQueue α) (Call α) (Loc α) (Answer (Option α))}
    (h : (threads α θ initCapacity).Reachable s) :
    GuardedCalls.Linearizable listCall [] s ∧
    (s.holder = none →
      s.returned.flatMap (fun r => r.2.handed) ++ s.object.contents =
        (s.entered.flatMap fun e => e.2.pushed).map some) ∧
    (∀ as u, (threads α θ initCapacity).exec s as = some u →
      ∀ n ∈ s.returned.map Prod.fst, ∀ m ∈ u.entered.map Prod.fst, s.calls.length ≤ m →
        [n, m].Sublist (u.entered.map Prod.fst)) ∧
    ∀ n, n < s.calls.length →
      ∃ as u, (threads α θ initCapacity).exec s as = some u ∧ n ∈ u.returned.map Prod.fst := by
  have hserial := GuardedCalls.serial_of_reachable statements_perform h
  have hlin := hserial.linearizable answersAlike_call (standsFor_make (α := α) hcap)
  refine ⟨hlin, ?_, ?_, ?_⟩
  · intro hfree
    obtain ⟨hobject, hreturned⟩ := hserial.free hfree
    have hstands := answersAlike_call.afterCalls (standsFor_make (α := α) hcap)
      (s.entered.map Prod.snd)
    have hanswers := answersAlike_call.answersTo (standsFor_make (α := α) hcap)
      (s.entered.map Prod.snd)
    have hsnd : s.returned.map Prod.snd = answersTo listCall [] (s.entered.map Prod.snd) := by
      rw [hreturned, GuardedCalls.answersOf, hanswers]
      apply List.map_snd_zip
      simp
    have hcontents : s.object.contents =
        (afterCalls listCall [] (s.entered.map Prod.snd)).map some := by
      rw [hobject]
      exact hstands.fifo.contents
    have hlist := handed_append_list [] (s.entered.map Prod.snd)
    rw [← hsnd, ← hcontents, List.flatMap_map, List.nil_append, List.flatMap_map] at hlist
    exact hlist
  · intro as u he n hn m hm hlater
    exact GuardedCalls.sublist_entered hlin he hn hlater hm
  · intro n hn
    exact hserial.can_return statements_perform hn

/-- While one thread pushes two jobs another waits to push a third, for which the ring grows and the two
are moved; the job of the thread that called first comes last. -/
def raceSteps : List (GuardedCalls.Action Bool (Call ℕ)) :=
  [.call false (.push 7), .call true (.pushBatch [8, 9]), .lock true] ++
  List.replicate 7 (.work true) ++ [.unlock true, .lock false] ++
  List.replicate 8 (.work false) ++ [.unlock false, .call false (.consumeAll fun _ => true),
    .lock false] ++ List.replicate 5 (.work false) ++ [.unlock false]

def raceState : GuardedCalls.State Bool (JobLockQueue ℕ) (Call ℕ) (Loc ℕ) (Answer (Option ℕ)) :=
  (threads ℕ Bool 1).after (GuardedCalls.initial (make 1)) raceSteps

theorem threads_share_one_list_raceState :
    (raceState.returned.map fun r => (r.1, r.2.handed)) =
      [(1, []), (0, []), (2, [some 8, some 9, some 7])] ∧
    GuardedCalls.Linearizable listCall [] raceState :=
  ⟨by decide +kernel,
    (threads_share_one_list (.inr ⟨0, rfl⟩)
      (TransitionSystem.Reachable.after (M := threads ℕ Bool 1) rfl raceSteps)).1⟩

end Threads

end CrisCore.JobLockQueue
