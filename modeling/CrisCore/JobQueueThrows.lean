import CrisCore.JobQueueBulk
import Mathlib.Data.List.ReduceOption

/-! `JobLockQueue` when the functor throws. An exception leaves `ConsumeOne` and `ConsumeAll` at
the functor's call: what these do to the heads and the size behind it is left out. -/
namespace CrisCore.JobLockQueue
variable {α : Type*}

/-- What one call of the functor does. -/
structure FunctorCall where
  /-- It moves the job away from its cell. -/
  moves : Bool
  throws : Bool

/-- What a call of the queue did before it returned or threw. -/
structure Ending (β : Type*) extends Answer β where
  threw : Bool

def consumeOneThrowing (q : JobLockQueue α) (functor : FunctorCall) :
    JobLockQueue α × Ending (Option α) :=
  if q.size = 0 then (q, ⟨⟨some false, []⟩, false⟩)
  else
    let jobs := handOver q.jobs q.readHead fun _ => functor.moves
    let handed := [q.jobs.getD q.readHead none]
    if functor.throws then ({ q with jobs := jobs }, ⟨⟨none, handed⟩, true⟩)
    else
      ({ q with
          jobs := jobs
          readHead := headAfter q.jobs.length q.readHead
          size := q.size - 1 },
        ⟨⟨some true, handed⟩, false⟩)

/-- The loop of `ConsumeAll` from its turn `i` on, `n` turns at most. -/
def consumeLoopThrowing (functor : ℕ → FunctorCall) (jobs : List (Option α)) (idx i : ℕ) :
    ℕ → List (Option α) × Ending (Option α)
  | 0 => (jobs, ⟨⟨none, []⟩, false⟩)
  | n + 1 =>
    let jobs' := handOver jobs idx fun _ => (functor i).moves
    if (functor i).throws then (jobs', ⟨⟨none, [jobs.getD idx none]⟩, true⟩)
    else
      let rest := consumeLoopThrowing functor jobs' (headAfter jobs.length idx) (i + 1) n
      (rest.1, ⟨⟨none, jobs.getD idx none :: rest.2.handed⟩, rest.2.threw⟩)

/-- The functor's calls are told apart by their number in the loop. -/
def consumeAllThrowing (q : JobLockQueue α) (functor : ℕ → FunctorCall) :
    JobLockQueue α × Ending (Option α) :=
  if q.size = 0 then (q, ⟨⟨some false, []⟩, false⟩)
  else
    let loop := consumeLoopThrowing functor q.jobs q.readHead 0 q.size
    if loop.2.threw then ({ q with jobs := loop.1 }, loop.2)
    else
      ({ q with jobs := loop.1, readHead := 0, writeHead := 0, size := 0 },
        ⟨⟨some true, loop.2.handed⟩, false⟩)

section Endings
variable {q : JobLockQueue α}

/-- A functor that does not throw is one of those modelled before. -/
theorem consumeOneThrowing_of_not_throws (q : JobLockQueue α) {functor : FunctorCall}
    (h : q.size = 0 ∨ functor.throws = false) :
    q.consumeOneThrowing functor =
      ((q.consumeOne fun _ => functor.moves).1,
        ⟨(q.consumeOne fun _ => functor.moves).2, false⟩) := by
  unfold consumeOneThrowing consumeOne
  by_cases hs : q.size = 0
  · simp only [if_pos hs]
  · have hthrows : functor.throws = false := h.resolve_left hs
    simp only [if_neg hs, hthrows, Bool.false_eq_true, ↓reduceIte]

section Loop
variable {functor : ℕ → FunctorCall} {jobs : List (Option α)} {idx i n : ℕ}

/-- The exception leaves the loop at this turn. -/
theorem consumeLoopThrowing_of_throws (h : (functor i).throws = true) :
    consumeLoopThrowing functor jobs idx i (n + 1) =
      (handOver jobs idx fun _ => (functor i).moves, ⟨⟨none, [jobs.getD idx none]⟩, true⟩) := by
  rw [consumeLoopThrowing, if_pos h]

theorem consumeLoopThrowing_of_not_throws (h : (functor i).throws = false) :
    consumeLoopThrowing functor jobs idx i (n + 1) =
      let rest := consumeLoopThrowing functor (handOver jobs idx fun _ => (functor i).moves)
        (headAfter jobs.length idx) (i + 1) n
      (rest.1, ⟨⟨none, jobs.getD idx none :: rest.2.handed⟩, rest.2.threw⟩) := by
  rw [consumeLoopThrowing, h, if_neg Bool.false_ne_true]

theorem length_consumeLoopThrowing :
    (consumeLoopThrowing functor jobs idx i n).1.length = jobs.length := by
  induction n generalizing jobs idx i with
  | zero => rfl
  | succ n ih =>
    cases ht : (functor i).throws with
    | true =>
      rw [consumeLoopThrowing_of_throws ht]
      exact length_handOver ..
    | false =>
      rw [consumeLoopThrowing_of_not_throws ht]
      exact ih.trans (length_handOver ..)

theorem consumeLoopThrowing_threw_iff :
    (consumeLoopThrowing functor jobs idx i n).2.threw = false ↔
      ∀ j < n, (functor (i + j)).throws = false := by
  induction n generalizing jobs idx i with
  | zero => exact ⟨fun _ j hj => absurd hj (Nat.not_lt_zero j), fun _ => rfl⟩
  | succ n ih =>
    rw [Nat.forall_lt_succ_left, Nat.add_zero]
    cases ht : (functor i).throws with
    | true =>
      rw [consumeLoopThrowing_of_throws ht]
      simp
    | false =>
      rw [consumeLoopThrowing_of_not_throws ht]
      simp only [ih, true_and, Nat.add_assoc, Nat.add_comm 1]

/-- The functors were passed the first jobs, all of them if none threw. -/
theorem consumeLoopThrowing_handed (hi : idx < jobs.length) (hn : n ≤ jobs.length) :
    ∃ m ≤ n, (consumeLoopThrowing functor jobs idx i n).2.handed =
        (ringContents jobs idx n).take m ∧
      ((consumeLoopThrowing functor jobs idx i n).2.threw = true → 0 < m) ∧
      ((consumeLoopThrowing functor jobs idx i n).2.threw = false → m = n) := by
  induction n generalizing jobs idx i with
  | zero => exact ⟨0, Nat.le_refl _, rfl, fun h => Bool.noConfusion h, fun _ => rfl⟩
  | succ n ih =>
    have hcons := ringContents_succ hi hn
    cases ht : (functor i).throws with
    | true =>
      rw [consumeLoopThrowing_of_throws ht, hcons]
      exact ⟨1, by omega, rfl, fun _ => Nat.one_pos, fun h => Bool.noConfusion h⟩
    | false =>
      have hlt : wrapIndex jobs.length idx 1 < jobs.length := wrapIndex_lt hi (by omega)
      have hlen := length_handOver jobs idx fun _ => (functor i).moves
      have hrest : ringContents (handOver jobs idx fun _ => (functor i).moves)
          (headAfter jobs.length idx) n = ringContents jobs (wrapIndex jobs.length idx 1) n := by
        rw [headAfter_eq, ringContents_handOver _ hi hn]
      obtain ⟨m, hm, hhanded, hpos, hall⟩ :=
        @ih (handOver jobs idx fun _ => (functor i).moves) (headAfter jobs.length idx) (i + 1)
          (by rw [hlen, headAfter_eq]; exact hlt) (by omega)
      rw [consumeLoopThrowing_of_not_throws ht]
      refine ⟨m + 1, by omega, ?_, fun _ => m.succ_pos, fun h => congrArg Nat.succ (hall h)⟩
      rw [hcons, List.take_succ_cons, ← hrest, ← hhanded]

end Loop

theorem consumeOneThrowing_of_throws (h : RingInv q) {functor : FunctorCall} (hsize : q.size ≠ 0)
    (hthrows : functor.throws = true) :
    (q.consumeOneThrowing functor).1.size = q.size ∧
      (q.consumeOneThrowing functor).2.threw = true ∧
      (q.consumeOneThrowing functor).2.handed = q.contents.take 1 := by
  have hroom := h.room
  have hcons : q.contents = q.jobs.getD q.readHead none ::
      ringContents q.jobs (wrapIndex q.jobs.length q.readHead 1) (q.size - 1) := by
    rw [← ringContents_succ (h.readHead_lt (by omega)) (by omega), Nat.sub_add_cancel (by omega)]
    rfl
  unfold consumeOneThrowing
  rw [if_neg hsize, if_pos hthrows, hcons]
  exact ⟨rfl, rfl, rfl⟩

theorem consumeAllThrowing_of_not_throws (h : RingInv q) {functor : ℕ → FunctorCall}
    (hno : ∀ i < q.size, (functor i).throws = false) :
    RingInv (q.consumeAllThrowing functor).1 ∧
      (q.consumeAllThrowing functor).1.contents = [] ∧
      (q.consumeAllThrowing functor).1.jobs.length = q.jobs.length ∧
      (q.consumeAllThrowing functor).2.threw = false ∧
      (q.consumeAllThrowing functor).2.handed = q.contents := by
  unfold consumeAllThrowing
  by_cases hs : q.size = 0
  · have hnil : q.contents = [] := by simp [contents, ringContents, hs]
    rw [if_pos hs]
    exact ⟨h, hnil, rfl, rfl, hnil.symm⟩
  · have hroom := h.room
    have hthrew : (consumeLoopThrowing functor q.jobs q.readHead 0 q.size).2.threw = false := by
      apply consumeLoopThrowing_threw_iff.mpr
      intro j hj
      rw [Nat.zero_add]
      exact hno j hj
    obtain ⟨m, -, hhanded, -, hall⟩ := @consumeLoopThrowing_handed _ functor q.jobs q.readHead 0
      q.size (h.readHead_lt (by omega)) hroom
    rw [hall hthrew, List.take_of_length_le (length_ringContents ..).le] at hhanded
    simp only [if_neg hs, hthrew, Bool.false_eq_true, ↓reduceIte]
    exact ⟨⟨Or.inr ⟨rfl, rfl, rfl⟩, Nat.zero_le _, by simp⟩, rfl, length_consumeLoopThrowing,
      trivial, hhanded⟩

/-- The loop was left after some turns: the heads and the size say that it never began. -/
theorem consumeAllThrowing_of_throws (h : RingInv q) {functor : ℕ → FunctorCall}
    (hyes : ¬ ∀ i < q.size, (functor i).throws = false) :
    (q.consumeAllThrowing functor).1.size = q.size ∧
      (q.consumeAllThrowing functor).2.threw = true ∧
      ∃ m, 0 < m ∧ m ≤ q.size ∧ (q.consumeAllThrowing functor).2.handed = q.contents.take m := by
  have hs : q.size ≠ 0 := by
    intro hs
    apply hyes
    intro i hi
    omega
  have hroom := h.room
  obtain ⟨m, hm, hhanded, hpos, -⟩ := @consumeLoopThrowing_handed _ functor q.jobs q.readHead 0
    q.size (h.readHead_lt (by omega)) hroom
  have hthrew : (consumeLoopThrowing functor q.jobs q.readHead 0 q.size).2.threw = true := by
    by_contra hfalse
    apply hyes
    intro j hj
    have hj' := consumeLoopThrowing_threw_iff.mp (Bool.eq_false_iff.mpr hfalse) j hj
    rwa [Nat.zero_add] at hj'
  unfold consumeAllThrowing
  simp only [if_neg hs, hthrew, ↓reduceIte]
  exact ⟨trivial, trivial, m, hpos hthrew, hm, hhanded⟩

end Endings

inductive ThrowingCall (α : Type*)
  | push (job : α)
  | pushBatch (jobs : List α)
  | consumeOne (functor : FunctorCall)
  | consumeAll (functor : ℕ → FunctorCall)

/-- A queue with the history of what went in and came out. A job is known by its number in the
order of pushes, so that equal jobs are told apart. -/
structure HandOff (α : Type*) where
  queue : JobLockQueue (α × ℕ)
  pushed : List α
  /-- What the functors were passed. -/
  passed : List (Option (α × ℕ))
  /-- The last call ended by an exception. -/
  threw : Bool

namespace HandOff

def initial (initCapacity : ℕ) : HandOff α where
  queue := make initCapacity
  pushed := []
  passed := []
  threw := false

def ended (s : HandOff α) (call : JobLockQueue (α × ℕ) × Ending (Option (α × ℕ))) : HandOff α :=
  { s with queue := call.1, passed := s.passed ++ call.2.handed, threw := call.2.threw }

def call (s : HandOff α) : ThrowingCall α → HandOff α
  | .push job =>
    { s with
      queue := s.queue.push (job, s.pushed.length)
      pushed := s.pushed ++ [job]
      threw := false }
  | .pushBatch jobs =>
    { s with
      queue := s.queue.pushBatch (jobs.zipIdx s.pushed.length)
      pushed := s.pushed ++ jobs
      threw := false }
  | .consumeOne functor => s.ended (s.queue.consumeOneThrowing functor)
  | .consumeAll functor => s.ended (s.queue.consumeAllThrowing functor)

/-- The numbers of the jobs that were passed; an empty cell is no job. -/
def passedNumbers (s : HandOff α) : List ℕ :=
  s.passed.reduceOption.map Prod.snd

/-- The jobs no functor was passed, in the order they were pushed. -/
def unpassed (s : HandOff α) : List (α × ℕ) :=
  s.pushed.zipIdx.filter fun job => job.2 ∉ s.passedNumbers

def AtMostOnce (s : HandOff α) : Prop :=
  s.passedNumbers.Nodup

def IntactAfterThrow (s : HandOff α) : Prop :=
  s.threw = true → s.queue.contents = s.unpassed.map some

end HandOff

/-- A queue used by calls whose functors may throw. -/
def throwingSystem (initCapacity : ℕ) : TransitionSystem (HandOff α) (ThrowingCall α) where
  init s := s = .initial initCapacity
  step s c := some (s.call c)

/-- No functor is called that throws: those of an empty queue are not called at all. -/
def NoFunctorThrows (s : HandOff α) : ThrowingCall α → Prop
  | .push _ | .pushBatch _ => True
  | .consumeOne functor => s.queue.size = 0 ∨ functor.throws = false
  | .consumeAll functor => ∀ i < s.queue.size, (functor i).throws = false

instance (s : HandOff α) : (c : ThrowingCall α) → Decidable (NoFunctorThrows s c)
  | .push _ | .pushBatch _ => .isTrue trivial
  | .consumeOne functor =>
    inferInstanceAs (Decidable (s.queue.size = 0 ∨ functor.throws = false))
  | .consumeAll functor =>
    inferInstanceAs (Decidable (∀ i < s.queue.size, (functor i).throws = false))

/-- The jobs passed were the first ones, and the queue holds the others. -/
structure HandOff.Orderly (s : HandOff α) : Prop where
  threw : s.threw = false
  split : ∃ done left, s.pushed.zipIdx = done ++ left ∧ s.passed = done.map some ∧
    StandsFor s.queue left

section Orderly
variable {s : HandOff α} {done left : List (α × ℕ)}

theorem passedNumbers_of_passed (hpassed : s.passed = done.map some) :
    s.passedNumbers = done.map Prod.snd := by
  unfold HandOff.passedNumbers
  have hall : (done.map some).reduceOption = done := by
    simp [List.reduceOption, List.filterMap_map]
  rw [hpassed, hall]

theorem nodup_numbers (hsplit : s.pushed.zipIdx = done ++ left) :
    (done.map Prod.snd ++ left.map Prod.snd).Nodup := by
  have hall : (s.pushed.zipIdx.map Prod.snd).Nodup := by
    rw [List.zipIdx_map_snd]
    exact List.nodup_range'
  rwa [hsplit, List.map_append] at hall

/-- What is left over when the first jobs were passed. -/
theorem unpassed_eq (hsplit : s.pushed.zipIdx = done ++ left)
    (hpassed : s.passed = done.map some) : s.unpassed = left := by
  obtain ⟨-, -, hdisjoint⟩ := List.nodup_append.mp (nodup_numbers hsplit)
  unfold HandOff.unpassed
  rw [passedNumbers_of_passed hpassed, hsplit, List.filter_append]
  have hdone : done.filter (fun job => job.2 ∉ done.map Prod.snd) = [] := by
    apply List.filter_eq_nil_iff.mpr
    intro job hjob
    have hmem : job.2 ∈ done.map Prod.snd := List.mem_map_of_mem hjob
    simp only [decide_eq_true_eq, not_not]
    exact hmem
  have hleft : left.filter (fun job => job.2 ∉ done.map Prod.snd) = left := by
    apply List.filter_eq_self.mpr
    intro job hjob
    simp only [decide_eq_true_eq]
    exact fun hmem => hdisjoint _ hmem _ (List.mem_map_of_mem hjob) rfl
  rw [hdone, hleft, List.nil_append]

theorem HandOff.Orderly.atMostOnce (h : s.Orderly) : s.AtMostOnce := by
  obtain ⟨done, left, hsplit, hpassed, -⟩ := h.split
  unfold HandOff.AtMostOnce
  rw [passedNumbers_of_passed hpassed]
  exact (List.nodup_append.mp (nodup_numbers hsplit)).1

theorem size_of_standsFor {q : JobLockQueue (α × ℕ)} (h : StandsFor q left) :
    q.size = left.length := by
  have hlen : q.contents.length = q.size := length_ringContents _ _ _
  rw [← hlen, h.fifo.contents, List.length_map]

theorem orderly_initial {initCapacity : ℕ} (hcap : IsPowerOfTwoOrZero initCapacity) :
    (HandOff.initial initCapacity : HandOff α).Orderly where
  threw := rfl
  split := ⟨[], [], rfl, rfl, standsFor_make hcap⟩

theorem orderly_push {q : JobLockQueue (α × ℕ)} (jobs : List α)
    (hsplit : s.pushed.zipIdx = done ++ left) (hpassed : s.passed = done.map some)
    (hq : StandsFor q (left ++ jobs.zipIdx s.pushed.length)) :
    HandOff.Orderly { s with queue := q, pushed := s.pushed ++ jobs, threw := false } where
  threw := rfl
  split := by
    refine ⟨done, left ++ jobs.zipIdx s.pushed.length, ?_, hpassed, hq⟩
    rw [List.zipIdx_append, hsplit, List.append_assoc, Nat.zero_add]

/-- The first jobs of the queue are passed, in order, and the others stay. -/
theorem orderly_ended {call : JobLockQueue (α × ℕ) × Ending (Option (α × ℕ))}
    (now later : List (α × ℕ)) (hsplit : s.pushed.zipIdx = done ++ (now ++ later))
    (hpassed : s.passed = done.map some) (hq : StandsFor call.1 later)
    (hhanded : call.2.handed = now.map some) (hthrew : call.2.threw = false) :
    (s.ended call).Orderly where
  threw := hthrew
  split := by
    refine ⟨done ++ now, later, ?_, ?_, hq⟩
    · rw [List.append_assoc]
      exact hsplit
    · show s.passed ++ call.2.handed = _
      rw [hpassed, hhanded, List.map_append]

/-- An exception leaves as many jobs in the queue as before, one of which was passed. -/
theorem not_intact_of_threw {call : JobLockQueue (α × ℕ) × Ending (Option (α × ℕ))}
    {m : ℕ} (hsplit : s.pushed.zipIdx = done ++ left) (hpassed : s.passed = done.map some)
    (hsize : call.1.size = left.length) (hpos : 0 < m) (hm : m ≤ left.length)
    (hhanded : call.2.handed = (left.take m).map some) (hthrew : call.2.threw = true) :
    ¬ (s.ended call).IntactAfterThrow := by
  intro hintact
  have hsplit' : (s.ended call).pushed.zipIdx = (done ++ left.take m) ++ left.drop m := by
    rw [List.append_assoc, List.take_append_drop]
    exact hsplit
  have hpassed' : (s.ended call).passed = (done ++ left.take m).map some := by
    show s.passed ++ call.2.handed = _
    rw [hpassed, hhanded, List.map_append]
  have hleft : (s.ended call).unpassed = left.drop m := unpassed_eq hsplit' hpassed'
  have hcontents : call.1.contents = (left.drop m).map some := by
    rw [← hleft]
    exact hintact hthrew
  have hlen : call.1.contents.length = call.1.size := length_ringContents _ _ _
  rw [hcontents, hsize, List.length_map, List.length_drop] at hlen
  omega

end Orderly

section Steps
variable {s : HandOff α}

theorem orderly_call (h : s.Orderly) {c : ThrowingCall α} (hc : NoFunctorThrows s c) :
    (s.call c).Orderly := by
  obtain ⟨done, left, hsplit, hpassed, hq⟩ := h.split
  cases c with
  | push job => exact orderly_push [job] hsplit hpassed (hq.push _)
  | pushBatch jobs => exact orderly_push jobs hsplit hpassed (hq.pushBatch _)
  | consumeOne functor =>
    have hone := consumeOneThrowing_of_not_throws s.queue hc
    have hkept := answersAlike_call.kept _ _ (.consumeOne fun _ => functor.moves) hq
    have hanswer := answersAlike_call.answer _ _ (.consumeOne fun _ => functor.moves) hq
    have hleft : left = left.head?.toList ++ left.tail := by cases left <;> rfl
    refine orderly_ended left.head?.toList left.tail ?_ hpassed ?_ ?_ ?_
    · rw [← hleft]
      exact hsplit
    · rw [hone]
      exact hkept
    · rw [hone]
      exact congrArg Answer.handed hanswer
    · rw [hone]
  | consumeAll functor =>
    obtain ⟨hring, hempty, hlen, hthrew, hhanded⟩ :=
      consumeAllThrowing_of_not_throws hq.fifo.ring hc
    refine orderly_ended left [] ?_ hpassed ⟨?_, ?_⟩ ?_ hthrew
    · rw [List.append_nil]
      exact hsplit
    · exact behavesAsFifo_of_contents hring hempty
    · rw [hlen]
      exact hq.capacity
    · rw [hhanded, hq.fifo.contents]

theorem not_intact_call (h : s.Orderly) {c : ThrowingCall α} (hc : ¬ NoFunctorThrows s c) :
    ¬ (s.call c).IntactAfterThrow := by
  obtain ⟨done, left, hsplit, hpassed, hq⟩ := h.split
  have hleft := size_of_standsFor hq
  cases c with
  | push job => exact absurd trivial hc
  | pushBatch jobs => exact absurd trivial hc
  | consumeOne functor =>
    obtain ⟨hsize, hthrows⟩ := not_or.mp hc
    obtain ⟨hkept, hthrew, hhanded⟩ :=
      consumeOneThrowing_of_throws hq.fifo.ring hsize (Bool.not_eq_false _ ▸ hthrows)
    refine not_intact_of_threw hsplit hpassed (hkept.trans hleft) Nat.one_pos (by omega) ?_ hthrew
    rw [hhanded, hq.fifo.contents, List.map_take]
  | consumeAll functor =>
    obtain ⟨hkept, hthrew, m, hpos, hm, hhanded⟩ := consumeAllThrowing_of_throws hq.fifo.ring hc
    refine not_intact_of_threw hsplit hpassed (hkept.trans hleft) hpos (by omega) ?_ hthrew
    rw [hhanded, hq.fifo.contents, List.map_take]

theorem exec_throwingSystem (initCapacity : ℕ) (s : HandOff α) (calls : List (ThrowingCall α)) :
    ∃ t, (throwingSystem initCapacity).exec s calls = some t := by
  induction calls generalizing s with
  | nil => exact ⟨s, rfl⟩
  | cons c calls ih => exact ih (s.call c)

end Steps

/-- A run passes no job twice and keeps the others intact exactly when no functor it calls throws:
the first exception leaves a job in the queue that was passed. -/
theorem hand_off_is_exact_iff_no_functor_throws {initCapacity : ℕ}
    (hcap : ∃ k, initCapacity = 2 ^ k) (calls : List (ThrowingCall α)) :
    (throwingSystem initCapacity).StatesMeet (fun s => s.AtMostOnce ∧ s.IntactAfterThrow)
        (.initial initCapacity) calls ↔
      (throwingSystem initCapacity).StepsMeet NoFunctorThrows (.initial initCapacity) calls := by
  have h0 : (HandOff.initial initCapacity : HandOff α).Orderly := orderly_initial (Or.inr hcap)
  have hkept : ∀ (u : HandOff α) (c : ThrowingCall α) (v : HandOff α), u.Orderly →
      NoFunctorThrows u c → (throwingSystem initCapacity).step u c = some v → v.Orderly := by
    intro u c v hu hc hv
    cases hv
    exact orderly_call hu hc
  constructor
  · obtain ⟨t, ht⟩ := exec_throwingSystem initCapacity (.initial initCapacity) calls
    refine TransitionSystem.stepsMeet_of_statesMeet hkept ?_ h0 ht
    intro u c v hu hc hv hmeets
    cases hv
    exact not_intact_call hu hc hmeets.2
  · intro hsteps
    refine (hsteps.statesMeet h0 hkept).mono fun u hu => ⟨hu.atMostOnce, ?_⟩
    intro hthrew
    rw [hu.threw] at hthrew
    cases hthrew

/-- Functors that return: three jobs, each passed once, the second and third after the first. -/
theorem hand_off_is_exact_without_throw :
    (throwingSystem 8).StatesMeet (fun s => s.AtMostOnce ∧ s.IntactAfterThrow) (.initial 8)
      [.pushBatch [10, 11, 12], .consumeOne ⟨true, false⟩, .consumeAll fun _ => ⟨false, false⟩] :=
  (hand_off_is_exact_iff_no_functor_throws ⟨3, rfl⟩ _).mpr (by decide)

/-- A functor that runs the job and throws is passed the same job again; one that moved two of three
jobs away before it throws leaves two empty cells in front of the third. -/
theorem throwing_functor_is_passed_a_job_again :
    ¬ (throwingSystem 8).StatesMeet (fun s => s.AtMostOnce ∧ s.IntactAfterThrow) (.initial 8)
        [.push 10, .consumeOne ⟨false, true⟩, .consumeOne ⟨true, false⟩] ∧
      ((((HandOff.initial 8).call (.push 10)).call (.consumeOne ⟨false, true⟩)).call
        (.consumeOne ⟨true, false⟩)).passed = [some (10, 0), some (10, 0)] ∧
      (((HandOff.initial 8).call (.pushBatch [10, 11, 12])).call
        (.consumeAll fun i => ⟨true, i == 1⟩)).queue.contents = [none, none, some (12, 2)] := by
  refine ⟨fun hmeets => ?_, by decide, by decide⟩
  have honce : [0, 0].Nodup := (hmeets.last rfl).1
  exact absurd honce (by decide)

end CrisCore.JobLockQueue
