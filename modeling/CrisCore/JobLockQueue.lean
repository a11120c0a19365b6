import CrisCore.RingBuffer
import CrisCore.TransitionSystem
import Mathlib.Algebra.Group.Nat.Defs
import Mathlib.Data.Nat.Log

/-! `JobLockQueue`, a ring of jobs that grows. Every call holds `mtx_` from its first step to its
last, so the calls of all threads come one after the other. A cell is `none` where its function
object is empty: made by `resize`, or moved from. -/
namespace CrisCore
variable {α : Type*}

/-- `std::bit_ceil` -/
def bitCeil (n : ℕ) : ℕ :=
  2 ^ Nat.clog 2 n

theorem le_bitCeil (n : ℕ) : n ≤ bitCeil n :=
  Nat.le_pow_clog Nat.one_lt_two n

theorem bitCeil_le {n k : ℕ} (h : n ≤ 2 ^ k) : bitCeil n ≤ 2 ^ k :=
  Nat.pow_le_pow_right Nat.two_pos (Nat.clog_le_of_le_pow h)

/-- Beyond a power of two the next one is twice as large. -/
theorem two_mul_le_bitCeil {n k : ℕ} (h : 2 ^ k < n) : 2 * 2 ^ k ≤ bitCeil n := by
  have hk : k < Nat.clog 2 n := (Nat.lt_clog_iff_pow_lt Nat.one_lt_two).mpr h
  calc 2 * 2 ^ k = 2 ^ (k + 1) := by rw [Nat.pow_succ, Nat.mul_comm]
    _ ≤ 2 ^ Nat.clog 2 n := Nat.pow_le_pow_right Nat.two_pos hk

structure JobLockQueue (α : Type*) where
  /-- The capacity of the queue is the size of this vector. -/
  jobs : List (Option α)
  readHead : ℕ
  writeHead : ℕ
  size : ℕ

namespace JobLockQueue

def make (initCapacity : ℕ) : JobLockQueue α where
  jobs := List.replicate initCapacity none
  readHead := 0
  writeHead := 0
  size := 0

def expandUnsafe (q : JobLockQueue α) (targetCapacity : ℕ) : JobLockQueue α :=
  if targetCapacity ≤ q.jobs.length then q
  else
    let capacityAfterResize := bitCeil targetCapacity
    let jobs := q.jobs ++ List.replicate (capacityAfterResize - q.jobs.length) none
    if q.readHead < q.writeHead ∨ q.size = 0 then { q with jobs := jobs }
    else
      let readHeadAfterResize := q.readHead + capacityAfterResize - q.jobs.length
      { q with
        jobs := moveRange jobs q.readHead readHeadAfterResize (q.jobs.length - q.readHead)
        readHead := readHeadAfterResize }

/-- One place further, back to the start behind the last one. -/
def headAfter (jobContainerSize head : ℕ) : ℕ :=
  if head + 1 ≥ jobContainerSize then head + 1 - jobContainerSize else head + 1

/-- The body of the loop of `PushBatch`, and of `Push` but for the count. -/
def writeJob (q : JobLockQueue α) (job : α) : JobLockQueue α :=
  { q with
    jobs := q.jobs.set q.writeHead (some job)
    writeHead := headAfter q.jobs.length q.writeHead }

def push (q : JobLockQueue α) (job : α) : JobLockQueue α :=
  let t := (q.expandUnsafe (q.size + 1)).writeJob job
  { t with size := t.size + 1 }

def pushBatch (q : JobLockQueue α) (jobs : List α) : JobLockQueue α :=
  let t := jobs.foldl writeJob (q.expandUnsafe (q.size + jobs.length))
  { t with size := t.size + jobs.length }

/-- `functor(std::move(jobs_[idx]))`: the functor may move the job away or leave it. -/
def handOver (jobs : List (Option α)) (idx : ℕ) (takes : α → Bool) : List (Option α) :=
  if (jobs.getD idx none).any takes then jobs.set idx none else jobs

structure Answer (β : Type*) where
  /-- The value returned, if any. -/
  result : Option Bool
  /-- What the functor was called with, in order. -/
  handed : List β

def consumeOne (q : JobLockQueue α) (takes : α → Bool) :
    JobLockQueue α × Answer (Option α) :=
  if q.size = 0 then (q, ⟨some false, []⟩)
  else
    ({ q with
        jobs := handOver q.jobs q.readHead takes
        readHead := headAfter q.jobs.length q.readHead
        size := q.size - 1 },
      ⟨some true, [q.jobs.getD q.readHead none]⟩)

/-- The loop of `ConsumeAll`. -/
def consumeLoop (takes : α → Bool) (jobs : List (Option α)) (idx : ℕ) :
    ℕ → List (Option α) × List (Option α)
  | 0 => (jobs, [])
  | n + 1 =>
    let rest := consumeLoop takes (handOver jobs idx takes) (headAfter jobs.length idx) n
    (rest.1, jobs.getD idx none :: rest.2)

def consumeAll (q : JobLockQueue α) (takes : α → Bool) :
    JobLockQueue α × Answer (Option α) :=
  if q.size = 0 then (q, ⟨some false, []⟩)
  else
    let loop := consumeLoop takes q.jobs q.readHead q.size
    ({ q with jobs := loop.1, readHead := 0, writeHead := 0, size := 0 }, ⟨some true, loop.2⟩)

inductive Call (α : Type*)
  | push (job : α)
  | pushBatch (jobs : List α)
  | consumeOne (takes : α → Bool)
  | consumeAll (takes : α → Bool)
  | empty

def call (q : JobLockQueue α) : Call α → JobLockQueue α × Answer (Option α)
  | .push job => (q.push job, ⟨none, []⟩)
  | .pushBatch jobs => (q.pushBatch jobs, ⟨none, []⟩)
  | .consumeOne takes => q.consumeOne takes
  | .consumeAll takes => q.consumeAll takes
  | .empty => (q, ⟨some (q.size == 0), []⟩)

/-- The jobs in the queue, the next one first. -/
def contents (q : JobLockQueue α) : List (Option α) :=
  ringContents q.jobs q.readHead q.size

structure RingInv (q : JobLockQueue α) : Prop where
  heads : (q.readHead < q.jobs.length ∧ q.writeHead < q.jobs.length) ∨
    (q.readHead = 0 ∧ q.writeHead = 0 ∧ q.size = 0)
  room : q.size ≤ q.jobs.length
  write : q.writeHead = (q.readHead + q.size) % q.jobs.length

namespace RingInv
variable {q : JobLockQueue α}

theorem readHead_lt (h : RingInv q) (hpos : 0 < q.jobs.length) : q.readHead < q.jobs.length := by
  rcases h.heads with ⟨hr, -⟩ | ⟨hr, -⟩
  · exact hr
  · omega

theorem writeHead_eq (h : RingInv q) (hpos : 0 < q.jobs.length) :
    q.writeHead = wrapIndex q.jobs.length q.readHead q.size := by
  rw [wrapIndex_eq_mod (h.readHead_lt hpos) h.room]
  exact h.write

theorem of_wrapIndex (hr : q.readHead < q.jobs.length) (hs : q.size ≤ q.jobs.length)
    (hw : q.writeHead = wrapIndex q.jobs.length q.readHead q.size) : RingInv q where
  heads := Or.inl ⟨hr, hw ▸ wrapIndex_lt hr hs⟩
  room := hs
  write := by rw [hw, wrapIndex_eq_mod hr hs]

end RingInv

theorem ringInv_make (initCapacity : ℕ) : RingInv (make initCapacity : JobLockQueue α) :=
  ⟨Or.inr ⟨rfl, rfl, rfl⟩, Nat.zero_le _, by simp [make]⟩

theorem headAfter_eq {jobContainerSize head : ℕ} :
    headAfter jobContainerSize head = wrapIndex jobContainerSize head 1 := by
  unfold headAfter wrapIndex
  split_ifs <;> omega

/-- `ExpandUnsafe` moves a tail that is longer than the number of cells it has added. -/
def Overlaps (q : JobLockQueue α) (targetCapacity : ℕ) : Prop :=
  q.jobs.length < targetCapacity ∧ ¬(q.readHead < q.writeHead ∨ q.size = 0) ∧
    bitCeil targetCapacity - q.jobs.length < q.jobs.length - q.readHead

instance (q : JobLockQueue α) (targetCapacity : ℕ) : Decidable (Overlaps q targetCapacity) :=
  inferInstanceAs (Decidable (_ ∧ _))

section Expand
variable {q : JobLockQueue α} {target : ℕ}

theorem size_expandUnsafe : (q.expandUnsafe target).size = q.size := by
  unfold expandUnsafe
  simp only
  split_ifs <;> rfl

theorem length_expandUnsafe :
    (q.expandUnsafe target).jobs.length =
      if target ≤ q.jobs.length then q.jobs.length else bitCeil target := by
  have hle := le_bitCeil target
  unfold expandUnsafe
  simp only
  split_ifs
  · rfl
  · simp
    omega
  · simp
    omega

/-- Room for the jobs to come. -/
theorem le_length_expandUnsafe : target ≤ (q.expandUnsafe target).jobs.length := by
  rw [length_expandUnsafe]
  split_ifs with h
  · exact h
  · exact le_bitCeil target

/-- Entries that do not go round end at the write head. -/
theorem writeHead_of_lt (h : RingInv q) (hlt : q.readHead < q.writeHead) :
    q.writeHead = q.readHead + q.size ∧ q.readHead + q.size < q.jobs.length := by
  have hpos : 0 < q.jobs.length := by
    rcases h.heads with ⟨hr, -⟩ | ⟨hr, hw, -⟩ <;> omega
  have hw := h.writeHead_eq hpos
  have hroom := h.room
  unfold wrapIndex at hw
  split_ifs at hw <;> omega

/-- Entries that go round fill the tail behind the read head. -/
theorem writeHead_of_wrapped (h : RingInv q) (hw : ¬(q.readHead < q.writeHead ∨ q.size = 0)) :
    q.readHead < q.jobs.length ∧ q.writeHead + q.jobs.length = q.readHead + q.size := by
  obtain ⟨hle, hs⟩ := not_or.mp hw
  have hpos : 0 < q.jobs.length := by
    have := h.room
    omega
  have hr := h.readHead_lt hpos
  have hwrite := h.writeHead_eq hpos
  refine ⟨hr, ?_⟩
  unfold wrapIndex at hwrite
  split_ifs at hwrite <;> omega

theorem ringInv_expandUnsafe (h : RingInv q) : RingInv (q.expandUnsafe target) := by
  have hle := le_bitCeil target
  unfold expandUnsafe
  simp only
  split_ifs with h1 h2
  · exact h
  -- the jobs end before the old end: only the capacity changes
  · have hlen : (q.jobs ++ List.replicate (bitCeil target - q.jobs.length) none).length =
        bitCeil target := by
      simp
      omega
    apply RingInv.of_wrapIndex
    · show q.readHead < _
      rw [hlen]
      rcases h.heads with ⟨hr, -⟩ | ⟨hr, -⟩ <;> omega
    · show q.size ≤ _
      rw [hlen]
      have := h.room
      omega
    · show q.writeHead = wrapIndex _ q.readHead q.size
      rw [hlen, wrapIndex]
      rcases h2 with h2 | h2
      · obtain ⟨hw, hlt⟩ := writeHead_of_lt h h2
        rw [if_pos (by omega), hw]
      -- empty, so the two heads are in one place
      · have hw : q.writeHead = q.readHead := by
          rcases h.heads with ⟨hr, -⟩ | ⟨hr, hw, -⟩
          · rw [h.write, h2, Nat.add_zero, Nat.mod_eq_of_lt hr]
          · rw [hr, hw]
        have hr : q.readHead < bitCeil target := by
          rcases h.heads with ⟨hr, -⟩ | ⟨hr, -⟩ <;> omega
        rw [if_pos (by omega), hw, h2, Nat.add_zero]
  -- the jobs go around the end: what is behind the read head moves to the new end
  · obtain ⟨hr, hw⟩ := writeHead_of_wrapped h h2
    have hlen (first dest n : ℕ) :
        (moveRange (q.jobs ++ List.replicate (bitCeil target - q.jobs.length) none)
          first dest n).length = bitCeil target := by
      simp
      omega
    have hroom := h.room
    apply RingInv.of_wrapIndex
    · show q.readHead + bitCeil target - q.jobs.length < _
      rw [hlen]
      omega
    · show q.size ≤ _
      rw [hlen]
      omega
    · show q.writeHead = wrapIndex _ (q.readHead + bitCeil target - q.jobs.length) q.size
      rw [hlen, wrapIndex, if_neg (by omega)]
      omega

theorem contents_expandUnsafe (h : RingInv q) (hno : ¬ Overlaps q target) :
    (q.expandUnsafe target).contents = q.contents := by
  have hle := le_bitCeil target
  unfold expandUnsafe
  simp only
  split_ifs with h1 h2
  · rfl
  · show ringContents (q.jobs ++ _) q.readHead q.size = ringContents q.jobs q.readHead q.size
    rcases h2 with h2 | h2
    · apply ringContents_append
      obtain ⟨-, hlt⟩ := writeHead_of_lt h h2
      omega
    · rw [h2]
      rfl
  · obtain ⟨hr, -⟩ := writeHead_of_wrapped h h2
    -- the places written do not meet the places still to be read
    have hfit : q.jobs.length - q.readHead ≤ bitCeil target - q.jobs.length := by
      by_contra hc
      exact hno ⟨by omega, h2, by omega⟩
    have hnew : q.readHead + bitCeil target - q.jobs.length =
        q.readHead + (bitCeil target - q.jobs.length) := by omega
    have hold (k : ℕ) (hk : k < q.jobs.length) :
        (q.jobs ++ List.replicate (bitCeil target - q.jobs.length) (none : Option α)).getD k none =
          q.jobs.getD k none := by
      simp [List.getD_eq_getElem?_getD, List.getElem?_append_left hk]
    show ringContents (moveRange _ q.readHead _ _) _ q.size = ringContents q.jobs q.readHead q.size
    rw [hnew]
    apply ringContents_relocate (by simp) h.room
    -- from the read head on, what was moved
    · intro i hi
      rw [moveRange_dest _ (by omega) (by omega) (by simp; omega)]
      exact hold _ hi
    -- before it, what stayed
    · intro k hk
      rw [moveRange_before _ hk (by omega)]
      exact hold _ (by omega)

/-- A job is lost when the tail overlaps the place it is moved to. -/
theorem none_mem_contents_expandUnsafe (h : RingInv q) (ho : Overlaps q target) :
    none ∈ (q.expandUnsafe target).contents := by
  obtain ⟨h1, h2, h3⟩ := ho
  have hle := le_bitCeil target
  obtain ⟨hr, hw⟩ := writeHead_of_wrapped h h2
  have hlast := @moveRange_last α
    (q.jobs ++ List.replicate (bitCeil target - q.jobs.length) none) q.readHead
    (q.readHead + bitCeil target - q.jobs.length) (q.jobs.length - q.readHead) (by omega)
    (by simp; omega)
  have hpos : wrapIndex (bitCeil target) (q.readHead + bitCeil target - q.jobs.length)
      (q.jobs.length - 1 - (q.readHead + bitCeil target - q.jobs.length)) =
        q.readHead + (q.jobs.length - q.readHead) - 1 := by
    rw [wrapIndex, if_pos (by omega)]
    omega
  unfold expandUnsafe
  simp only
  rw [if_neg (by omega), if_neg h2]
  show none ∈ ringContents (moveRange _ q.readHead _ _) _ q.size
  have hlen : (moveRange (q.jobs ++ List.replicate (bitCeil target - q.jobs.length) none)
      q.readHead (q.readHead + bitCeil target - q.jobs.length)
      (q.jobs.length - q.readHead)).length = bitCeil target := by
    simp
    omega
  unfold ringContents
  rw [hlen, List.mem_map]
  exact ⟨_, List.mem_range.mpr (by omega), hpos ▸ hlast⟩

end Expand

section Calls
variable {q : JobLockQueue α}

/-- One job written behind the others and counted. -/
def pushOne (q : JobLockQueue α) (job : α) : JobLockQueue α :=
  { q.writeJob job with size := q.size + 1 }

theorem push_eq (q : JobLockQueue α) (job : α) :
    q.push job = (q.expandUnsafe (q.size + 1)).pushOne job := rfl

theorem size_writeJobs (q : JobLockQueue α) (jobs : List α) :
    (jobs.foldl writeJob q).size = q.size := by
  induction jobs generalizing q with
  | nil => rfl
  | cons job jobs ih => exact ih (q.writeJob job)

/-- Writing does not look at the count. -/
theorem writeJobs_count (q : JobLockQueue α) (jobs : List α) (n : ℕ) :
    jobs.foldl writeJob { q with size := n } = { jobs.foldl writeJob q with size := n } := by
  induction jobs generalizing q with
  | nil => rfl
  | cons job jobs ih => exact ih (q.writeJob job)

theorem pushOnes_eq (q : JobLockQueue α) (jobs : List α) :
    jobs.foldl pushOne q = { jobs.foldl writeJob q with size := q.size + jobs.length } := by
  induction jobs generalizing q with
  | nil => rfl
  | cons job jobs ih =>
    have hrest := ih (q.pushOne job)
    simp only [pushOne, writeJobs_count] at hrest
    rw [List.foldl_cons, List.foldl_cons, List.length_cons, ← Nat.succ_add_eq_add_succ]
    exact hrest

theorem pushBatch_eq (q : JobLockQueue α) (jobs : List α) :
    q.pushBatch jobs = jobs.foldl pushOne (q.expandUnsafe (q.size + jobs.length)) := by
  rw [pushOnes_eq, pushBatch]
  simp only [size_writeJobs]

theorem ringInv_pushOne (h : RingInv q) (job : α) (hroom : q.size < q.jobs.length) :
    RingInv (q.pushOne job) := by
  have hr := h.readHead_lt (by omega)
  have hlen : (q.pushOne job).jobs.length = q.jobs.length := by simp [pushOne, writeJob]
  apply RingInv.of_wrapIndex
  · rw [hlen]
    exact hr
  · rw [hlen]
    exact hroom
  · show headAfter q.jobs.length q.writeHead = wrapIndex _ q.readHead (q.size + 1)
    rw [hlen, headAfter_eq, h.writeHead_eq (by omega), wrapIndex_next hr hroom]

theorem contents_pushOne (h : RingInv q) (job : α) (hroom : q.size < q.jobs.length) :
    (q.pushOne job).contents = q.contents ++ [some job] := by
  show ringContents (q.jobs.set q.writeHead (some job)) q.readHead (q.size + 1) = _
  rw [h.writeHead_eq (by omega)]
  exact ringContents_set_back _ (h.readHead_lt (by omega)) hroom

theorem pushAll (h : RingInv q) (jobs : List α) (hroom : q.size + jobs.length ≤ q.jobs.length) :
    RingInv (jobs.foldl pushOne q) ∧
      (jobs.foldl pushOne q).contents = q.contents ++ jobs.map some := by
  induction jobs generalizing q with
  | nil => exact ⟨h, by simp⟩
  | cons job jobs ih =>
    simp only [List.length_cons] at hroom
    have hlen : (q.pushOne job).jobs.length = q.jobs.length := by simp [pushOne, writeJob]
    have hsize : (q.pushOne job).size = q.size + 1 := rfl
    obtain ⟨hring, hcontents⟩ :=
      ih (ringInv_pushOne h job (by omega)) (by rw [hlen, hsize]; omega)
    refine ⟨hring, ?_⟩
    rw [List.foldl_cons, hcontents, contents_pushOne h job (by omega)]
    simp

theorem length_handOver (jobs : List (Option α)) (idx : ℕ) (takes : α → Bool) :
    (handOver jobs idx takes).length = jobs.length := by
  unfold handOver
  split_ifs <;> simp

theorem ringContents_handOver {jobs : List (Option α)} {idx n : ℕ} (takes : α → Bool)
    (hi : idx < jobs.length) (hn : n + 1 ≤ jobs.length) :
    ringContents (handOver jobs idx takes) (wrapIndex jobs.length idx 1) n =
      ringContents jobs (wrapIndex jobs.length idx 1) n := by
  unfold handOver
  split_ifs
  · exact ringContents_set_front none hi hn
  · rfl

theorem consumeOne_spec (h : RingInv q) (takes : α → Bool) :
    RingInv (q.consumeOne takes).1 ∧ (q.consumeOne takes).1.contents = q.contents.tail ∧
      (q.consumeOne takes).2 = ⟨some (!q.contents.isEmpty), q.contents.head?.toList⟩ := by
  unfold consumeOne
  split_ifs with hs
  · have hnil : q.contents = [] := by simp [contents, ringContents, hs]
    exact ⟨h, by simp [hnil], by simp [hnil]⟩
  · have hroom := h.room
    have hr := h.readHead_lt (by omega)
    have hcons : q.contents = q.jobs.getD q.readHead none ::
        ringContents q.jobs (wrapIndex q.jobs.length q.readHead 1) (q.size - 1) := by
      rw [← ringContents_succ hr (by omega), Nat.sub_add_cancel (by omega)]
      rfl
    have hlen := length_handOver q.jobs q.readHead takes
    refine ⟨?_, ?_, by simp [hcons]⟩
    · apply RingInv.of_wrapIndex
      · show headAfter _ _ < (handOver _ _ _).length
        rw [hlen, headAfter_eq]
        exact wrapIndex_lt hr (by omega)
      · show q.size - 1 ≤ (handOver _ _ _).length
        omega
      · show q.writeHead = wrapIndex (handOver _ _ _).length (headAfter _ _) (q.size - 1)
        rw [hlen, headAfter_eq, wrapIndex_succ hr (by omega), Nat.sub_add_cancel (by omega)]
        exact h.writeHead_eq (by omega)
    · show ringContents (handOver _ _ _) (headAfter _ _) (q.size - 1) = _
      rw [hcons, headAfter_eq, ringContents_handOver takes hr (by omega), List.tail_cons]

theorem consumeLoop_spec (takes : α → Bool) {jobs : List (Option α)} {idx n : ℕ}
    (hi : idx < jobs.length) (hn : n ≤ jobs.length) :
    (consumeLoop takes jobs idx n).1.length = jobs.length ∧
      (consumeLoop takes jobs idx n).2 = ringContents jobs idx n := by
  induction n generalizing jobs idx with
  | zero => exact ⟨rfl, rfl⟩
  | succ n ih =>
    have hlen := length_handOver jobs idx takes
    have hlt : wrapIndex jobs.length idx 1 < jobs.length := wrapIndex_lt hi (by omega)
    obtain ⟨h1, h2⟩ := @ih (handOver jobs idx takes) (headAfter jobs.length idx)
      (by rw [hlen, headAfter_eq]; exact hlt) (by omega)
    simp only [consumeLoop]
    refine ⟨by rw [h1, hlen], ?_⟩
    rw [h2, headAfter_eq, ringContents_handOver takes hi hn, ringContents_succ hi hn]

theorem consumeAll_spec (h : RingInv q) (takes : α → Bool) :
    RingInv (q.consumeAll takes).1 ∧ (q.consumeAll takes).1.contents = [] ∧
      (q.consumeAll takes).2 = ⟨some (!q.contents.isEmpty), q.contents⟩ := by
  unfold consumeAll
  split_ifs with hs
  · have hnil : q.contents = [] := by simp [contents, ringContents, hs]
    exact ⟨h, by simp [hnil], by simp [hnil]⟩
  · have hroom := h.room
    obtain ⟨-, hloop⟩ := consumeLoop_spec takes (h.readHead_lt (by omega)) hroom
    have hne : q.contents.isEmpty = false := by
      have hl : q.contents.length = q.size := length_ringContents _ _ _
      cases hc : q.contents with
      | nil =>
        rw [hc] at hl
        exact absurd hl.symm hs
      | cons _ _ => rfl
    refine ⟨⟨Or.inr ⟨rfl, rfl, rfl⟩, Nat.zero_le _, by simp⟩, rfl, ?_⟩
    show (⟨some true, (consumeLoop takes q.jobs q.readHead q.size).2⟩ : Answer (Option α)) = _
    rw [hne, hloop]
    rfl

end Calls

def Answer.map {β γ : Type*} (f : β → γ) (a : Answer β) : Answer γ where
  result := a.result
  handed := a.handed.map f

/-- What the queue is for: an unbounded list, jobs enter at its end and leave at its front. -/
def fifoCall (l : List α) : Call α → List α × Answer α
  | .push job => (l ++ [job], ⟨none, []⟩)
  | .pushBatch jobs => (l ++ jobs, ⟨none, []⟩)
  | .consumeOne _ => (l.tail, ⟨some (!l.isEmpty), l.head?.toList⟩)
  | .consumeAll _ => ([], ⟨some (!l.isEmpty), l⟩)
  | .empty => (l, ⟨some l.isEmpty, []⟩)

/-- The queue holds the jobs of the list, and whatever is called next, it answers as the list. -/
structure BehavesAsFifo (q : JobLockQueue α) (l : List α) : Prop where
  ring : RingInv q
  contents : q.contents = l.map some
  answers : ∀ c, (q.call c).2 = (fifoCall l c).2.map some

/-- A queue and the list it stands for take the same calls. -/
def system : TransitionSystem (JobLockQueue α × List α) (Call α) where
  init s := ∃ initCapacity, s = (make initCapacity, [])
  step s c := some ((s.1.call c).1, (fifoCall s.2 c).1)

/-- What a call asks `ExpandUnsafe` for. -/
def Call.targetCapacity (size : ℕ) : Call α → ℕ
  | .push _ => size + 1
  | .pushBatch jobs => size + jobs.length
  | .consumeOne _ | .consumeAll _ | .empty => 0

section Fifo
variable {q : JobLockQueue α} {l : List α}

theorem behavesAsFifo_of_contents (hring : RingInv q) (hc : q.contents = l.map some) :
    BehavesAsFifo q l := by
  refine ⟨hring, hc, fun c => ?_⟩
  have hempty : q.contents.isEmpty = l.isEmpty := by
    rw [hc]
    cases l <;> rfl
  cases c with
  | push job => rfl
  | pushBatch jobs => rfl
  | consumeOne takes =>
    show (q.consumeOne takes).2 = _
    rw [(consumeOne_spec hring takes).2.2, hempty, hc]
    cases l <;> rfl
  | consumeAll takes =>
    show (q.consumeAll takes).2 = _
    rw [(consumeAll_spec hring takes).2.2, hempty, hc]
    rfl
  | empty =>
    have hsize : q.size = l.length := by
      have hl : q.contents.length = q.size := length_ringContents _ _ _
      rw [← hl, hc, List.length_map]
    show (⟨some (q.size == 0), []⟩ : Answer (Option α)) = ⟨some l.isEmpty, []⟩
    rw [hsize]
    cases l <;> rfl

theorem push_eq_pushBatch (q : JobLockQueue α) (job : α) : q.push job = q.pushBatch [job] := rfl

/-- A push behaves as on the list exactly when growing loses no job. -/
theorem behavesAsFifo_pushBatch (h : BehavesAsFifo q l) (jobs : List α) :
    BehavesAsFifo (q.pushBatch jobs) (l ++ jobs) ↔ ¬ Overlaps q (q.size + jobs.length) := by
  have hring : RingInv (q.expandUnsafe (q.size + jobs.length)) := ringInv_expandUnsafe h.ring
  have hroom : (q.expandUnsafe (q.size + jobs.length)).size + jobs.length ≤
      (q.expandUnsafe (q.size + jobs.length)).jobs.length := by
    rw [size_expandUnsafe]
    exact le_length_expandUnsafe
  obtain ⟨hring', hcontents⟩ := pushAll hring jobs hroom
  rw [pushBatch_eq]
  constructor
  · intro hb ho
    have hnone := none_mem_contents_expandUnsafe h.ring ho
    have hmem : none ∈ (l ++ jobs).map some := by
      rw [← hb.contents, hcontents]
      exact List.mem_append_left _ hnone
    simp at hmem
  · intro hno
    apply behavesAsFifo_of_contents hring'
    rw [hcontents, contents_expandUnsafe h.ring hno, h.contents, List.map_append]

/-- What one call keeps. -/
theorem behavesAsFifo_call (h : BehavesAsFifo q l) (c : Call α) :
    BehavesAsFifo (q.call c).1 (fifoCall l c).1 ↔ ¬ Overlaps q (c.targetCapacity q.size) := by
  have hzero : ¬ Overlaps q 0 := fun ho => Nat.not_lt_zero _ ho.1
  cases c with
  | push job =>
    show BehavesAsFifo (q.push job) (l ++ [job]) ↔ _
    rw [push_eq_pushBatch]
    exact behavesAsFifo_pushBatch h [job]
  | pushBatch jobs => exact behavesAsFifo_pushBatch h jobs
  | consumeOne takes =>
    obtain ⟨hring, hcontents, -⟩ := consumeOne_spec h.ring takes
    refine iff_of_true (behavesAsFifo_of_contents hring ?_) hzero
    show (q.consumeOne takes).1.contents = l.tail.map some
    rw [hcontents, h.contents, List.map_tail]
  | consumeAll takes =>
    obtain ⟨hring, hcontents, -⟩ := consumeAll_spec h.ring takes
    exact iff_of_true (behavesAsFifo_of_contents hring hcontents) hzero
  | empty => exact iff_of_true h hzero

theorem behavesAsFifo_make (initCapacity : ℕ) :
    BehavesAsFifo (make initCapacity : JobLockQueue α) [] :=
  behavesAsFifo_of_contents (ringInv_make initCapacity) rfl

/-- Every list of calls can be performed. -/
theorem exec_system (s : JobLockQueue α × List α) (calls : List (Call α)) :
    ∃ t, system.exec s calls = some t := by
  induction calls generalizing s with
  | nil => exact ⟨s, rfl⟩
  | cons c calls ih => exact ih ((s.1.call c).1, (fifoCall s.2 c).1)

theorem statesMeet_behavesAsFifo (initCapacity : ℕ) (calls : List (Call α)) :
    system.StatesMeet (fun s => BehavesAsFifo s.1 s.2) (make initCapacity, []) calls ↔
      system.StepsMeet (fun s c => ¬ Overlaps s.1 (c.targetCapacity s.1.size))
        (make initCapacity, []) calls := by
  obtain ⟨t, ht⟩ := exec_system (make initCapacity, []) calls
  refine TransitionSystem.statesMeet_iff_stepsMeet (I := fun _ => True) (fun _ _ _ h _ => h) ?_
    trivial (behavesAsFifo_make initCapacity) ht
  intro u c v _ hu hv
  cases hv
  exact behavesAsFifo_call hu c

end Fifo

/-! Which capacities never lose a job. -/

def IsPowerOfTwoOrZero (n : ℕ) : Prop :=
  n = 0 ∨ ∃ k, n = 2 ^ k

section Capacity
variable {q : JobLockQueue α}

theorem ringInv_call (h : RingInv q) (c : Call α) : RingInv (q.call c).1 := by
  have hpush (jobs : List α) : RingInv (q.pushBatch jobs) := by
    rw [pushBatch_eq]
    refine (pushAll (ringInv_expandUnsafe h) jobs ?_).1
    rw [size_expandUnsafe]
    exact le_length_expandUnsafe
  cases c with
  | push job => exact hpush [job]
  | pushBatch jobs => exact hpush jobs
  | consumeOne takes => exact (consumeOne_spec h takes).1
  | consumeAll takes => exact (consumeAll_spec h takes).1
  | empty => exact h

theorem length_pushOnes (q : JobLockQueue α) (jobs : List α) :
    (jobs.foldl pushOne q).jobs.length = q.jobs.length := by
  induction jobs generalizing q with
  | nil => rfl
  | cons job jobs ih =>
    rw [List.foldl_cons, ih]
    simp [pushOne, writeJob]

theorem powerOfTwoOrZero_pushBatch (h : IsPowerOfTwoOrZero q.jobs.length) (jobs : List α) :
    IsPowerOfTwoOrZero (q.pushBatch jobs).jobs.length := by
  rw [pushBatch_eq, length_pushOnes, length_expandUnsafe]
  split_ifs
  · exact h
  · exact Or.inr ⟨_, rfl⟩

theorem length_consumeLoop (takes : α → Bool) (jobs : List (Option α)) (idx n : ℕ) :
    (consumeLoop takes jobs idx n).1.length = jobs.length := by
  induction n generalizing jobs idx with
  | zero => rfl
  | succ n ih =>
    simp only [consumeLoop]
    rw [ih, length_handOver]

theorem powerOfTwoOrZero_call (h : IsPowerOfTwoOrZero q.jobs.length) (c : Call α) :
    IsPowerOfTwoOrZero (q.call c).1.jobs.length := by
  cases c with
  | push job =>
    show IsPowerOfTwoOrZero (q.push job).jobs.length
    rw [push_eq_pushBatch]
    exact powerOfTwoOrZero_pushBatch h [job]
  | pushBatch jobs => exact powerOfTwoOrZero_pushBatch h jobs
  | consumeOne takes =>
    show IsPowerOfTwoOrZero (q.consumeOne takes).1.jobs.length
    unfold consumeOne
    split_ifs
    · exact h
    · show IsPowerOfTwoOrZero (handOver _ _ _).length
      rwa [length_handOver]
  | consumeAll takes =>
    show IsPowerOfTwoOrZero (q.consumeAll takes).1.jobs.length
    unfold consumeAll
    split_ifs
    · exact h
    · show IsPowerOfTwoOrZero (consumeLoop _ _ _ _).1.length
      rwa [length_consumeLoop]
  | empty => exact h

/-- A power of two at least doubles, which makes room for the whole tail. -/
theorem not_overlaps_of_powerOfTwo (h : IsPowerOfTwoOrZero q.jobs.length) (hring : RingInv q)
    (target : ℕ) : ¬ Overlaps q target := by
  rintro ⟨hlt, hw, hov⟩
  obtain ⟨hr, -⟩ := writeHead_of_wrapped hring hw
  rcases h with h | ⟨k, h⟩
  · omega
  · have hdouble := two_mul_le_bitCeil (h ▸ hlt)
    omega

/-- Between two powers of two the capacity does not double. -/
theorem bitCeil_succ_lt {n : ℕ} (h : ¬ IsPowerOfTwoOrZero n) : bitCeil (n + 1) < 2 * n := by
  obtain ⟨h0, hpow⟩ := not_or.mp h
  have h1 : 1 < n := by
    have hne : n ≠ 2 ^ 0 := fun hn => hpow ⟨0, hn⟩
    simp only [Nat.pow_zero] at hne
    omega
  have hclog : 0 < Nat.clog 2 n := Nat.clog_pos Nat.one_lt_two h1
  have hle : n ≤ 2 ^ Nat.clog 2 n := Nat.le_pow_clog Nat.one_lt_two n
  have hne : n ≠ 2 ^ Nat.clog 2 n := fun hn => hpow ⟨_, hn⟩
  have hbelow : 2 ^ (Nat.clog 2 n - 1) < n := Nat.pow_pred_clog_lt_self Nat.one_lt_two h1
  calc bitCeil (n + 1) ≤ 2 ^ Nat.clog 2 n := bitCeil_le (by omega)
    _ = 2 * 2 ^ (Nat.clog 2 n - 1) := by
      rw [Nat.mul_comm, ← Nat.pow_succ, Nat.succ_eq_add_one, Nat.sub_add_cancel hclog]
    _ < 2 * n := by omega

/-- A fresh queue filled to its capacity. -/
theorem exec_fill {initCapacity : ℕ} (job : α) {n : ℕ} (hn : n ≤ initCapacity) :
    ∃ q : JobLockQueue α, system.exec (make initCapacity, []) (List.replicate n (.push job)) =
        some (q, List.replicate n job) ∧
      RingInv q ∧ q.jobs.length = initCapacity ∧ q.readHead = 0 ∧ q.size = n := by
  induction n with
  | zero => exact ⟨make initCapacity, rfl, ringInv_make _, by simp [make], rfl, rfl⟩
  | succ n ih =>
    obtain ⟨q, hexec, hring, hlen, hr, hs⟩ := ih (by omega)
    have hkeep : q.expandUnsafe (q.size + 1) = q := by
      unfold expandUnsafe
      exact if_pos (by omega)
    refine ⟨q.pushOne job, ?_, ringInv_pushOne hring job (by omega), ?_, hr, ?_⟩
    · rw [List.replicate_succ', List.replicate_succ', TransitionSystem.exec_snoc]
      refine ⟨_, hexec, ?_⟩
      show some (q.push job, List.replicate n job ++ [job]) = _
      rw [push_eq, hkeep]
    · rw [← hlen]
      simp [pushOne, writeJob]
    · show q.size + 1 = n + 1
      rw [hs]

end Capacity

/-- The queue is a FIFO in every run in which no growth step overlaps, and in no other; it is one
in all runs exactly when its initial capacity is zero or a power of two. -/
theorem job_lock_queue_is_fifo [Inhabited α] (initCapacity : ℕ) :
    (∀ calls : List (Call α),
      system.StatesMeet (fun s => BehavesAsFifo s.1 s.2) (make initCapacity, []) calls ↔
        system.StepsMeet (fun s c => ¬ Overlaps s.1 (c.targetCapacity s.1.size))
          (make initCapacity, []) calls) ∧
    ((∀ calls : List (Call α),
      system.StatesMeet (fun s => BehavesAsFifo s.1 s.2) (make initCapacity, []) calls) ↔
        initCapacity = 0 ∨ ∃ k, initCapacity = 2 ^ k) := by
  refine ⟨statesMeet_behavesAsFifo initCapacity, ?_, ?_⟩
  · intro hall
    by_contra hcap
    -- with the other capacities, filling the queue and pushing once more overlaps
    obtain ⟨q, hexec, hring, hlen, hr, hs⟩ :=
      exec_fill (default : α) (Nat.le_refl initCapacity)
    have hsteps := (statesMeet_behavesAsFifo initCapacity _).mp
      (hall (List.replicate initCapacity (.push default) ++ [.push default]))
    obtain ⟨hno, -⟩ := hsteps.drop hexec
    have hpos : 0 < initCapacity := Nat.pos_of_ne_zero (not_or.mp hcap).1
    have hgrow := bitCeil_succ_lt hcap
    refine hno ⟨?_, ?_, ?_⟩
    · show q.jobs.length < q.size + 1
      omega
    · have hw : q.writeHead = 0 := by
        rw [hring.write, hr, hs, hlen, Nat.zero_add, Nat.mod_self]
      show ¬(q.readHead < q.writeHead ∨ q.size = 0)
      omega
    · show bitCeil (q.size + 1) - q.jobs.length < q.jobs.length - q.readHead
      rw [hs, hlen, hr]
      omega
  · intro hcap calls
    have hlen : (make initCapacity : JobLockQueue α).jobs.length = initCapacity := by simp [make]
    apply (statesMeet_behavesAsFifo initCapacity calls).mpr
    -- from a power of two every capacity is one, and then the old part fits into the new
    apply TransitionSystem.stepsMeet_of_invariant
      (I := fun s => RingInv s.1 ∧ IsPowerOfTwoOrZero s.1.jobs.length)
    · intro u c v hu hv
      cases hv
      exact ⟨ringInv_call hu.1 c, powerOfTwoOrZero_call hu.2 c⟩
    · intro u c hu
      exact not_overlaps_of_powerOfTwo hu.2 hu.1 _
    · exact ⟨ringInv_make initCapacity, by rw [hlen]; exact hcap⟩

/-- Three cells, four jobs: growing to four cells moves the first job over the second and third,
and two of the functors' jobs are empty. -/
theorem growing_loses_jobs :
    ¬ system.StatesMeet (fun s => BehavesAsFifo s.1 s.2) (make 3, [])
        [.push 1, .push 2, .push 3, .push 4] ∧
      ((([.push 1, .push 2, .push 3, .push 4] : List (Call ℕ)).foldl
        (fun q c => (q.call c).1) (make 3)).call (.consumeAll fun _ => true)).2.handed =
          [none, none, some 1, some 4] := by
  refine ⟨fun h => ?_, by decide⟩
  have hlast := (((((h.2 _ rfl).2 _ rfl).2 _ rfl).2 _ rfl)).contents
  exact absurd hlast (by decide)

end JobLockQueue
end CrisCore
