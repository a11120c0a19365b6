import CrisCore.WorkerSelection
import Mathlib.Data.List.Rotate

/-! `JobRunner::Steal` with the jobs that it finds: one pass over the queues of the workers, which
nobody else changes meanwhile. `WorkerSelection` has the subscripts of the same loop. -/
namespace CrisCore.StealPass
open WorkerLoop (Config)
variable {Job : Type*}

structure Runner (Job : Type*) where
  config : Config
  readyForStealing : Bool
  /-- `workers_`: the jobs in `job_queue_` of each worker, the next one first. -/
  workers : ℕ → Option (List Job)
  /-- The constructor sets the flag when it has made the workers. -/
  workers_set : readyForStealing = true → ∀ idx < config.threadNum, (workers idx).isSome = true

namespace Runner

/-- The queue of a worker that has one, changed. -/
def setQueue (r : Runner Job) (idx : ℕ) (queue : List Job) : Runner Job where
  config := r.config
  readyForStealing := r.readyForStealing
  workers := Function.update r.workers idx (some queue)
  workers_set hready j hj := by
    by_cases hne : j = idx
    · simp [hne]
    · rw [Function.update_of_ne hne]
      exact r.workers_set hready j hj

end Runner

/-- What a call of `Steal` has done when it returns. -/
structure Outcome (Job : Type*) where
  /-- The workers it called `TryProcessOne` on, in order. -/
  probed : List ℕ
  processed : List Job
  runner : Runner Job
  result : Bool

/-- `TryGetOneJob` on a worker with this queue. -/
def tryGetOneJob (r : Runner Job) (idx : ℕ) : List Job → Option (Job × Runner Job)
  | [] => none
  | job :: rest => some (job, r.setQueue idx rest)

variable (runs : Job → Runner Job → Runner Job)

/-- The loop of `Steal`, `turns` turns before its end; `runs` is what a job does to the runner. -/
def stealLoop (r : Runner Job) (idx : ℕ) : ℕ → Outcome Job
  | 0 => ⟨[], [], r, false⟩
  | turns + 1 =>
    let idx := if r.config.threadNum ≤ idx then idx - r.config.threadNum else idx
    match r.workers idx with
    -- unexpectedly uninitialized: continue
    | none => stealLoop r ((idx + 1) % 2 ^ 64) turns
    | some queue =>
      match tryGetOneJob r idx queue with
      | some (job, r') => ⟨[idx], [job], runs job r', true⟩
      | none =>
        let rest := stealLoop r ((idx + 1) % 2 ^ 64) turns
        { rest with probed := idx :: rest.probed }

/-- `drawn` is the start value. -/
def steal (r : Runner Job) (drawn : ℕ) : Outcome Job :=
  if r.readyForStealing then stealLoop runs r drawn r.config.threadNum else ⟨[], [], r, false⟩

/-- The numbers below `n` in their cyclic order, from `k` modulo `n` on. -/
def cyclicOrder (n k : ℕ) : List ℕ :=
  (List.range n).rotate k

section Order
variable {n k idx : ℕ}

theorem cyclicOrder_perm (n k : ℕ) : (cyclicOrder n k).Perm (List.range n) :=
  List.rotate_perm _ k

theorem mem_cyclicOrder : idx ∈ cyclicOrder n k ↔ idx < n := by
  rw [(cyclicOrder_perm n k).mem_iff, List.mem_range]

theorem cyclicOrder_eq (n k : ℕ) : cyclicOrder n k = (List.range' k n).map (· % n) := by
  apply List.ext_getElem
  · simp [cyclicOrder]
  · intro i h _
    simp [cyclicOrder, List.getElem_rotate, Nat.add_comm]

/-- The wrap of the loop is the remainder, as the index never goes further than to `n`. -/
theorem wrap_eq_mod (hidx : idx ≤ n) : (if n ≤ idx then idx - n else idx) = idx % n := by
  split_ifs with h
  · have heq : idx = n := Nat.le_antisymm hidx h
    rw [heq, Nat.sub_self, Nat.mod_self]
  · rw [Nat.mod_eq_of_lt (by omega)]

/-- The places of the turns to come, from the index after the wrap. -/
theorem range'_mod_succ (idx turns n : ℕ) :
    (List.range' idx (turns + 1)).map (· % n) =
      idx % n :: (List.range' (idx % n + 1) turns).map (· % n) := by
  rw [List.range'_succ, List.map_cons, List.cons.injEq]
  refine ⟨rfl, List.ext_getElem (by simp) fun i h _ => ?_⟩
  simp [Nat.add_assoc, Nat.mod_add_mod]

end Order

section Loop
variable {runs} {r : Runner Job} {idx : ℕ}

/-- One turn on a worker whose queue is known. -/
theorem stealLoop_succ (hn : 1 ≤ r.config.threadNum) (hidx : idx ≤ r.config.threadNum)
    (turns : ℕ) {queue : List Job} (hqueue : r.workers (idx % r.config.threadNum) = some queue) :
    stealLoop runs r idx (turns + 1) =
      match tryGetOneJob r (idx % r.config.threadNum) queue with
      | some (job, r') => ⟨[idx % r.config.threadNum], [job], runs job r', true⟩
      | none =>
        let rest := stealLoop runs r (idx % r.config.threadNum + 1) turns
        { rest with probed := idx % r.config.threadNum :: rest.probed } := by
  have hfit := r.config.threadNum_lt
  have hlt := Nat.mod_lt idx hn
  simp only [stealLoop, wrap_eq_mod hidx, hqueue]
  rw [Nat.mod_eq_of_lt (a := idx % r.config.threadNum + 1) (by omega)]

/-- Nothing but empty queues ahead. -/
theorem stealLoop_of_empty (hn : 1 ≤ r.config.threadNum) (hidx : idx ≤ r.config.threadNum)
    {turns : ℕ}
    (hempty : ∀ j ∈ (List.range' idx turns).map (· % r.config.threadNum), r.workers j = some []) :
    stealLoop runs r idx turns =
      ⟨(List.range' idx turns).map (· % r.config.threadNum), [], r, false⟩ := by
  induction turns generalizing idx with
  | zero => rfl
  | succ turns ih =>
    rw [range'_mod_succ] at hempty ⊢
    have hlt : idx % r.config.threadNum + 1 ≤ r.config.threadNum := Nat.mod_lt idx hn
    have hnext := ih hlt
      fun j hj => hempty j (List.mem_cons_of_mem _ hj)
    rw [stealLoop_succ hn hidx turns (hempty _ List.mem_cons_self), tryGetOneJob, hnext]

/-- The first queue that is not empty ends the loop. -/
theorem stealLoop_of_first (hn : 1 ≤ r.config.threadNum) (hidx : idx ≤ r.config.threadNum)
    {turns first : ℕ} {pre post : List ℕ} {job : Job} {rest : List Job}
    (horder : (List.range' idx turns).map (· % r.config.threadNum) = pre ++ first :: post)
    (hempty : ∀ j ∈ pre, r.workers j = some []) (hfirst : r.workers first = some (job :: rest)) :
    stealLoop runs r idx turns =
      ⟨pre ++ [first], [job], runs job (r.setQueue first rest), true⟩ := by
  induction turns generalizing idx pre with
  | zero => simp at horder
  | succ turns ih =>
    rw [range'_mod_succ] at horder
    cases pre with
    | nil =>
      obtain ⟨hhead, -⟩ := List.cons.inj horder
      subst hhead
      rw [stealLoop_succ hn hidx turns hfirst]
      rfl
    | cons j pre =>
      obtain ⟨hhead, htail⟩ := List.cons.inj horder
      subst hhead
      have hlt : idx % r.config.threadNum + 1 ≤ r.config.threadNum := Nat.mod_lt idx hn
      have hnext := ih hlt htail
        fun i hi => hempty i (List.mem_cons_of_mem _ hi)
      rw [stealLoop_succ hn hidx turns (hempty _ List.mem_cons_self), tryGetOneJob, hnext]
      rfl

end Loop

section Pass
variable {r : Runner Job} {k : ℕ}

theorem steal_of_ready (hready : r.readyForStealing = true) (k : ℕ) :
    steal runs r k = stealLoop runs r k r.config.threadNum :=
  if_pos hready

/-- Some queue is not empty: there is a first one in the cyclic order. -/
theorem exists_first_queue (hready : r.readyForStealing = true)
    (hsome : ∃ idx < r.config.threadNum, r.workers idx ≠ some []) (k : ℕ) :
    ∃ pre first post job rest, cyclicOrder r.config.threadNum k = pre ++ first :: post ∧
      (∀ j ∈ pre, r.workers j = some []) ∧ r.workers first = some (job :: rest) := by
  classical
  obtain ⟨idx, hlt, hidx⟩ := hsome
  obtain ⟨first, hfind⟩ : ∃ first, (cyclicOrder r.config.threadNum k).find?
      (fun j => decide (r.workers j ≠ some [])) = some first := by
    apply Option.isSome_iff_exists.mp
    rw [List.find?_isSome]
    exact ⟨idx, mem_cyclicOrder.mpr hlt, decide_eq_true hidx⟩
  obtain ⟨hne, pre, post, horder, hpre⟩ := List.find?_eq_some_iff_append.mp hfind
  have hmem : first ∈ cyclicOrder r.config.threadNum k := List.mem_of_find?_eq_some hfind
  obtain ⟨queue, hqueue⟩ :=
    Option.isSome_iff_exists.mp (r.workers_set hready first (mem_cyclicOrder.mp hmem))
  cases queue with
  | nil => simp [hqueue] at hne
  | cons job rest =>
    refine ⟨pre, first, post, job, rest, horder, fun j hj => ?_, hqueue⟩
    simpa using hpre j hj

/-- A pass of a ready runner from any start value: the head of the first queue that is not empty
runs and the pass ends there, or every worker is probed once and nothing changes. -/
theorem steal_makes_one_pass (runs : Job → Runner Job → Runner Job) (r : Runner Job)
    (hready : r.readyForStealing = true) (hn : 1 ≤ r.config.threadNum)
    (hk : k ≤ r.config.threadNum) :
    ((∃ idx < r.config.threadNum, r.workers idx ≠ some []) →
      ∃ pre first post job rest, cyclicOrder r.config.threadNum k = pre ++ first :: post ∧
        (∀ j ∈ pre, r.workers j = some []) ∧ r.workers first = some (job :: rest) ∧
        steal runs r k = ⟨pre ++ [first], [job], runs job (r.setQueue first rest), true⟩) ∧
    ((∀ idx < r.config.threadNum, r.workers idx = some []) →
      (steal runs r k).probed.Perm (List.range r.config.threadNum) ∧
        (steal runs r k).processed = [] ∧ (steal runs r k).runner = r ∧
        (steal runs r k).result = false) := by
  rw [steal_of_ready runs hready]
  constructor
  · intro hsome
    obtain ⟨pre, first, post, job, rest, horder, hpre, hfirst⟩ :=
      exists_first_queue hready hsome k
    refine ⟨pre, first, post, job, rest, horder, hpre, hfirst, ?_⟩
    rw [cyclicOrder_eq] at horder
    exact stealLoop_of_first hn hk horder hpre hfirst
  · intro hempty
    have horder : ∀ j ∈ (List.range' k r.config.threadNum).map (· % r.config.threadNum),
        r.workers j = some [] := by
      intro j hj
      rw [← cyclicOrder_eq] at hj
      exact hempty j (mem_cyclicOrder.mp hj)
    rw [stealLoop_of_empty hn hk horder, ← cyclicOrder_eq]
    exact ⟨cyclicOrder_perm _ k, rfl, rfl, rfl⟩

/-- Three workers, the last one with two jobs. -/
def threeWorkers : Runner ℕ where
  config := ⟨3, 0, 0, by decide⟩
  readyForStealing := true
  workers := fun idx => some (if idx = 2 then [7, 8] else [])
  workers_set := fun _ _ _ => rfl

/-- The start value is the number of workers: the pass begins at worker zero. -/
theorem steal_makes_one_pass_from_three :
    ∃ pre first post job rest, cyclicOrder 3 3 = pre ++ first :: post ∧
      (∀ j ∈ pre, threeWorkers.workers j = some []) ∧
      threeWorkers.workers first = some (job :: rest) ∧
      steal (fun _ r => r) threeWorkers 3 =
        ⟨pre ++ [first], [job], threeWorkers.setQueue first rest, true⟩ :=
  (steal_makes_one_pass (fun _ r => r) threeWorkers rfl (by decide) (by decide)).1
    ⟨2, by decide, by decide⟩

end Pass

section Subscripts
variable {r : Runner Job} {idx k : ℕ}

/-- What `WorkerSelection` looks at. -/
def Runner.selection (r : Runner Job) : WorkerSelection.Runner where
  config := r.config
  readyForStealing := r.readyForStealing
  worker := fun idx => (r.workers idx).isSome

theorem selection_stealLoop (hready : r.readyForStealing = true) (hn : 1 ≤ r.config.threadNum)
    {processes : ℕ → Bool} {i turns : ℕ} (hidx : idx ≤ r.config.threadNum)
    (hprocesses : ∀ t < turns, processes (i + t) = true ↔
      r.workers ((idx + t) % r.config.threadNum) ≠ some []) :
    r.selection.stealLoop processes idx i turns =
      (stealLoop runs r idx turns).probed.flatMap fun j => [j, j] := by
  induction turns generalizing idx i with
  | zero => rfl
  | succ turns ih =>
    have hlt : idx % r.config.threadNum + 1 ≤ r.config.threadNum := Nat.mod_lt idx hn
    have hfit := r.config.threadNum_lt
    obtain ⟨queue, hqueue⟩ := Option.isSome_iff_exists.mp (r.workers_set hready _ hlt)
    have hset : r.selection.worker (idx % r.config.threadNum) = true := by
      simp [Runner.selection, hqueue]
    have hfirst := hprocesses 0 turns.succ_pos
    have hrest := ih (i := i + 1) hlt fun t ht => by
      rw [Nat.add_assoc, Nat.add_assoc, Nat.mod_add_mod]
      rw [Nat.add_comm 1 t]
      exact hprocesses (t + 1) (Nat.succ_lt_succ ht)
    rw [Nat.add_zero, Nat.add_zero, hqueue] at hfirst
    rw [stealLoop_succ hn hidx turns hqueue]
    have hwrap : (if r.selection.config.threadNum ≤ idx then idx - r.selection.config.threadNum
        else idx) = idx % r.config.threadNum := wrap_eq_mod hidx
    simp only [WorkerSelection.Runner.stealLoop, WorkerSelection.Runner.testAndUse, hwrap, hset]
    rw [Nat.mod_eq_of_lt (a := idx % r.config.threadNum + 1) (by omega), hrest]
    cases queue with
    | nil =>
      have hno : ¬ processes i = true := fun h => hfirst.mp h rfl
      simp [hno, tryGetOneJob]
    | cons job rest =>
      have hyes : processes i = true := hfirst.mpr (by simp)
      simp [hyes, tryGetOneJob]

/-- Every worker that is probed is the subscript of the test and of the use of its pointer. -/
theorem selection_steal (hready : r.readyForStealing = true) (hn : 1 ≤ r.config.threadNum)
    (hk : k ≤ r.config.threadNum) {processes : ℕ → Bool}
    (hprocesses : ∀ t < r.config.threadNum, processes t = true ↔
      r.workers ((k + t) % r.config.threadNum) ≠ some []) :
    r.selection.steal processes k = (steal runs r k).probed.flatMap fun j => [j, j] := by
  rw [steal_of_ready runs hready, WorkerSelection.Runner.steal, Runner.selection, if_pos hready]
  exact selection_stealLoop runs hready hn hk fun t ht => by
    rw [Nat.zero_add]
    exact hprocesses t ht

end Subscripts

section Promise
open WorkerLoop (State Action Enabled next system)

/-- Ready for stealing means that the constructor has made all workers. -/
def ReadyCreated (s : State) : Prop :=
  s.readyForStealing = true → s.created = s.config.threadNum

theorem readyCreated_next {s : State} {e : Action} (he : Enabled s e) (h : ReadyCreated s) :
    ReadyCreated (next s e) := by
  cases e with
  | createWorker =>
    intro hready
    have hfull : s.created = s.config.threadNum := h hready
    have hroom : s.created < s.config.threadNum := he
    omega
  | setReadyForStealing ready => exact he
  | tryProcessOne i =>
    simp only [next, State.takeJob]
    split_ifs <;> exact h
  | scan i idx tried =>
    simp only [next, State.takeJob]
    split_ifs <;> exact h
  | checkTime i now now' =>
    simp only [next]
    split_ifs <;> exact h
  | testShutdown i =>
    simp only [next]
    split_ifs <;> exact h
  | _ => exact h

theorem readyCreated_of_reachable {s : State} (h : system.Reachable s) : ReadyCreated s := by
  refine h.invariant ?_ ?_
  · intro s hinit
    obtain ⟨config, rfl⟩ := hinit
    exact fun hready => Bool.noConfusion hready
  · intro s e t hinv hstep
    obtain ⟨he, rfl⟩ := WorkerLoop.step_eq_some.mp hstep
    exact readyCreated_next he hinv

/-- The runner of a reachable state of the workers, its queues filled with `jobs`. -/
def Runner.ofReachable {s : State} (h : system.Reachable s) (jobs : ℕ → List Job) : Runner Job where
  config := s.config
  readyForStealing := s.readyForStealing
  workers := fun idx => if idx < s.created then some (jobs idx) else none
  workers_set hready idx hidx := by
    rw [← readyCreated_of_reachable h hready] at hidx
    simp [hidx]

end Promise

end CrisCore.StealPass
