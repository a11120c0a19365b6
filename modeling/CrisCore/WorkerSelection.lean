import CrisCore.WorkerLoop

/-! Which worker is selected: the subscripts of `workers_` in `NotifyOneWorker`, `Steal`, `AddJob`
and `AddJobs`, each function giving those it performs in order. A value that was drawn is one of
`std::uniform_int_distribution(0, config_.thread_num_)`, both ends included. -/
namespace CrisCore.WorkerSelection
open WorkerLoop (Config)

/-- What the functions read of a runner. -/
structure Runner where
  config : Config
  readyForStealing : Bool
  /-- The pointer in `workers_` is set; behind the last worker, what memory happens to hold. -/
  worker : ℕ → Bool

namespace Runner
variable (r : Runner)

/-- The pointer is tested, and used if it is set. -/
def testAndUse (idx : ℕ) : List ℕ :=
  if r.worker idx then [idx, idx] else [idx]

def notifyOneWorker (drawn : ℕ) : List ℕ :=
  r.testAndUse drawn

/-- The loop of `Steal` from its turn `i` on, `turns` turns at most; `processes i` is what
`TryProcessOne` answers in turn `i`. -/
def stealLoop (processes : ℕ → Bool) (idx i : ℕ) : ℕ → List ℕ
  | 0 => []
  | turns + 1 =>
    let idx := if r.config.threadNum ≤ idx then idx - r.config.threadNum else idx
    if r.worker idx ∧ processes i then r.testAndUse idx
    else r.testAndUse idx ++ stealLoop processes ((idx + 1) % 2 ^ 64) (i + 1) turns

def steal (processes : ℕ → Bool) (drawn : ℕ) : List ℕ :=
  if r.readyForStealing then r.stealLoop processes drawn 0 r.config.threadNum else []

/-- `none` where the code divides by zero. -/
def workerIdx (schedulerHint : ℕ) : Option ℕ :=
  if schedulerHint < r.config.threadNum then some schedulerHint
  else if r.config.threadNum = 0 then none
  else some (schedulerHint % r.config.threadNum)

/-- `AddJob` and `AddJobs` differ in what they push only. A worker that is not set is an error
that is logged. -/
def schedule (schedulerHint drawn : ℕ) : Option (List ℕ) :=
  (r.workerIdx schedulerHint).map fun idx =>
    idx :: if r.worker idx ∧ r.readyForStealing = false then r.notifyOneWorker drawn else []

def addJob (schedulerHint drawn : ℕ) : Option (List ℕ) :=
  r.schedule schedulerHint drawn

def addJobs (schedulerHint drawn : ℕ) : Option (List ℕ) :=
  r.schedule schedulerHint drawn

/-- A worker of this runner gives its own index, any other thread draws. -/
def defaultSchedulerHint (currentThreadWorkerIndex : Option ℕ) (drawn : ℕ) : ℕ :=
  currentThreadWorkerIndex.getD drawn

end Runner

/-- The calls, with all that they draw and all that decides their branches. -/
inductive Call
  | notifyOneWorker (drawn : ℕ)
  | steal (processes : ℕ → Bool) (drawn : ℕ)
  | addJob (currentThreadWorkerIndex : Option ℕ) (drawn drawn' : ℕ)
  | addJobs (currentThreadWorkerIndex : Option ℕ) (drawn drawn' : ℕ)

namespace Call

def subscripts (r : Runner) : Call → Option (List ℕ)
  | notifyOneWorker drawn => some (r.notifyOneWorker drawn)
  | steal processes drawn => some (r.steal processes drawn)
  | addJob current drawn drawn' => r.addJob (Runner.defaultSchedulerHint current drawn) drawn'
  | addJobs current drawn drawn' => r.addJobs (Runner.defaultSchedulerHint current drawn) drawn'

/-- What the distribution guarantees. -/
def Drawn (r : Runner) : Call → Prop
  | notifyOneWorker drawn | steal _ drawn => drawn ≤ r.config.threadNum
  | addJob _ drawn drawn' | addJobs _ drawn drawn' =>
    drawn ≤ r.config.threadNum ∧ drawn' ≤ r.config.threadNum

/-- Every subscript is that of a worker. -/
def InRange (r : Runner) (c : Call) : Prop :=
  ∃ idxs, c.subscripts r = some idxs ∧ ∀ idx ∈ idxs, idx < r.config.threadNum

/-- `NotifyOneWorker` runs, by itself or from the other two, and draws the number of workers. -/
def NotifiesBehindLast (r : Runner) : Call → Prop
  | notifyOneWorker drawn => drawn = r.config.threadNum
  | steal _ _ => False
  | addJob current drawn drawn' | addJobs current drawn drawn' =>
    (∃ idx, r.workerIdx (Runner.defaultSchedulerHint current drawn) = some idx ∧
      r.worker idx = true) ∧ r.readyForStealing = false ∧ drawn' = r.config.threadNum

end Call

section Ranges
variable {r : Runner} {idx : ℕ}

theorem forall_mem_testAndUse (r : Runner) (idx : ℕ) (P : ℕ → Prop) :
    (∀ i ∈ r.testAndUse idx, P i) ↔ P idx := by
  unfold Runner.testAndUse
  split_ifs <;> simp

/-- The index is brought back below the number of workers before it is used, in every turn. -/
theorem stealLoop_lt (hn : 1 ≤ r.config.threadNum) (processes : ℕ → Bool) (i : ℕ) {turns : ℕ}
    (h : idx ≤ r.config.threadNum) :
    ∀ j ∈ r.stealLoop processes idx i turns, j < r.config.threadNum := by
  induction turns generalizing idx i with
  | zero => simp [Runner.stealLoop]
  | succ turns ih =>
    have hfit := r.config.threadNum_lt
    generalize hidx : (if r.config.threadNum ≤ idx then idx - r.config.threadNum else idx) = idx'
    have hlt : idx' < r.config.threadNum := by
      rw [← hidx]
      split_ifs <;> omega
    have hturn := (forall_mem_testAndUse r idx' (· < r.config.threadNum)).mpr hlt
    simp only [Runner.stealLoop, hidx]
    by_cases hstop : r.worker idx' = true ∧ processes i = true
    · rw [if_pos hstop]
      exact hturn
    · rw [if_neg hstop]
      intro j hj
      rcases List.mem_append.mp hj with hj | hj
      · exact hturn j hj
      · refine ih (i + 1) ?_ j hj
        rw [Nat.mod_eq_of_lt (by omega)]
        omega

theorem workerIdx_eq_some (hn : 1 ≤ r.config.threadNum) (schedulerHint : ℕ) :
    ∃ idx, r.workerIdx schedulerHint = some idx ∧ idx < r.config.threadNum := by
  unfold Runner.workerIdx
  split_ifs with hlt hzero
  · exact ⟨_, rfl, hlt⟩
  · omega
  · exact ⟨_, rfl, Nat.mod_lt _ hn⟩

theorem schedule_inRange (hn : 1 ≤ r.config.threadNum) {schedulerHint drawn : ℕ}
    (hdrawn : drawn ≤ r.config.threadNum) :
    (∃ idxs, r.schedule schedulerHint drawn = some idxs ∧
      ∀ idx ∈ idxs, idx < r.config.threadNum) ↔
    ¬ ((∃ idx, r.workerIdx schedulerHint = some idx ∧ r.worker idx = true) ∧
      r.readyForStealing = false ∧ drawn = r.config.threadNum) := by
  obtain ⟨idx, hidx, hlt⟩ := workerIdx_eq_some hn schedulerHint
  unfold Runner.schedule
  simp only [hidx, Option.map_some, Option.some.injEq, exists_eq_left', List.forall_mem_cons]
  by_cases hnotify : r.worker idx = true ∧ r.readyForStealing = false
  · rw [if_pos hnotify, Runner.notifyOneWorker, forall_mem_testAndUse]
    constructor
    · rintro ⟨-, hd⟩ ⟨-, -, heq⟩
      omega
    · intro hno
      have hne : drawn ≠ r.config.threadNum := fun heq => hno ⟨hnotify.1, hnotify.2, heq⟩
      exact ⟨hlt, by omega⟩
  · rw [if_neg hnotify]
    constructor
    · rintro - ⟨hw, hready, -⟩
      exact hnotify ⟨hw, hready⟩
    · intro _
      exact ⟨hlt, by simp⟩

end Ranges

/-- Of the values drawn only one leads out of `workers_`: the number of workers, in
`NotifyOneWorker`. `Steal` wraps it around and the other two reduce it. -/
theorem selection_in_range_iff {r : Runner} {c : Call} (hn : 1 ≤ r.config.threadNum)
    (hdrawn : c.Drawn r) : c.InRange r ↔ ¬ c.NotifiesBehindLast r := by
  cases c with
  | notifyOneWorker drawn =>
    have hle : drawn ≤ r.config.threadNum := hdrawn
    have hall := forall_mem_testAndUse r drawn (· < r.config.threadNum)
    simp only [Call.InRange, Call.subscripts, Call.NotifiesBehindLast, Runner.notifyOneWorker,
      Option.some.injEq, exists_eq_left', hall]
    omega
  | steal processes drawn =>
    refine iff_of_true ⟨_, rfl, ?_⟩ not_false
    unfold Runner.steal
    split_ifs
    · exact stealLoop_lt hn processes 0 hdrawn
    · simp
  | addJob current drawn drawn' => exact schedule_inRange hn hdrawn.2
  | addJobs current drawn drawn' => exact schedule_inRange hn hdrawn.2

/-- One worker, and the value drawn is one. -/
def oneWorker : Runner where
  config := WorkerLoop.oneWorker
  readyForStealing := true
  worker := fun idx => idx == 0

/-- The two values drawn lead to one subscript each: worker zero and a worker that is not there. -/
theorem steal_in_range_from_one :
    (Call.steal (fun _ => false) 1).InRange oneWorker ∧
      ¬ (Call.notifyOneWorker 1).InRange oneWorker := by
  have hsteal := selection_in_range_iff (r := oneWorker) (c := .steal (fun _ => false) 1)
    (Nat.le_refl 1) (Nat.le_refl 1)
  have hnotify := selection_in_range_iff (r := oneWorker) (c := .notifyOneWorker 1)
    (Nat.le_refl 1) (Nat.le_refl 1)
  exact ⟨hsteal.mpr not_false, fun h => hnotify.mp h rfl⟩

theorem notify_behind_last_worker :
    ¬ ∀ (r : Runner) (c : Call), 1 ≤ r.config.threadNum → c.Drawn r → c.InRange r := by
  intro hall
  obtain ⟨idxs, hidxs, hlt⟩ :=
    hall oneWorker (.notifyOneWorker 1) (Nat.le_refl 1) (Nat.le_refl 1)
  cases hidxs
  exact absurd (hlt 1 (by decide)) (by decide)

end CrisCore.WorkerSelection
