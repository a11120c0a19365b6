import CrisCore.TransitionSystem
import Mathlib.Logic.Function.Basic

/-! `HybridSpinMutex`, which any number of threads lock, try to lock and unlock. Each access to its flag
is a step, and a thread unlocks the mutex only when it has it. -/
namespace CrisCore

/-- A mutex as its users see it. -/
inductive Mutex (θ : Type*)
  | free
  | taken (owner : θ)

namespace Mutex
variable {θ : Type*}

inductive Op (θ : Type*)
  | acquire (t : θ)
  | release (t : θ)

inductive Step : Mutex θ → Op θ → Mutex θ → Prop
  | acquire (t : θ) : Step free (.acquire t) (taken t)
  | release (t : θ) : Step (taken t) (.release t) free

/-- The operations lead from one state to the other. -/
inductive Run : Mutex θ → List (Op θ) → Mutex θ → Prop
  | nil (m : Mutex θ) : Run m [] m
  | snoc {m m' m'' : Mutex θ} {ops : List (Op θ)} {op : Op θ} (h : Run m ops m')
      (hs : Step m' op m'') : Run m (ops ++ [op]) m''

end Mutex

namespace HybridSpinMutex
variable {θ : Type*}

def kSpinningCheckLimit : ℕ := 500

/-- Where a thread stands: in the rounds of `lock` before the test and before the pause, in the loop
behind them before the test and before it yields, in `try_lock`, and with the mutex. -/
inductive Pc
  | outside
  | spinning (i : ℕ)
  | pausing (i : ℕ)
  | waiting
  | yielding
  | trying
  | owning
  | unlocking
  deriving DecidableEq

namespace Pc

def owns : Pc → Bool
  | owning | unlocking => true
  | _ => false

/-- In `lock`. -/
def locks : Pc → Bool
  | spinning _ | pausing _ | waiting | yielding => true
  | _ => false

/-- The next step is the one of `try_lock`. -/
def tests : Pc → Bool
  | spinning i => i < kSpinningCheckLimit
  | waiting | trying => true
  | _ => false

end Pc

structure State (θ : Type*) where
  locked : Bool
  pc : θ → Pc

def initial : State θ where
  locked := false
  pc _ := .outside

inductive Action (θ : Type*)
  | lock (t : θ)
  | tryLock (t : θ)
  | unlock (t : θ)
  | go (t : θ)

/-- The flag says whether the mutex is taken, and the threads which one has it. -/
structure State.Represents (s : State θ) (m : Mutex θ) : Prop where
  locked : s.locked = false ↔ m = .free
  owner : ∀ t, (s.pc t).owns = true ↔ m = .taken t

theorem initial_represents : (initial : State θ).Represents .free where
  locked := ⟨fun _ => rfl, fun _ => rfl⟩
  owner t := by
    have hnot : ((initial : State θ).pc t).owns = false := rfl
    rw [hnot]
    constructor <;> exact fun h => nomatch h

section Steps
variable [DecidableEq θ]

namespace State

def setPc (s : State θ) (t : θ) (p : Pc) : State θ :=
  { s with pc := Function.update s.pc t p }

/-- `try_lock`; `failed` is where a thread goes on that has not got the mutex. -/
def tryLock (s : State θ) (t : θ) (failed : Pc) : State θ :=
  if s.locked then s.setPc t failed else { s.setPc t .owning with locked := true }

def go (s : State θ) (t : θ) : Pc → Option (State θ)
  | .spinning i =>
    -- behind the last round `lock` goes on in its other loop
    some (if i < kSpinningCheckLimit then s.tryLock t (.pausing i) else s.setPc t .waiting)
  | .pausing i => some (s.setPc t (.spinning (i + 1)))
  | .waiting => some (s.tryLock t .yielding)
  | .yielding => some (s.setPc t .waiting)
  | .trying => some (s.tryLock t .outside)
  | .unlocking => some { s.setPc t .outside with locked := false }
  | .outside | .owning => none

def next (s : State θ) : Action θ → Option (State θ)
  | .lock t => if s.pc t = .outside then some (s.setPc t (.spinning 0)) else none
  | .tryLock t => if s.pc t = .outside then some (s.setPc t .trying) else none
  | .unlock t => if s.pc t = .owning then some (s.setPc t .unlocking) else none
  | .go t => s.go t (s.pc t)

end State

def system : TransitionSystem (State θ) (Action θ) where
  init s := s = initial
  step := State.next

/-- All that a step does: a thread goes on with or without the mutex as before, takes it, or frees
it. -/
inductive Step (s : State θ) : State θ → Prop
  | goesOn {t : θ} {p : Pc} (h : p.owns = (s.pc t).owns) : Step s (s.setPc t p)
  | acquire {t : θ} (hfree : s.locked = false) :
      Step s { s.setPc t .owning with locked := true }
  | release {t : θ} (h : s.pc t = .unlocking) :
      Step s { s.setPc t .outside with locked := false }

variable {s s' : State θ} {t : θ}

theorem step_tryLock {failed : Pc} (h : failed.owns = (s.pc t).owns) :
    Step s (s.tryLock t failed) := by
  unfold State.tryLock
  split_ifs with hlocked
  · exact .goesOn h
  · exact .acquire (Bool.eq_false_iff.mpr hlocked)

theorem step_go {p : Pc} (hp : s.pc t = p) (hs : s.go t p = some s') : Step s s' := by
  cases p with
  | spinning i =>
    cases hs
    split_ifs
    · exact step_tryLock (by rw [hp]; rfl)
    · exact .goesOn (by rw [hp]; rfl)
  | pausing i =>
    cases hs
    exact .goesOn (by rw [hp]; rfl)
  | waiting | trying =>
    cases hs
    exact step_tryLock (by rw [hp]; rfl)
  | yielding =>
    cases hs
    exact .goesOn (by rw [hp]; rfl)
  | unlocking =>
    cases hs
    exact .release hp
  | outside | owning => cases hs

theorem step_of_next {a : Action θ} (hs : s.next a = some s') : Step s s' := by
  cases a with
  | go t => exact step_go rfl hs
  | _ =>
    obtain ⟨hp, heq⟩ := Option.ite_none_right_eq_some.mp hs
    cases heq
    exact .goesOn (by rw [hp]; rfl)

theorem setPc_self (s : State θ) (t : θ) (p : Pc) : (s.setPc t p).pc t = p :=
  Function.update_self ..

theorem owns_setPc (s : State θ) (t : θ) (p : Pc) (u : θ) :
    ((s.setPc t p).pc u).owns = if u = t then p.owns else (s.pc u).owns := by
  by_cases hu : u = t
  · rw [hu, if_pos rfl, setPc_self]
  · rw [if_neg hu]
    exact congrArg Pc.owns (Function.update_of_ne hu ..)

/-- A step of the threads is one of the mutex, or none. -/
theorem step_simulates {m : Mutex θ} (h : s.Represents m) (hs : Step s s') :
    s'.Represents m ∨ ∃ op m', Mutex.Step m op m' ∧ s'.Represents m' := by
  cases hs with
  | @goesOn t p howns =>
    refine .inl ⟨h.locked, fun u => ?_⟩
    rw [owns_setPc, ← h.owner u]
    split_ifs with hu
    · rw [hu, howns]
    · rfl
  | @acquire t hfree =>
    have hm := h.locked.mp hfree
    subst hm
    refine .inr ⟨.acquire t, .taken t, .acquire t, by simp, fun u => ?_⟩
    refine (Bool.eq_iff_iff.mp (owns_setPc s t .owning u)).trans ?_
    split_ifs with hu
    · simp [hu, Pc.owns]
    · have hold := h.owner u
      constructor
      · exact fun howns => nomatch hold.mp howns
      · intro heq
        cases heq
        exact absurd rfl hu
  | @release t ht =>
    have hm : m = .taken t := (h.owner t).mp (by rw [ht]; rfl)
    subst hm
    refine .inr ⟨.release t, .free, .release t, by simp, fun u => ?_⟩
    refine (Bool.eq_iff_iff.mp (owns_setPc s t .outside u)).trans ?_
    split_ifs with hu
    · simp [Pc.owns]
    · have hold := h.owner u
      constructor
      · intro howns
        cases hold.mp howns
        exact absurd rfl hu
      · exact fun heq => nomatch heq

theorem run_simulates (h : system.Reachable s) :
    ∃ ops m, Mutex.Run .free ops m ∧ s.Represents m := by
  refine h.invariant (P := fun s => ∃ ops m, Mutex.Run .free ops m ∧ s.Represents m) ?_ ?_
  · rintro s rfl
    exact ⟨[], .free, .nil .free, initial_represents⟩
  · rintro u a v ⟨ops, m, hrun, hu⟩ hs
    rcases step_simulates hu (step_of_next hs) with hv | ⟨op, m', hop, hv⟩
    · exact ⟨ops, m, hrun, hv⟩
    · exact ⟨ops ++ [op], m', hrun.snoc hop, hv⟩

theorem owns_tryLock (s : State θ) (t : θ) {failed : Pc} (hfailed : failed.owns = false) :
    ((s.tryLock t failed).pc t).owns = true ↔ s.locked = false := by
  unfold State.tryLock
  split_ifs with hlocked
  · rw [setPc_self, hfailed, hlocked]
    simp
  · refine iff_of_true ?_ (Bool.eq_false_iff.mpr hlocked)
    exact congrArg Pc.owns (setPc_self s t .owning)

/-- The test gets the mutex exactly when it is free. -/
theorem owns_of_tests (ht : (s.pc t).tests = true) (hs : s.next (.go t) = some s') :
    (s'.pc t).owns = true ↔ s.locked = false := by
  have hs : s.go t (s.pc t) = some s' := hs
  cases hp : s.pc t with
  | spinning i =>
    rw [hp] at hs ht
    have hlt : i < kSpinningCheckLimit := of_decide_eq_true ht
    rw [State.go, if_pos hlt] at hs
    cases hs
    exact owns_tryLock s t rfl
  | waiting | trying =>
    rw [hp] at hs
    cases hs
    exact owns_tryLock s t rfl
  | _ =>
    rw [hp] at ht
    cases ht

theorem exists_test (ht : (s.pc t).tests = true) : ∃ s', s.next (.go t) = some s' := by
  change ∃ s', s.go t (s.pc t) = some s'
  cases hp : s.pc t with
  | spinning | waiting | trying => exact ⟨_, rfl⟩
  | _ =>
    rw [hp] at ht
    cases ht

/-- Left alone in `lock`, a thread is at a test after two steps at most. -/
theorem exists_run_to_test (ht : (s.pc t).locks = true) :
    ∃ n ≤ 2, ∃ s', system.exec s (List.replicate n (.go t)) = some s' ∧
      (s'.pc t).tests = true ∧ s'.locked = s.locked := by
  have hgo {u v : State θ} {p : Pc} (hp : u.pc t = p) (h : u.go t p = some v) :
      system.step u (.go t) = some v := by
    show u.go t (u.pc t) = some v
    rw [hp, h]
  have hrounds {u : State θ} {i : ℕ} (hp : u.pc t = .spinning i) :
      ∃ n ≤ 1, ∃ s', system.exec u (List.replicate n (.go t)) = some s' ∧
        (s'.pc t).tests = true ∧ s'.locked = u.locked := by
    by_cases hlt : i < kSpinningCheckLimit
    · exact ⟨0, Nat.zero_le 1, u, rfl, by rw [hp]; exact decide_eq_true hlt, rfl⟩
    · refine ⟨1, Nat.le_refl 1, u.setPc t .waiting, ?_, by rw [setPc_self]; rfl, rfl⟩
      have hstep := hgo hp (v := u.setPc t .waiting) (by rw [State.go, if_neg hlt])
      rw [List.replicate_one, TransitionSystem.exec_cons, hstep]
      rfl
  cases hp : s.pc t with
  | spinning i =>
    obtain ⟨n, hn, hrun⟩ := hrounds hp
    exact ⟨n, Nat.le_succ_of_le hn, hrun⟩
  | pausing i =>
    obtain ⟨n, hn, s', hrun, htests, hlocked⟩ :=
      hrounds (u := s.setPc t (.spinning (i + 1))) (setPc_self ..)
    refine ⟨n + 1, Nat.succ_le_succ hn, s', ?_, htests, hlocked⟩
    rw [List.replicate_succ, TransitionSystem.exec_cons, hgo hp rfl]
    exact hrun
  | waiting => exact ⟨0, Nat.zero_le 2, s, rfl, by rw [hp]; rfl, rfl⟩
  | yielding =>
    refine ⟨1, Nat.le_succ 1, s.setPc t .waiting, ?_, by rw [setPc_self]; rfl, rfl⟩
    rw [List.replicate_one, TransitionSystem.exec_cons, hgo hp rfl]
    rfl
  | _ =>
    rw [hp] at ht
    cases ht

/-- The threads use a mutex: at most one has it at a time; a test, in `lock` or in `try_lock`, gets it
exactly when nobody has it, so that `try_lock` has no false negatives; and while nobody has it, a thread
in `lock` is three steps of its own away at most. -/
theorem spin_mutex_is_mutex (h : system.Reachable s) :
    ∃ ops m, Mutex.Run .free ops m ∧ s.Represents m ∧
      (∀ t s', (s.pc t).tests = true → system.step s (.go t) = some s' →
        ((s'.pc t).owns = true ↔ m = .free)) ∧
      (m = .free → ∀ t, (s.pc t).locks = true →
        ∃ n ≤ 3, ∃ s', system.exec s (List.replicate n (.go t)) = some s' ∧
          (s'.pc t).owns = true) := by
  obtain ⟨ops, m, hrun, hm⟩ := run_simulates h
  refine ⟨ops, m, hrun, hm, ?_, ?_⟩
  · intro t s' ht hs
    rw [← hm.locked]
    exact owns_of_tests ht hs
  · intro hfree t ht
    obtain ⟨n, hn, u, hexec, htests, hlocked⟩ := exists_run_to_test ht
    obtain ⟨s', hs⟩ := exists_test htests
    refine ⟨n + 1, Nat.succ_le_succ hn, s', ?_, ?_⟩
    · rw [List.replicate_succ']
      exact system.exec_snoc.mpr ⟨u, hexec, hs⟩
    · rw [owns_of_tests htests hs, hlocked]
      exact hm.locked.mpr hfree

end Steps

/-- One thread locks, another one tries and waits for it, and a third tries in vain. -/
def contendedSteps : List (Action (Fin 3)) :=
  [.lock 0, .go 0, .lock 1, .go 1, .tryLock 2, .go 2, .go 1, .unlock 0, .go 0]

def contendedState : State (Fin 3) := system.after initial contendedSteps

theorem spin_mutex_is_mutex_contendedState :
    contendedState.pc 1 = .spinning 1 ∧ contendedState.pc 2 = .outside ∧
    ∃ ops m, Mutex.Run .free ops m ∧ contendedState.Represents m := by
  refine ⟨by decide, by decide, ?_⟩
  obtain ⟨ops, m, hrun, hm, -⟩ := spin_mutex_is_mutex (s := contendedState)
    (.after (M := system) rfl contendedSteps)
  exact ⟨ops, m, hrun, hm⟩

end HybridSpinMutex
end CrisCore
