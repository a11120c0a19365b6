import CrisCore.RecordKey
import CrisCore.TransitionSystem

/-! Calls of `RecordFileKey::Make` by any number of threads. A call reads the clock and then draws
from the counter of its slot; both steps of different calls come in any order. -/
namespace CrisCore.KeyMaking
open RecordFileKey

inductive Phase
  | started
  | timed (now : Int64)
  /-- With the time of the step that returned, a history value. -/
  | returned (key : RecordFileKey) (time : ℕ)
  deriving DecidableEq

structure Call where
  /-- History: when the call started. -/
  invoked : ℕ
  phase : Phase
  deriving DecidableEq

structure State where
  globalCounters : Counters
  /-- In the order in which they started. -/
  calls : List Call
  /-- History: the number of steps so far. -/
  time : ℕ

inductive Action
  | start
  | readClock (call : ℕ) (now : Int64)
  | fetchAdd (call : ℕ)
  deriving DecidableEq

/-- The clock is at or after the epoch; it may stand still and step back. -/
def step (s : State) : Action → Option State
  | .start => some { s with calls := s.calls ++ [⟨s.time, .started⟩], time := s.time + 1 }
  | .readClock i now =>
    match s.calls[i]? with
    | some ⟨invoked, .started⟩ =>
      if 0 ≤ now.toInt then
        some { s with calls := s.calls.set i ⟨invoked, .timed now⟩, time := s.time + 1 }
      else none
    | _ => none
  | .fetchAdd i =>
    match s.calls[i]? with
    | some ⟨invoked, .timed now⟩ =>
      let made := make now s.globalCounters
      some
        { globalCounters := made.2
          calls := s.calls.set i ⟨invoked, .returned made.1 s.time⟩
          time := s.time + 1 }
    | _ => none

def system : TransitionSystem State Action where
  init s := s.globalCounters = (fun _ => 0) ∧ s.calls = []
  step := step

/-- The call has drawn from the counter of the slot. -/
def Call.drewFrom (j : Fin 16) (c : Call) : Bool :=
  match c.phase with
  | .returned key _ => slot key.timestampNs == j
  | _ => false

/-- While fewer than `2 ^ 64` keys were made, every counter is the number of keys of its slot, and
the keys of a slot were drawn in the order of their counts. -/
structure Inv (s : State) : Prop where
  drawn : ∀ j, (s.globalCounters j).toNat = s.calls.countP (Call.drewFrom j)
  invoked_lt : ∀ (i : ℕ) (c : Call), s.calls[i]? = some c → c.invoked < s.time
  timed : ∀ (i : ℕ) (c : Call) (now : Int64), s.calls[i]? = some c → c.phase = .timed now →
    0 ≤ now.toInt
  returned : ∀ (i : ℕ) (c : Call) (key : RecordFileKey) (time : ℕ), s.calls[i]? = some c →
    c.phase = .returned key time → 0 ≤ key.timestampNs.toInt ∧ c.invoked < time ∧ time < s.time ∧
      key.count.toNat < (s.globalCounters (slot key.timestampNs)).toNat
  ordered : ∀ (i i' : ℕ) (c c' : Call) (key key' : RecordFileKey) (time time' : ℕ),
    s.calls[i]? = some c → s.calls[i']? = some c' → i ≠ i' → c.phase = .returned key time →
    c'.phase = .returned key' time' → slot key.timestampNs = slot key'.timestampNs →
    time ≠ time' ∧ (time < time' → key.count.toNat < key'.count.toNat)

variable {s t : State} {a : Action}

/-- What one step does. -/
theorem step_cases (h : system.step s a = some t) :
    (t = { s with calls := s.calls ++ [⟨s.time, .started⟩], time := s.time + 1 }) ∨
    (∃ i invoked now, s.calls[i]? = some ⟨invoked, .started⟩ ∧ 0 ≤ now.toInt ∧
      t = { s with calls := s.calls.set i ⟨invoked, .timed now⟩, time := s.time + 1 }) ∨
    ∃ i invoked now, s.calls[i]? = some ⟨invoked, .timed now⟩ ∧
      t = ⟨(make now s.globalCounters).2,
        s.calls.set i ⟨invoked, .returned (make now s.globalCounters).1 s.time⟩, s.time + 1⟩ := by
  cases a with
  | start => exact Or.inl (Option.some.inj h).symm
  | readClock i now =>
    simp only [system, step] at h
    split at h
    case h_1 invoked hc =>
      split at h
      case isTrue hnow => exact Or.inr (Or.inl ⟨i, invoked, now, hc, hnow, (Option.some.inj h).symm⟩)
      case isFalse => cases h
    case h_2 => cases h
  | fetchAdd i =>
    simp only [system, step] at h
    split at h
    case h_1 invoked now hc => exact Or.inr (Or.inr ⟨i, invoked, now, hc, (Option.some.inj h).symm⟩)
    case h_2 => cases h

theorem length_le_of_step (h : system.step s a = some t) : s.calls.length ≤ t.calls.length := by
  rcases step_cases h with rfl | ⟨i, invoked, now, -, -, rfl⟩ | ⟨i, invoked, now, -, rfl⟩ <;> simp

section Lookup
variable {calls : List Call} {i k : ℕ} {c d : Call}

theorem lookup_append (h : (calls ++ [d])[k]? = some c) : calls[k]? = some c ∨ c = d := by
  rw [List.getElem?_append] at h
  split at h
  · exact Or.inl h
  · exact Or.inr (List.mem_singleton.mp (List.mem_of_getElem? h))

theorem lookup_set (h : (calls.set i d)[k]? = some c) :
    (k ≠ i ∧ calls[k]? = some c) ∨ (k = i ∧ c = d) := by
  rw [List.getElem?_set] at h
  split at h
  case isTrue hk =>
    split at h
    · exact Or.inr ⟨hk.symm, (Option.some.inj h).symm⟩
    · cases h
  case isFalse hk => exact Or.inl ⟨fun he => hk he.symm, h⟩

/-- A call that goes on changes the number of calls with a property by itself. -/
theorem countP_set_lookup {p : Call → Bool} (h : calls[i]? = some c) (hc : p c = false) :
    (calls.set i d).countP p = calls.countP p + if p d = true then 1 else 0 := by
  obtain ⟨hi, rfl⟩ := List.getElem?_eq_some_iff.mp h
  rw [List.countP_set hi, hc]
  rfl

end Lookup

/-- A step that draws no count: the calls that it starts or goes on with have not returned. -/
theorem Inv.of_undrawn (hi : Inv s) {calls : List Call}
    (hdrawn : ∀ j, calls.countP (Call.drewFrom j) = s.calls.countP (Call.drewFrom j))
    (hcalls : ∀ (i : ℕ) (c : Call), calls[i]? = some c → s.calls[i]? = some c ∨
      c.invoked ≤ s.time ∧ (∀ now, c.phase = .timed now → 0 ≤ now.toInt) ∧
        ∀ key time, c.phase ≠ .returned key time) :
    Inv { s with calls := calls, time := s.time + 1 } := by
  -- what returned had returned before
  have hold (i : ℕ) (c : Call) (key : RecordFileKey) (time : ℕ) (hc : calls[i]? = some c)
      (hp : c.phase = .returned key time) : s.calls[i]? = some c :=
    (hcalls i c hc).resolve_right fun h => h.2.2 key time hp
  refine ⟨fun j => (hi.drawn j).trans (hdrawn j).symm, fun i c hc => ?_, fun i c now hc hp => ?_,
    fun i c key time hc hp => ?_, ?_⟩
  · rcases hcalls i c hc with hs | ⟨hinvoked, -⟩
    · exact Nat.lt_succ_of_lt (hi.invoked_lt i c hs)
    · exact Nat.lt_succ_of_le hinvoked
  · rcases hcalls i c hc with hs | ⟨-, htimed, -⟩
    · exact hi.timed i c now hs hp
    · exact htimed now hp
  · obtain ⟨hnn, hinv, htime, hcount⟩ := hi.returned i c key time (hold i c key time hc hp) hp
    exact ⟨hnn, hinv, Nat.lt_succ_of_lt htime, hcount⟩
  · intro i i' c c' key key' time time' hc hc' hne hp hp' hslot
    exact hi.ordered i i' c c' key key' time time' (hold i c key time hc hp)
      (hold i' c' key' time' hc' hp') hne hp hp' hslot

theorem Inv.start (hi : Inv s) :
    Inv { s with calls := s.calls ++ [⟨s.time, .started⟩], time := s.time + 1 } := by
  refine hi.of_undrawn (fun j => ?_) fun i c hc => ?_
  · rw [List.countP_append]
    rfl
  · refine (lookup_append hc).imp_right ?_
    rintro rfl
    exact ⟨le_rfl, by simp, by simp⟩

theorem Inv.readClock (hi : Inv s) {i invoked : ℕ} {now : Int64}
    (hcall : s.calls[i]? = some ⟨invoked, .started⟩) (hnow : 0 ≤ now.toInt) :
    Inv { s with calls := s.calls.set i ⟨invoked, .timed now⟩, time := s.time + 1 } := by
  refine hi.of_undrawn (fun j => ?_) fun k c hc => ?_
  · rw [countP_set_lookup hcall rfl]
    rfl
  · refine (lookup_set hc).imp And.right ?_
    rintro ⟨-, rfl⟩
    exact ⟨(hi.invoked_lt i _ hcall).le, by simpa using hnow, by simp⟩

/-- Drawing a count does not wrap a counter that is below the number of calls. -/
theorem make_counters_toNat {now : Int64} (counters : Counters)
    (hlt : (counters (slot now)).toNat + 1 < 2 ^ 64) (j : Fin 16) :
    ((make now counters).2 j).toNat =
      (counters j).toNat + if (slot now == j) = true then 1 else 0 := by
  simp only [make, Function.update_apply, beq_iff_eq]
  by_cases hj : j = slot now
  · rw [if_pos hj, if_pos hj.symm, hj, UInt64.toNat_add]
    exact Nat.mod_eq_of_lt hlt
  · rw [if_neg hj, if_neg (Ne.symm hj)]
    rfl

theorem Inv.fetchAdd (hi : Inv s) (hn : s.calls.length < 2 ^ 64) {i invoked : ℕ} {now : Int64}
    (hcall : s.calls[i]? = some ⟨invoked, .timed now⟩) :
    Inv ⟨(make now s.globalCounters).2,
      s.calls.set i ⟨invoked, .returned (make now s.globalCounters).1 s.time⟩, s.time + 1⟩ := by
  -- the call itself has not drawn yet, so there is room in its counter
  have hroom : (s.globalCounters (slot now)).toNat + 1 < 2 ^ 64 := by
    let d : Call := ⟨invoked, .returned (make now s.globalCounters).1 s.time⟩
    have hcount : (s.calls.set i d).countP (Call.drewFrom (slot now)) =
        s.calls.countP (Call.drewFrom (slot now)) + 1 := by
      rw [countP_set_lookup hcall rfl]
      exact congrArg _ (if_pos (beq_self_eq_true (slot now)))
    have hle : (s.calls.set i d).countP (Call.drewFrom (slot now)) ≤ (s.calls.set i d).length :=
      List.countP_le_length
    rw [hcount, List.length_set, ← hi.drawn] at hle
    omega
  have hcounters := make_counters_toNat s.globalCounters hroom
  have hinvoked : invoked < s.time := hi.invoked_lt i _ hcall
  refine ⟨fun j => ?_, fun k c hc => ?_, fun k c now' hc hp => ?_, fun k c key time hc hp => ?_, ?_⟩
  · rw [countP_set_lookup hcall rfl, hcounters, hi.drawn j]
    rfl
  · rcases lookup_set hc with ⟨-, hc⟩ | ⟨-, rfl⟩
    · exact Nat.lt_succ_of_lt (hi.invoked_lt k c hc)
    · exact Nat.lt_succ_of_lt hinvoked
  · rcases lookup_set hc with ⟨-, hc⟩ | ⟨-, rfl⟩
    · exact hi.timed k c now' hc hp
    · cases hp
  · rcases lookup_set hc with ⟨-, hc⟩ | ⟨-, rfl⟩
    · -- counters only grow
      obtain ⟨hnn, hinv, htime, hcount⟩ := hi.returned k c key time hc hp
      refine ⟨hnn, hinv, Nat.lt_succ_of_lt htime, ?_⟩
      rw [hcounters]
      exact Nat.lt_add_right _ hcount
    · -- the count that was drawn is the counter as it was before
      cases hp
      refine ⟨hi.timed i _ now hcall rfl, hinvoked, Nat.lt_succ_self _, ?_⟩
      change (s.globalCounters (slot now)).toNat < ((make now s.globalCounters).2 (slot now)).toNat
      rw [hcounters, if_pos (beq_self_eq_true _)]
      exact Nat.lt_succ_self _
  · intro k k' c c' key key' time time' hc hc' hne hp hp' hslot
    rcases lookup_set hc with ⟨-, hc⟩ | ⟨hk, rfl⟩
    · rcases lookup_set hc' with ⟨-, hc'⟩ | ⟨-, rfl⟩
      · exact hi.ordered k k' c c' key key' time time' hc hc' hne hp hp' hslot
      · -- the new key has the count that all earlier ones of its slot are below
        cases hp'
        obtain ⟨-, -, htime, hcount⟩ := hi.returned k c key time hc hp
        rw [hslot] at hcount
        exact ⟨htime.ne, fun _ => hcount⟩
    · rcases lookup_set hc' with ⟨-, hc'⟩ | ⟨hk', -⟩
      · -- the other key was there before this one
        cases hp
        obtain ⟨-, -, htime, -⟩ := hi.returned k' c' key' time' hc' hp'
        exact ⟨htime.ne', fun h => absurd h htime.asymm⟩
      · exact absurd (hk.trans hk'.symm) hne

theorem inv_step (hi : Inv s) (hn : s.calls.length < 2 ^ 64) (h : system.step s a = some t) :
    Inv t := by
  rcases step_cases h with rfl | ⟨i, invoked, now, hc, hnow, rfl⟩ | ⟨i, invoked, now, hc, rfl⟩
  · exact hi.start
  · exact hi.readClock hc hnow
  · exact hi.fetchAdd hn hc

theorem reachable_inv (h : system.Reachable s) : s.calls.length < 2 ^ 64 → Inv s := by
  refine TransitionSystem.Reachable.invariant (P := fun s => s.calls.length < 2 ^ 64 → Inv s) h
    (fun s hs _ => ?_) fun u a v hu huv hv => ?_
  · have hnone {i : ℕ} {c : Call} (hc : s.calls[i]? = some c) : False := by
      rw [hs.2] at hc
      cases hc
    refine ⟨fun j => ?_, fun i c hc => (hnone hc).elim, fun i c now hc => (hnone hc).elim,
      fun i c key time hc => (hnone hc).elim,
      fun i i' c c' key key' time time' hc => (hnone hc).elim⟩
    rw [hs.1, hs.2]
    rfl
  · have hn := (length_le_of_step huv).trans_lt hv
    exact inv_step (hu hn) hn huv

/-- However fewer than `2 ^ 64` calls overlap, two of them never return keys that compare equal; and
if one returned before the other started and the clock did not step back between their readings,
its key is the smaller one. -/
theorem made_keys_unique_and_ordered (h : system.Reachable s) (hn : s.calls.length < 2 ^ 64)
    {i i' : ℕ} {c c' : Call} {key key' : RecordFileKey} {time time' : ℕ}
    (hc : s.calls[i]? = some c) (hc' : s.calls[i']? = some c') (hne : i ≠ i')
    (hp : c.phase = .returned key time) (hp' : c'.phase = .returned key' time') :
    RecordFileKey.compare key key' ≠ .eq ∧
      (time < c'.invoked → key.timestampNs.toInt ≤ key'.timestampNs.toInt →
        RecordFileKey.compare key key' = .lt) := by
  have hi := reachable_inv h hn
  obtain ⟨hnn, -⟩ := hi.returned i c key time hc hp
  obtain ⟨hnn', hinv', -⟩ := hi.returned i' c' key' time' hc' hp'
  have hordered := hi.ordered i i' c c' key key' time time' hc hc' hne hp hp'
  have hordered' := hi.ordered i' i c' c key' key time' time hc' hc hne.symm hp' hp
  constructor
  · intro heq
    rw [compare_eq_then, Ordering.then_eq_eq, Nat.compare_eq_eq, Nat.compare_eq_eq] at heq
    have hts : key.timestampNs = key'.timestampNs := Int64.toInt_inj.mp (by omega)
    -- equal timestamps share a slot, so one of the two counts was drawn first
    obtain ⟨htime, hlt⟩ := hordered (congrArg slot hts)
    obtain ⟨-, hlt'⟩ := hordered' (congrArg slot hts.symm)
    omega
  · intro hbefore hclock
    apply compare_eq_lt hnn
    rcases hclock.lt_or_eq with hlt | heq
    · exact Or.inl hlt
    · have hts : key.timestampNs = key'.timestampNs := Int64.toInt_inj.mp heq
      exact Or.inr ⟨hts, (hordered (congrArg slot hts)).2 (hbefore.trans hinv')⟩

def initial : State := ⟨fun _ => 0, [], 0⟩

theorem init_initial : system.init initial := ⟨rfl, rfl⟩

/-- Two calls read the same time, the later one draws first; a third starts after both returned. -/
def overlappingRun : List Action :=
  [.start, .start, .readClock 0 32, .readClock 1 32, .fetchAdd 1, .fetchAdd 0, .start,
    .readClock 2 32, .fetchAdd 2]

theorem made_keys_unique_and_ordered_overlappingRun :
    RecordFileKey.compare ⟨32, 1⟩ ⟨32, 2⟩ ≠ .eq ∧
      (5 < 6 → (32 : Int64).toInt ≤ (32 : Int64).toInt →
        RecordFileKey.compare ⟨32, 1⟩ ⟨32, 2⟩ = .lt) := by
  have hc : (system.after initial overlappingRun).calls[0]? = some ⟨0, .returned ⟨32, 1⟩ 5⟩ := by
    decide +kernel
  have hc' : (system.after initial overlappingRun).calls[2]? = some ⟨6, .returned ⟨32, 2⟩ 8⟩ := by
    decide +kernel
  exact made_keys_unique_and_ordered (.after init_initial overlappingRun) (by decide) hc hc'
    (by decide) rfl rfl

end CrisCore.KeyMaking
