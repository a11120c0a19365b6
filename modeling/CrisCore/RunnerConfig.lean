import CrisCore.RecorderConfig
import CrisCore.WorkerSelection
import Mathlib.Data.UInt

/-! `JobRunner::Config` and its `ConfigDataParser`, with what a runner does with the values. -/
namespace CrisCore

/-- `JobRunner::Config` -/
structure JobRunnerConfig where
  threadNum : UInt64
  alwaysActiveThreadNum : UInt64
  /-- The count of a `std::chrono::nanoseconds`. -/
  activeTime : Int64
  deriving DecidableEq

namespace JobRunnerConfig
open JsonValue
open RecorderConfig (ParseFailure orFail bind_ok)

def default : JobRunnerConfig where
  threadNum := 1
  alwaysActiveThreadNum := 0
  activeTime := 0

/-- `obj[key].get(value)` for a `std::uint64_t`; every error leaves the default. -/
def getUint64Field (obj : JsonValue) (key : String) : Option UInt64 :=
  ((obj.find key).bind getUint64).toOption

/-- The count of `std::chrono::nanoseconds(std::chrono::milliseconds(ms))`. -/
def millisecondsToNsec (ms : UInt64) : Int64 :=
  ms.toInt64 * 1000000

def configDataParser (val : JsonValue) : Except ParseFailure JobRunnerConfig := do
  let fields ← orFail
    "ConfigDataParser: Failed to get Strategy JSON object. Check your configuration file."
    val.getObject
  let obj := object fields
  return {
    threadNum := (getUint64Field obj "thread_num").getD default.threadNum
    alwaysActiveThreadNum :=
      (getUint64Field obj "always_active").getD default.alwaysActiveThreadNum
    activeTime := ((getUint64Field obj "active_ms").map millisecondsToNsec).getD
      default.activeTime }

/-- The runner that is built from the configuration, as `AddJob` and `AddJobs` read it. -/
def runner (config : JobRunnerConfig) : WorkerLoop.Config where
  threadNum := config.threadNum.toNat
  alwaysActiveThreadNum := config.alwaysActiveThreadNum.toNat
  activeTime := config.activeTime.toInt
  threadNum_lt := config.threadNum.toNat_lt

/-- The value of `active_ms` that is used, zero if there is none. -/
def activeMs (val : JsonValue) : ℕ :=
  ((getUint64Field val "active_ms").map UInt64.toNat).getD 0

/-- What a runner relies on: `AddJob` and `AddJobs` find a worker for every hint, the active time is
the one asked for, and the end of it is a `std::int64_t` at every time up to 2^62. -/
structure SafeToRun (val : JsonValue) (config : JobRunnerConfig) : Prop where
  workers : ∀ r : WorkerSelection.Runner, r.config = config.runner → ∀ schedulerHint,
    ∃ idx, r.workerIdx schedulerHint = some idx ∧ idx < config.threadNum.toNat
  activeTime : config.activeTime.toInt = activeMs val * 1000000
  activeTime_nonneg : 0 ≤ config.activeTime.toInt
  deadline : ∀ lastActiveTimestamp : Int64, lastActiveTimestamp.toInt < 2 ^ 62 →
    -2 ^ 63 ≤ lastActiveTimestamp.toInt + config.activeTime.toInt ∧
      lastActiveTimestamp.toInt + config.activeTime.toInt < 2 ^ 63

/-- No thread number of zero, and at most 2^62 nanoseconds of active time. -/
def WithinBounds (val : JsonValue) : Prop :=
  getUint64Field val "thread_num" ≠ some 0 ∧ activeMs val ≤ 4611686018427

instance (val : JsonValue) : Decidable (WithinBounds val) :=
  inferInstanceAs (Decidable (_ ∧ _))

/-- A count below 2^63 is kept by the conversion. -/
theorem toInt_toInt64_of_lt {n : UInt64} (h : n.toNat < 2 ^ 63) : n.toInt64.toInt = n.toNat := by
  have hn : n.toInt64 = Int64.ofNat n.toNat := by
    rw [← UInt64.toInt64_ofNat', UInt64.ofNat_toNat]
  rw [hn, Int64.toInt_ofNat_of_lt h]

theorem toInt_millisecondsToNsec {ms : UInt64} (h : ms.toNat ≤ 4611686018427) :
    (millisecondsToNsec ms).toInt = ms.toNat * 1000000 := by
  have hprod : (ms * 1000000).toNat = ms.toNat * 1000000 := by
    rw [UInt64.toNat_mul]
    exact Nat.mod_eq_of_lt (by change ms.toNat * 1000000 < 2 ^ 64; omega)
  have hmul : millisecondsToNsec ms = (ms * 1000000).toInt64 := rfl
  rw [hmul, toInt_toInt64_of_lt (by omega), hprod]
  push_cast
  rfl

theorem configDataParser_ok {val : JsonValue} {config : JobRunnerConfig}
    (h : configDataParser val = .ok config) :
    config.threadNum = (getUint64Field val "thread_num").getD 1 ∧
      config.activeTime = ((getUint64Field val "active_ms").map millisecondsToNsec).getD 0 := by
  obtain ⟨fields, hfields, h⟩ := bind_ok h
  cases h
  cases val with
  | object fields' =>
    cases hfields
    exact ⟨rfl, rfl⟩
  | uint64 n => cases hfields
  | string s => cases hfields
  | array elements => cases hfields
  | other => cases hfields

theorem toInt_activeTime {val : JsonValue} {config : JobRunnerConfig}
    (h : configDataParser val = .ok config) (hms : activeMs val ≤ 4611686018427) :
    config.activeTime.toInt = activeMs val * 1000000 := by
  rw [(configDataParser_ok h).2]
  unfold activeMs at hms ⊢
  cases hfield : getUint64Field val "active_ms" with
  | none => rfl
  | some ms =>
    rw [hfield] at hms
    exact toInt_millisecondsToNsec hms

/-- The parser takes every unsigned number; two bounds are missing. -/
theorem accepted_config_safe_iff {val : JsonValue} {config : JobRunnerConfig}
    (h : configDataParser val = .ok config) : SafeToRun val config ↔ WithinBounds val := by
  have hthreads := (configDataParser_ok h).1
  constructor
  · intro hsafe
    constructor
    -- without a worker every hint divides by zero
    · intro hzero
      have hthread : config.threadNum = 0 := by rw [hthreads, hzero, Option.getD_some]
      obtain ⟨idx, -, hlt⟩ := hsafe.workers ⟨config.runner, true, fun _ => true⟩ rfl 0
      rw [hthread] at hlt
      exact absurd hlt (Nat.not_lt_zero _)
    -- the last moment before 2^62 shows how long the active time may be
    · have hlast := (hsafe.deadline 4611686018427387903 (by decide)).2
      have htime : (4611686018427387903 : Int64).toInt = 4611686018427387903 := by decide
      rw [htime, hsafe.activeTime] at hlast
      omega
  · rintro ⟨hzero, hms⟩
    have hactive := toInt_activeTime h hms
    refine ⟨fun r hr schedulerHint => ?_, hactive, by omega, fun now hnow => ?_⟩
    · have hpos : 1 ≤ config.threadNum.toNat := by
        rw [hthreads]
        cases hfield : getUint64Field val "thread_num" with
        | none => decide
        | some n =>
          have hne : n ≠ 0 := fun hn => hzero (by rw [hfield, hn])
          rw [Option.getD_some]
          exact Nat.one_le_iff_ne_zero.mpr fun hn => hne (UInt64.toNat_inj.mp hn)
      have hnum : r.config.threadNum = config.threadNum.toNat := by rw [hr]; rfl
      rw [← hnum] at hpos ⊢
      exact WorkerSelection.workerIdx_eq_some hpos schedulerHint
    · have hmin := now.le_toInt
      omega

/-- Four threads that stay active for a tenth of a second. -/
theorem four_threads_config_safe :
    SafeToRun (.object [("thread_num", .uint64 4), ("active_ms", .uint64 100)])
      ⟨4, 0, 100000000⟩ :=
  (accepted_config_safe_iff rfl).mpr (by decide)

/-- A thread number of zero is accepted, and there is no worker for any hint. The longest active
time is accepted and is negative. -/
theorem zero_threads_config_accepted :
    (configDataParser (.object [("thread_num", .uint64 0)]) = .ok ⟨0, 0, 0⟩ ∧
      ¬ SafeToRun (.object [("thread_num", .uint64 0)]) ⟨0, 0, 0⟩) ∧
    configDataParser (.object [("active_ms", .uint64 18446744073709551615)]) =
        .ok ⟨1, 0, -1000000⟩ := by
  refine ⟨⟨rfl, fun hsafe => ?_⟩, rfl⟩
  obtain ⟨idx, -, hlt⟩ := hsafe.workers ⟨runner ⟨0, 0, 0⟩, true, fun _ => true⟩ rfl 0
  exact absurd hlt (Nat.not_lt_zero _)

end JobRunnerConfig
end CrisCore
