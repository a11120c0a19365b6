import Mathlib.Data.List.Basic
import Mathlib.Data.UInt

/-! `RecorderConfig` and its `ConfigDataParser`. -/
namespace CrisCore

/-- A JSON value as simdjson hands it out. -/
inductive JsonValue
  | uint64 (n : UInt64)
  | string (s : String)
  | array (elements : List JsonValue)
  | object (fields : List (String × JsonValue))
  /-- Null, a boolean, or another number. -/
  | other

namespace JsonValue

inductive ErrorCode
  | noSuchField
  | incorrectType
  deriving DecidableEq

def getObject : JsonValue → Except ErrorCode (List (String × JsonValue))
  | object fields => .ok fields
  | _ => .error .incorrectType

def getArray : JsonValue → Except ErrorCode (List JsonValue)
  | array elements => .ok elements
  | _ => .error .incorrectType

def getString : JsonValue → Except ErrorCode String
  | string s => .ok s
  | _ => .error .incorrectType

def getUint64 : JsonValue → Except ErrorCode UInt64
  | uint64 n => .ok n
  | _ => .error .incorrectType

/-- `val[key]`. -/
def find (val : JsonValue) (key : String) : Except ErrorCode JsonValue :=
  match val with
  | object fields =>
    match fields.lookup key with
    | some v => .ok v
    | none => .error .noSuchField
  | _ => .error .incorrectType

end JsonValue

namespace RecorderConfig
open JsonValue

inductive Rolling
  | kNone
  | kDay
  | kHour
  | kSize
  deriving DecidableEq

def kDefaultMaxNumOfCopies : ℕ := 48

structure IntervalConfig where
  name : String
  /-- The count of a `std::chrono::seconds`. -/
  period : Int64
  maxNumOfCopies : ℕ
  deriving DecidableEq

end RecorderConfig

structure RecorderConfig where
  snapshotIntervals : List RecorderConfig.IntervalConfig
  recordDir : String
  hostname : String
  rolling : RecorderConfig.Rolling
  sizeLimitMb : UInt64
  deriving DecidableEq

namespace RecorderConfig
open JsonValue

def default : RecorderConfig where
  snapshotIntervals := []
  recordDir := ""
  hostname := ""
  rolling := .kNone
  sizeLimitMb := 2 ^ 64 - 1

/-- What is logged when the process ends: the text, and the error of simdjson if it was that. -/
structure ParseFailure where
  info : String
  ec : Option ErrorCode
  deriving DecidableEq

/-- `FailToParseConfig` unless there is a value. -/
def orFail {α : Type} (info : String) : Except ErrorCode α → Except ParseFailure α
  | .ok a => .ok a
  | .error ec => .error ⟨info, some ec⟩

/-- `RAW_CHECK`. -/
def check (holds : Bool) (info : String) : Except ParseFailure Unit :=
  if holds then .ok () else .error ⟨info, none⟩

/-- A field that may be missing. -/
def optional {α : Type} (info : String) : Except ErrorCode α → Except ParseFailure (Option α)
  | .ok a => .ok (some a)
  | .error .noSuchField => .ok none
  | .error ec => .error ⟨info, some ec⟩

/-- `CRIS_CONF_JSON_ENTRY`. -/
def required {α : Type} (key : String) (found : Except ErrorCode α) : Except ParseFailure α :=
  orFail ("\"" ++ key ++ "\" is required.") found

def sizeErrorMsg : String := "Expect a non-zero positive integer for \"size_limit_mb\"."

def hostnameConfError : String := "Expect a non-empty string for \"hostname\"."

def parseRolling : String → Option Rolling
  | "day" => some .kDay
  | "hour" => some .kHour
  | "size" => some .kSize
  | _ => none

def parseRollingConfig (config : RecorderConfig) (obj : JsonValue) :
    Except ParseFailure RecorderConfig := do
  match ← optional "Expect a string for \"rolling\"." ((obj.find "rolling").bind getString) with
  | none => return config
  | some rollingSv =>
    match parseRolling rollingSv with
    | none => .error ⟨"Expect a string for \"rolling\" be in [\"day\", \"hour\", \"size\"]", none⟩
    | some .kSize =>
      let sizeLimitMb ← orFail sizeErrorMsg ((obj.find "size_limit_mb").bind getUint64)
      check (0 < sizeLimitMb) sizeErrorMsg
      return { config with rolling := .kSize, sizeLimitMb := sizeLimitMb }
    | some rolling => return { config with rolling := rolling }

/-- One element of `snapshot_intervals`. The number of seconds is narrowed to that of the
`std::chrono::seconds`. -/
def parseInterval (data : JsonValue) : Except ParseFailure IntervalConfig := do
  let name ← required "name" ((data.find "name").bind getString)
  let periodSec ← required "period_sec" ((data.find "period_sec").bind getUint64)
  let maxNumOfCopies ← optional "\"max_num_of_copies\" must be an unsigned integer."
    ((data.find "max_num_of_copies").bind getUint64)
  return {
    name := name
    period := periodSec.toInt64
    maxNumOfCopies := (maxNumOfCopies.map UInt64.toNat).getD kDefaultMaxNumOfCopies }

def parseIntervals (config : RecorderConfig) : List JsonValue → Except ParseFailure RecorderConfig
  | [] => .ok config
  | data :: rest => do
    let interval ← parseInterval data
    parseIntervals
      { config with snapshotIntervals := config.snapshotIntervals ++ [interval] } rest

def configDataParser (config : RecorderConfig) (val : JsonValue) :
    Except ParseFailure RecorderConfig := do
  let fields ← orFail "JSON object required." val.getObject
  let obj := object fields
  let recordDir ← optional "Expect a string for \"record_dir\"."
    ((obj.find "record_dir").bind getString)
  let config := { config with recordDir := recordDir.getD config.recordDir }
  let config ← parseRollingConfig config obj
  let hostname ← orFail hostnameConfError ((obj.find "hostname").bind getString)
  check (hostname ≠ "") hostnameConfError
  let config := { config with hostname := hostname }
  match ← optional "Expect a list of objects for \"snapshot_intervals\"."
    ((obj.find "snapshot_intervals").bind getArray) with
  | none => return config
  | some snapshotIntervals => parseIntervals config snapshotIntervals

theorem bind_ok {α β ε : Type} {x : Except ε α} {f : α → Except ε β} {b : β}
    (h : (x >>= f) = .ok b) : ∃ a, x = .ok a ∧ f a = .ok b := by
  cases x with
  | error e => cases h
  | ok a => exact ⟨a, rfl, h⟩

theorem orFail_ok {α : Type} {info : String} {x : Except ErrorCode α} {a : α}
    (h : orFail info x = .ok a) : x = .ok a := by
  cases x with
  | error e => cases h
  | ok b =>
    cases h
    rfl

/-- The fields of an accepted interval are those of the JSON object. -/
theorem parseInterval_ok {data : JsonValue} {c : IntervalConfig}
    (h : parseInterval data = .ok c) : ∃ periodSec copies,
      (data.find "name").bind getString = .ok c.name ∧
      (data.find "period_sec").bind getUint64 = .ok periodSec ∧ c.period = periodSec.toInt64 ∧
      optional "\"max_num_of_copies\" must be an unsigned integer."
        ((data.find "max_num_of_copies").bind getUint64) = .ok copies ∧
      c.maxNumOfCopies = (copies.map UInt64.toNat).getD kDefaultMaxNumOfCopies := by
  obtain ⟨name, hname, h⟩ := bind_ok h
  obtain ⟨periodSec, hperiod, h⟩ := bind_ok h
  obtain ⟨copies, hcopies, h⟩ := bind_ok h
  cases h
  exact ⟨periodSec, copies, orFail_ok hname, orFail_ok hperiod, rfl, hcopies, rfl⟩

theorem parseIntervals_ok {config config' : RecorderConfig} {elements : List JsonValue}
    (h : parseIntervals config elements = .ok config') :
    ∃ intervals, config' =
        { config with snapshotIntervals := config.snapshotIntervals ++ intervals } ∧
      elements.map parseInterval = intervals.map .ok := by
  induction elements generalizing config with
  | nil =>
    cases h
    exact ⟨[], by rw [List.append_nil], rfl⟩
  | cons data rest ih =>
    obtain ⟨c, hc, h⟩ := bind_ok h
    obtain ⟨intervals, rfl, hall⟩ := ih h
    refine ⟨c :: intervals, by rw [List.append_assoc, List.singleton_append], ?_⟩
    rw [List.map_cons, List.map_cons, hc, hall]

/-- A limit that is given is checked. -/
theorem parseRollingConfig_ok {config config' : RecorderConfig} {obj : JsonValue}
    (h : parseRollingConfig config obj = .ok config') :
    ∃ rolling sizeLimitMb, config' = { config with rolling := rolling, sizeLimitMb := sizeLimitMb } ∧
      (sizeLimitMb = config.sizeLimitMb ∨ sizeLimitMb ≠ 0) := by
  obtain ⟨rollingSv, -, h⟩ := bind_ok h
  cases rollingSv with
  | none =>
    cases h
    exact ⟨config.rolling, config.sizeLimitMb, rfl, Or.inl rfl⟩
  | some rollingSv =>
    simp only at h
    split at h
    case h_1 => cases h
    case h_2 =>
      obtain ⟨sizeLimitMb, -, h⟩ := bind_ok h
      obtain ⟨_, hcheck, h⟩ := bind_ok h
      cases h
      refine ⟨.kSize, sizeLimitMb, rfl, Or.inr ?_⟩
      intro hzero
      rw [hzero] at hcheck
      cases hcheck
    case h_3 =>
      cases h
      exact ⟨_, config.sizeLimitMb, rfl, Or.inl rfl⟩

/-- Every interval of an accepted configuration was parsed from an element of its list, and its size
limit is the default or was checked. -/
theorem configDataParser_ok {config : RecorderConfig} {val : JsonValue}
    (h : configDataParser default val = .ok config) :
    (∀ c ∈ config.snapshotIntervals, ∃ data, parseInterval data = .ok c) ∧
      (config.sizeLimitMb = default.sizeLimitMb ∨ config.sizeLimitMb ≠ 0) := by
  obtain ⟨fields, -, h⟩ := bind_ok h
  obtain ⟨recordDir, -, h⟩ := bind_ok h
  obtain ⟨rolled, hrolled, h⟩ := bind_ok h
  obtain ⟨hostname, -, h⟩ := bind_ok h
  obtain ⟨-, -, h⟩ := bind_ok h
  obtain ⟨elements, -, h⟩ := bind_ok h
  obtain ⟨rolling, sizeLimitMb, rfl, hlimit⟩ := parseRollingConfig_ok hrolled
  cases elements with
  | none =>
    cases h
    exact ⟨by simp [default], hlimit⟩
  | some elements =>
    obtain ⟨intervals, rfl, hall⟩ := parseIntervals_ok h
    refine ⟨fun c hc => ?_, hlimit⟩
    have hmem : c ∈ intervals := by simpa [default] using hc
    obtain ⟨data, -, hdata⟩ := List.mem_map.mp (hall ▸ List.mem_map_of_mem hmem)
    exact ⟨data, hdata⟩

end RecorderConfig
end CrisCore
