import CrisCore.RecordFile
import CrisCore.UtcTime

/-! The rolling helpers and `Write` of a record file that has one. The clock is read in `Write` and
again by the helper when `Roll` resets it. -/
namespace CrisCore

namespace RollingHelper

/-- The time in nanoseconds since the epoch. -/
structure Metadata where
  time : ℤ
  valueSize : UInt64

end RollingHelper

open RollingHelper (Metadata)

/-- The virtual functions over the members `σ` of a helper; `Reset` is given what the clock says.
`MakeNewRecordDirName` is among the answers to `Roll`. -/
structure RollingHelper (σ : Type) where
  needToRoll : σ → Metadata → Bool
  update : σ → Metadata → σ
  reset : σ → ℤ → σ

section ByTime
open UtcTime (durationCast seconds)

/-- `std::chrono::system_clock::to_time_t` -/
def toTimeT (t : ℤ) : ℤ :=
  durationCast seconds t

def fromTimeT (t : ℤ) : ℤ :=
  t * seconds

def calcNextRollingTime (now intervalLen offsetSeconds : ℤ) : ℤ :=
  let unixTime := toTimeT now
  let unixTimeToRoll := unixTime - unixTime.tmod intervalLen + intervalLen + offsetSeconds
  fromTimeT unixTimeToRoll

/-- The members of `RollingByDayHelper` and of `RollingByHourHelper`. -/
structure RollingByTime where
  timeToRoll : ℤ
  deriving DecidableEq

/-- What the two have in common. -/
def rollingByTime (intervalLen offsetSeconds : ℤ) : RollingHelper RollingByTime where
  needToRoll h metadata := decide (h.timeToRoll ≤ metadata.time)
  update h _ := h
  reset _ now := ⟨calcNextRollingTime now intervalLen offsetSeconds⟩

/-- The constructors, which read the clock too. -/
def RollingByTime.make (now intervalLen offsetSeconds : ℤ) : RollingByTime :=
  ⟨calcNextRollingTime now intervalLen offsetSeconds⟩

def secondsPerDay : ℤ := 86400
def secondsPerHour : ℤ := 3600

def rollingByDayHelper : RollingHelper RollingByTime :=
  rollingByTime secondsPerDay 60

def rollingByHourHelper : RollingHelper RollingByTime :=
  rollingByTime secondsPerHour 60

end ByTime

structure RollingBySize where
  limitBytesize : UInt64
  currentBytesize : UInt64
  deriving DecidableEq

/-- The constructor; `std::mega::num` is a million. -/
def RollingBySize.make (sizeLimitMb : UInt64) : RollingBySize where
  limitBytesize := sizeLimitMb * 1000000
  currentBytesize := 0

def rollingBySizeHelper : RollingHelper RollingBySize where
  needToRoll h metadata :=
    if h.limitBytesize ≤ metadata.valueSize then true
    else decide (h.limitBytesize - metadata.valueSize ≤ h.currentBytesize)
  update h metadata := { h with currentBytesize := h.currentBytesize + metadata.valueSize }
  reset h _ := { h with currentBytesize := 0 }

namespace RollingSession
variable {σ : Type} (H : RollingHelper σ)

/-- One call of `Write`: what it writes, what the clock says in it and in `Reset`, and the answers
to `Roll` and `Put`. -/
structure Write where
  key : RecordFileKey
  value : Bytes
  time : ℤ
  resetTime : ℤ
  answers : WriteAnswers
  /-- `std::size_t` -/
  size_lt : value.length < 2 ^ 64

structure State (σ : Type) where
  fs : FileSystem
  file : RecordFile
  helper : σ
  /-- What was put into the database of the file since it was opened. -/
  puts : List (RecordFileKey × Bytes)
  /-- The helper as it was when it called for each roll. -/
  rolledFrom : List σ
  /-- What the clock said last. -/
  clock : ℤ

def Write.metadata (w : Write) : Metadata :=
  ⟨w.time, UInt64.ofNat w.value.length⟩

/-- `Write` calls `Roll`. -/
def rolls (s : State σ) (w : Write) : Bool :=
  s.file.rollingHelper && H.needToRoll s.helper w.metadata

/-- `Roll` with its answers, and whether it returns true. -/
def rollSucceeds (s : State σ) (w : Write) : Bool :=
  (s.file.roll s.fs w.answers).1

/-- `Write(key, value)` with the rolling helper. -/
def step (s : State σ) (w : Write) : Option (State σ) :=
  let rolled := rolls H s w && rollSucceeds s w
  let helper := if rolled then H.reset s.helper w.resetTime else s.helper
  let answers := { w.answers with needToRoll := H.needToRoll s.helper w.metadata }
  (s.file.write s.fs w.key w.value answers).map fun result =>
    { fs := result.2.1
      file := result.2.2
      helper := if result.1 && s.file.rollingHelper then H.update helper w.metadata else helper
      puts := (if rolled then [] else s.puts) ++ if result.1 then [(w.key, w.value)] else []
      rolledFrom := if rolled then s.rolledFrom ++ [s.helper] else s.rolledFrom
      clock := if rolled then w.resetTime else w.time }

/-- A record file just opened, with its helper. -/
def system : TransitionSystem (State σ) Write where
  init s := s.file.rollingHelper = true ∧ s.file.db.isSome = true ∧ s.puts = [] ∧ s.rolledFrom = []
  step := step H

/-- Rolls and puts succeed. -/
def Succeeds (s : State σ) (w : Write) : Prop :=
  w.answers.put = true ∧ (rolls H s w = true → rollSucceeds s w = true)

instance (s : State σ) (w : Write) : Decidable (Succeeds H s w) :=
  inferInstanceAs (Decidable (_ ∧ (_ → _)))

/-- The file has its helper and a database. -/
structure Ready (s : State σ) : Prop where
  rollingHelper : s.file.rollingHelper = true
  db : s.file.db.isSome = true

variable {H} {s t : State σ} {w : Write}

theorem roll_of_succeeds {fs : FileSystem} {f : RecordFile} {answers : WriteAnswers}
    (h : (f.roll fs answers).1 = true) :
    (f.roll fs answers).2.2.rollingHelper = f.rollingHelper ∧
      (f.roll fs answers).2.2.db.isSome = true := by
  unfold RecordFile.roll at h ⊢
  rcases ho : f.openDBAt fs (f.newFilepath answers.newRecordDirName) answers.opens with
    ⟨newDb, fs', f'⟩
  rw [ho] at h
  cases newDb with
  | none => cases h
  | some newDb =>
    obtain ⟨-, -, -, hfile, -⟩ := RecordFile.openDBAt_some ho
    simp only [RecordFile.closeDB_file, Option.isSome_some, and_true]
    rcases hfile with rfl | rfl <;> rfl

/-- The file system and the file that `Put` finds, after `Roll` if it was called. -/
def written (H : RollingHelper σ) (s : State σ) (w : Write) : FileSystem × RecordFile :=
  if rolls H s w then (s.file.roll s.fs w.answers).2 else (s.fs, s.file)

theorem written_ready (hr : Ready s) (hs : Succeeds H s w) :
    (written H s w).2.rollingHelper = true ∧ (written H s w).2.db.isSome = true := by
  unfold written
  cases hn : rolls H s w with
  | false => exact ⟨hr.rollingHelper, hr.db⟩
  | true =>
    obtain ⟨hhelper, hdb⟩ := roll_of_succeeds (hs.2 hn)
    exact ⟨hhelper.trans hr.rollingHelper, hdb⟩

theorem write_of_db {fs : FileSystem} {f : RecordFile} {key : RecordFileKey} {value : Bytes}
    {answers : WriteAnswers} {r : FileSystem × RecordFile} {h : DbHandle}
    (hr : (if f.rollingHelper && answers.needToRoll then (f.roll fs answers).2 else (fs, f)) = r)
    (hdb : r.2.db = some h) (hput : answers.put = true) :
    f.write fs key value answers = some (true, r.1.put h.path key.toBytes value, r.2) := by
  subst hr
  simp only [RecordFile.write, hdb, hput, if_true]

/-- What a write does when the operations inside it succeed. -/
theorem step_of_succeeds (hr : Ready s) (hs : Succeeds H s w) :
    ∃ t, step H s w = some t ∧ Ready t ∧
      t.helper = H.update (if rolls H s w then H.reset s.helper w.resetTime else s.helper)
        w.metadata ∧
      t.puts = (if rolls H s w then [] else s.puts) ++ [(w.key, w.value)] ∧
      t.rolledFrom = (if rolls H s w then s.rolledFrom ++ [s.helper] else s.rolledFrom) ∧
      t.clock = (if rolls H s w then w.resetTime else w.time) ∧
      t.file = (written H s w).2 ∧
      ∃ h, t.file.db = some h ∧ t.fs = (written H s w).1.put h.path w.key.toBytes w.value := by
  have hrolled : (rolls H s w && rollSucceeds s w) = rolls H s w := by
    cases hn : rolls H s w with
    | false => rfl
    | true => exact hs.2 hn
  obtain ⟨hhelper, hdb⟩ := written_ready hr hs
  obtain ⟨h, hh⟩ := Option.isSome_iff_exists.mp hdb
  -- `Write` of the file with what the helper says
  have hwrite : s.file.write s.fs w.key w.value
      { w.answers with needToRoll := H.needToRoll s.helper w.metadata } =
      some (true, (written H s w).1.put h.path w.key.toBytes w.value, (written H s w).2) :=
    write_of_db rfl hh hs.1
  refine ⟨_, by rw [step, hwrite, Option.map_some], ⟨hhelper, hdb⟩, ?_, ?_, ?_, ?_, rfl, h, hh, rfl⟩
  · simp only [hrolled, hr.rollingHelper, Bool.true_and, if_true]
  · simp only [hrolled, if_true]
  · simp only [hrolled]
  · simp only [hrolled]

/-- A sequence of writes whose operations succeed can be performed. -/
theorem exec_of_succeeds {s : State σ} {ws : List Write} (hr : Ready s)
    (hs : (system H).StepsMeet (Succeeds H) s ws) : ∃ t, (system H).exec s ws = some t := by
  induction ws generalizing s with
  | nil => exact ⟨s, rfl⟩
  | cons w ws ih =>
    obtain ⟨u, hu, hready, -⟩ := step_of_succeeds hr hs.1
    obtain ⟨t, ht⟩ := ih hready (hs.2 u hu)
    refine ⟨t, ?_⟩
    rw [TransitionSystem.exec_cons, show (system H).step s w = some u from hu, Option.bind_some, ht]

section Sample
open RecordSession (unopenedFile emptyDisk proceeding)

/-- A new record file on an empty disk, opened. -/
def openedFile (helper : σ) (clock : ℤ) : State σ :=
  let opened := (unopenedFile "a.ldb.d").file.openDB emptyDisk true proceeding
  { fs := opened.2.1, file := opened.2.2, helper := helper, puts := [], rolledFrom := [],
    clock := clock }

theorem init_openedFile (H : RollingHelper σ) (helper : σ) (clock : ℤ) :
    (system H).init (openedFile helper clock) :=
  ⟨rfl, rfl, rfl, rfl⟩

end Sample

end RollingSession
end CrisCore
