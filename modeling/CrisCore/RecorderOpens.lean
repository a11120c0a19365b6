import CrisCore.RecorderSnapshot
import CrisCore.RecordReplay

/-! What a recorder does with record files whose `OpenDB` has failed: which calls go to a null
`db_`. -/
namespace CrisCore.RecorderOpens
open RecordFile MessageRecorder

variable {codec : MessageCodec}

inductive DbCall
  | put
  | newIterator
  | compactRange
  deriving DecidableEq

/-- A call with the `db_` that it goes through. -/
abbrev Access := DbCall × Option DbHandle

/-- The calls of `CloseDB`: `Compact` when it is asked for, and `Empty`. -/
def closeDBAccesses (file : RecordFile) : List Access :=
  match file.db with
  | none => []
  | some _ =>
    (if file.compactBeforeClose then [(.compactRange, file.db)] else []) ++ [(.newIterator, file.db)]

/-- `Roll` closes the database when it has opened the new one. -/
def rollAccesses (fs : FileSystem) (file : RecordFile) (answers : WriteAnswers) : List Access :=
  match openDBAt fs file (newFilepath file answers.newRecordDirName) answers.opens with
  | (none, _, _) => []
  | (some _, _, file) => closeDBAccesses file

/-- `Write` calls `Put` in any case. -/
def writeAccesses (fs : FileSystem) (file : RecordFile) (answers : WriteAnswers) : List Access :=
  if file.rollingHelper && answers.needToRoll then
    rollAccesses fs file answers ++ [(.put, (roll fs file answers).2.2.db)]
  else [(.put, file.db)]

/-- `Write` opens another database first. -/
def RollsTo (fs : FileSystem) (file : RecordFile) (answers : WriteAnswers) : Prop :=
  (file.rollingHelper && answers.needToRoll) = true ∧
    (openDBAt fs file (newFilepath file answers.newRecordDirName) answers.opens).1.isSome = true

instance (fs : FileSystem) (file : RecordFile) (answers : WriteAnswers) :
    Decidable (RollsTo fs file answers) := inferInstanceAs (Decidable (_ ∧ _))

structure State (codec : MessageCodec) where
  recorder : MessageRecorder codec
  /-- History, in the order of `files_`: what the last `OpenDB` for the file returned. -/
  opened : List Bool

inductive Op (codec : MessageCodec)
  | registerChannel (channel : Channel) (linkname utcTime : String) (renames : Bool)
      (answers : OpenAnswers)
  | deliver (message : Published codec) (now : Int64) (answers : WriteAnswers)
  | makeKey (now : Int64)
  | generateSnapshot (snapshotDir : List String) (answers : SnapshotAnswers)

/-- What `OpenDB` returns for each of the files that `openFiles` opens. -/
def openResults (answers : List ReopenAnswers) (fs : FileSystem) :
    List (Channel × RecordFile) → List Bool
  | [] => []
  | (_, file) :: rest =>
    let a := answers.headD .succeeding
    let result := file.openDB fs a.checksOut a.opens
    (match result.1 with
      | .ok opened => opened
      | .error _ => false) :: openResults answers.tail result.2.1 rest

/-- The file that `updateFile` updates has opened a database. -/
def setOpened (channel : Channel) : List (Channel × RecordFile) → List Bool → List Bool
  | g :: files, o :: opened =>
    if g.1 = channel then true :: opened else o :: setOpened channel files opened
  | _, opened => opened

/-- The file that the subscription of the channel writes to, with what its last `OpenDB` returned. -/
def fileOpened (s : State codec) (channel : Channel) : Option ((Channel × RecordFile) × Bool) :=
  (s.recorder.files.zip s.opened).find? fun g => g.1.1 = channel

/-- An exception of `OpenDB` leaves the constructor of the file, and the recorder has no file more. -/
def step (s : State codec) : Op codec → Option (State codec)
  | .registerChannel channel linkname utcTime renames answers =>
    match ((s.recorder.newFile channel linkname utcTime).openDB s.recorder.fs renames answers).1 with
    | .error _ => some s
    | .ok opened =>
      (s.recorder.step (.registerChannel channel linkname utcTime renames answers)).map fun recorder =>
        ⟨recorder, s.opened ++ [opened]⟩
  | .deliver m now answers =>
    (s.recorder.step (.deliver m now answers)).map fun recorder =>
      { recorder := recorder
        opened :=
          match fileOpened s m.channel with
          | some ((_, file), _) =>
            if RollsTo s.recorder.fs file answers then setOpened m.channel s.recorder.files s.opened
            else s.opened
          | none => s.opened }
  | .makeKey now => (s.recorder.step (.makeKey now)).map fun recorder => { s with recorder := recorder }
  | .generateSnapshot snapshotDir answers =>
    (s.recorder.generateSnapshotImpl snapshotDir answers).map fun result =>
      let closed := closeFiles answers.reopens s.recorder.fs s.recorder.files
      let copied := closed.1.copy s.recorder.getRecordDir snapshotDir answers.copyStopsAfter
      ⟨result.2, openResults answers.reopens copied.2 closed.2⟩

def initial (recorder : MessageRecorder codec) : State codec := ⟨recorder, []⟩

def system (codec : MessageCodec) : TransitionSystem (State codec) (Op codec) where
  init s := ∃ recorder, recorder.files = [] ∧ s = initial recorder
  step := step

/-- The calls that a step makes to the databases of its record files. -/
def accesses (s : State codec) : Op codec → List Access
  | .deliver m _ answers =>
    match s.recorder.files.find? fun g => g.1 = m.channel with
    | none => []
    | some (_, file) => writeAccesses s.recorder.fs file answers
  | .generateSnapshot _ _ => s.recorder.files.flatMap fun g => closeDBAccesses g.2
  | .registerChannel .. | .makeKey _ => []

def NoNullUse (s : State codec) (op : Op codec) : Prop :=
  ∀ access ∈ accesses s op, access.2 ≠ none

instance (s : State codec) (op : Op codec) : Decidable (NoNullUse s op) :=
  inferInstanceAs (Decidable (∀ access ∈ accesses s op, _))

/-- A message is recorded only when the last `OpenDB` for its file has succeeded, or when its `Write`
rolls to a database that it opens. -/
def RecordsOpened (s : State codec) : Op codec → Prop
  | .deliver m _ answers => ∀ g ∈ fileOpened s m.channel,
      g.2 = true ∨ RollsTo s.recorder.fs g.1.2 answers
  | _ => True

instance (s : State codec) : (op : Op codec) → Decidable (RecordsOpened s op)
  | .deliver m _ _ => inferInstanceAs (Decidable (∀ g ∈ fileOpened s m.channel, _))
  | .registerChannel .. | .makeKey _ | .generateSnapshot .. => .isTrue trivial

/-- A file has a database exactly when its last `OpenDB` succeeded. -/
def Tracks (s : State codec) : Prop :=
  s.opened = s.recorder.files.map fun g => g.2.db.isSome

theorem closeDBAccesses_ne_none (file : RecordFile) :
    ∀ access ∈ closeDBAccesses file, access.2 ≠ none := by
  intro access ha
  unfold closeDBAccesses at ha
  split at ha
  · cases ha
  · next h hdb =>
    have hsome : file.db ≠ none := by simp [hdb]
    rcases List.mem_append.mp ha with ha | ha
    · split_ifs at ha
      · rw [List.mem_singleton.mp ha]
        exact hsome
      · cases ha
    · rw [List.mem_singleton.mp ha]
      exact hsome

theorem openDBAt_db {fs fs' : FileSystem} {file file' : RecordFile} {path : Path}
    {answers : OpenAnswers} {h : Option DbHandle}
    (ho : openDBAt fs file path answers = (h, fs', file')) : file'.db = file.db := by
  cases h with
  | none =>
    rcases (openDBAt_none ho).1 with rfl | rfl <;> rfl
  | some h =>
    rcases (openDBAt_some ho).2.2.2.1 with rfl | rfl <;> rfl

/-- A `Write` goes through a null `db_` when the file has no database and does not roll to one. -/
theorem writeAccesses_ne_none (fs : FileSystem) (file : RecordFile) (answers : WriteAnswers) :
    (∀ access ∈ writeAccesses fs file answers, access.2 ≠ none) ↔
      file.db.isSome = true ∨ RollsTo fs file answers := by
  unfold writeAccesses RollsTo
  by_cases hroll : (file.rollingHelper && answers.needToRoll) = true
  case neg =>
    rw [if_neg hroll]
    simp only [List.mem_singleton, forall_eq, hroll, Bool.false_eq_true, false_and, or_false]
    exact Option.isSome_iff_ne_none.symm
  case pos =>
    rw [if_pos hroll]
    simp only [hroll, true_and]
    cases hopen : openDBAt fs file (newFilepath file answers.newRecordDirName) answers.opens with
    | mk h rest =>
      obtain ⟨fs', file'⟩ := rest
      have hdb := openDBAt_db hopen
      cases h with
      | none =>
        simp only [rollAccesses, roll, hopen, hdb]
        rw [List.nil_append]
        simp only [List.mem_singleton, forall_eq, Option.isSome_none, Bool.false_eq_true, or_false]
        exact Option.isSome_iff_ne_none.symm
      | some newDb =>
        refine iff_of_true ?_ (.inr rfl)
        simp only [rollAccesses, roll, hopen]
        intro access ha
        rcases List.mem_append.mp ha with ha | ha
        · exact closeDBAccesses_ne_none file' access ha
        · rw [List.mem_singleton.mp ha]
          exact Option.some_ne_none newDb

theorem fileOpened_of_tracks {s : State codec} (h : Tracks s) (channel : Channel) :
    fileOpened s channel = (s.recorder.files.find? fun g => g.1 = channel).map fun g =>
      (g, g.2.db.isSome) := by
  have hzip : s.recorder.files.zip (s.recorder.files.map fun g => g.2.db.isSome) =
      s.recorder.files.map fun g => (g, g.2.db.isSome) := by
    simpa using List.zip_map' (f := id) (g := fun g : Channel × RecordFile => g.2.db.isSome)
      (l := s.recorder.files)
  rw [fileOpened, h, hzip, List.find?_map]
  rfl

/-- Under the history, a step uses a null `db_` exactly when it records to a file that is not open. -/
theorem noNullUse_iff {s : State codec} (h : Tracks s) (op : Op codec) :
    RecordsOpened s op ↔ NoNullUse s op := by
  cases op with
  | registerChannel | makeKey => exact iff_of_true trivial fun _ ha => nomatch ha
  | generateSnapshot snapshotDir answers =>
    refine iff_of_true trivial fun access ha => ?_
    obtain ⟨g, -, ha⟩ := List.mem_flatMap.mp ha
    exact closeDBAccesses_ne_none g.2 access ha
  | deliver m now answers =>
    simp only [RecordsOpened, NoNullUse, accesses, fileOpened_of_tracks h]
    cases hfind : s.recorder.files.find? fun g => g.1 = m.channel with
    | none => simp
    | some g =>
      simp only [Option.map_some, Option.mem_some_iff, forall_eq']
      exact (writeAccesses_ne_none ..).symm

theorem openDB_db {fs fs' : FileSystem} {file file' : RecordFile} {renames opened : Bool}
    {answers : OpenAnswers} (hnone : file.db = none)
    (ho : file.openDB fs renames answers = (.ok opened, fs', file')) :
    file'.db.isSome = opened := by
  unfold openDB at ho
  split_ifs at ho with hskip
  · cases ho
    rw [hnone]
    rfl
  · split at ho
    · cases ho
    · split at ho
      · next hopen =>
        cases ho
        rw [openDBAt_db hopen, hnone]
        rfl
      · cases ho
        rfl

theorem tracks_registerChannel {s s' : State codec} {channel : Channel} {linkname utcTime : String}
    {renames : Bool} {answers : OpenAnswers} (h : Tracks s)
    (hs : step s (.registerChannel channel linkname utcTime renames answers) = some s') :
    Tracks s' := by
  simp only [step, MessageRecorder.step] at hs
  cases ho : (s.recorder.newFile channel linkname utcTime).openDB s.recorder.fs renames answers with
  | mk result rest =>
    obtain ⟨fs, file⟩ := rest
    rw [ho] at hs
    cases result with
    | error e =>
      cases hs
      exact h
    | ok opened =>
      cases hs
      have hdb : file.db.isSome = opened := openDB_db rfl ho
      simp only [Tracks, List.map_append, List.map_cons, List.map_nil, hdb] at h ⊢
      rw [h]

theorem setOpened_updateFile {channel : Channel} {file : RecordFile} (hfile : file.db.isSome = true)
    (files : List (Channel × RecordFile)) :
    setOpened channel files (files.map fun g => g.2.db.isSome) =
      (updateFile channel file files).map fun g => g.2.db.isSome := by
  induction files with
  | nil => rfl
  | cons g files ih =>
    simp only [List.map_cons, setOpened, updateFile]
    split_ifs
    · rw [List.map_cons, hfile]
    · rw [List.map_cons, ih]

theorem setOpened_of_opened {channel : Channel} {g : Channel × RecordFile}
    {files : List (Channel × RecordFile)} (hfind : files.find? (fun g => g.1 = channel) = some g)
    (hg : g.2.db.isSome = true) :
    setOpened channel files (files.map fun g => g.2.db.isSome) = files.map fun g => g.2.db.isSome := by
  induction files with
  | nil => rfl
  | cons g' files ih =>
    simp only [List.map_cons, setOpened]
    split_ifs with hc
    · rw [List.find?_cons_of_pos (by simpa using hc), Option.some.injEq] at hfind
      rw [hfind, hg]
    · rw [List.find?_cons_of_neg (by simpa using hc)] at hfind
      rw [ih hfind]

theorem tracks_deliver {s s' : State codec} {m : Published codec} {now : Int64}
    {answers : WriteAnswers} (h : Tracks s) (hs : step s (.deliver m now answers) = some s') :
    Tracks s' := by
  simp only [step, MessageRecorder.step, fileOpened_of_tracks h] at hs
  cases hfind : s.recorder.files.find? fun g => g.1 = m.channel with
  | none => simp [hfind] at hs
  | some g =>
    obtain ⟨channel, file⟩ := g
    simp only [hfind, Option.map_some, Option.map_eq_some_iff] at hs
    obtain ⟨recorder, ⟨result, hwrite, rfl⟩, rfl⟩ := hs
    -- `Put` has gone through the handle that is left
    have hput : result.2.2.db.isSome = true := by
      unfold write at hwrite
      simp only at hwrite
      split at hwrite
      · cases hwrite
      · next handle hdb =>
        cases hwrite
        rw [hdb]
        rfl
    have hset : setOpened m.channel s.recorder.files
        (s.recorder.files.map fun g => g.2.db.isSome) = _ :=
      setOpened_updateFile hput s.recorder.files
    simp only [Tracks] at h ⊢
    split_ifs with hroll
    · rw [h, hset]
    · -- the file writes to the database that it had
      have hdb : result.2.2.db = file.db := by
        unfold write at hwrite
        simp only at hwrite
        split at hwrite
        · cases hwrite
        · cases hwrite
          simp only
          by_cases hneed : (file.rollingHelper && answers.needToRoll) = true
          · rw [if_pos hneed]
            simp only [RollsTo, hneed, true_and] at hroll
            unfold roll
            cases hopen : openDBAt s.recorder.fs file (newFilepath file answers.newRecordDirName)
                answers.opens with
            | mk handle rest =>
              cases handle with
              | none => exact openDBAt_db hopen
              | some handle => simp [hopen] at hroll
          · rw [if_neg hneed]
      rw [← hset, setOpened_of_opened hfind (by rw [← hdb]; exact hput)]
      exact h

theorem closeFiles_db (answers : List ReopenAnswers) (fs : FileSystem)
    (files : List (Channel × RecordFile)) :
    ∀ g ∈ (closeFiles answers fs files).2, g.2.db = none := by
  induction files generalizing answers fs with
  | nil => exact fun g hg => nomatch hg
  | cons g files ih =>
    obtain ⟨channel, file⟩ := g
    intro g hg
    rcases List.mem_cons.mp hg with rfl | hg
    · simp only [closeDB]
      split
      · assumption
      · rfl
    · exact ih _ _ g hg

theorem openFiles_db {answers : List ReopenAnswers} {fs : FileSystem}
    {files : List (Channel × RecordFile)} {opened : FileSystem × List (Channel × RecordFile)}
    (hnone : ∀ g ∈ files, g.2.db = none) (ho : openFiles answers fs files = some opened) :
    openResults answers fs files = opened.2.map fun g => g.2.db.isSome := by
  induction files generalizing answers fs opened with
  | nil =>
    cases ho
    rfl
  | cons g files ih =>
    obtain ⟨channel, file⟩ := g
    simp only [openFiles] at ho
    simp only [openResults]
    cases hfile : file.openDB fs (answers.headD .succeeding).checksOut
        (answers.headD .succeeding).opens with
    | mk result rest =>
      obtain ⟨fs', file'⟩ := rest
      rw [hfile] at ho
      cases result with
      | error e => cases ho
      | ok b =>
        obtain ⟨others, hothers, rfl⟩ := Option.map_eq_some_iff.mp ho
        have hdb : file'.db.isSome = b := openDB_db (hnone _ List.mem_cons_self) hfile
        simp only [List.map_cons, hdb]
        rw [ih (fun g hg => hnone g (List.mem_cons_of_mem _ hg)) hothers]

theorem tracks_step {s s' : State codec} {op : Op codec} (h : Tracks s)
    (hs : step s op = some s') : Tracks s' := by
  cases op with
  | registerChannel channel linkname utcTime renames answers => exact tracks_registerChannel h hs
  | deliver m now answers => exact tracks_deliver h hs
  | makeKey now =>
    cases hs
    exact h
  | generateSnapshot snapshotDir answers =>
    simp only [step, generateSnapshotImpl, Option.map_map, Option.map_eq_some_iff] at hs
    obtain ⟨opened, ho, rfl⟩ := hs
    exact openFiles_db (closeFiles_db _ _ _) ho

/-- No step of a recorder uses a null `db_` exactly when no message is recorded to a file whose last
`OpenDB` failed, unless its `Write` rolls to a database that it opens. A snapshot uses none in any
case. -/
theorem failed_open_not_used (recorder : MessageRecorder codec) (hnew : recorder.files = [])
    (ops : List (Op codec)) :
    (system codec).StepsMeet NoNullUse (initial recorder) ops ↔
      (system codec).StepsMeet RecordsOpened (initial recorder) ops := by
  have htracks : Tracks (initial recorder) := by simp [Tracks, initial, hnew]
  exact (TransitionSystem.stepsMeet_congr_of_kept htracks (fun _ _ _ h _ hs => tracks_step h hs)
    fun _ op h => noNullUse_iff h op).symm

/-- The directory of the channel cannot be made. -/
def noDirs : OpenAnswers := ⟨false, .proceeds, .proceeds, true⟩

def snapshotAnswers (opens : OpenAnswers) : SnapshotAnswers := ⟨[⟨true, true, opens⟩], true, none⟩

/-- The file is not open at first and is opened by a snapshot before a message comes. -/
def openedLater : List (Op rawCodec) :=
  [.registerChannel intChannel "int" "20230316T041531" true noDirs,
    .generateSnapshot ["snapshots", "first"] (snapshotAnswers willing),
    .deliver ⟨intChannel, [0]⟩ 5 putsOnly]

theorem failed_open_not_used_openedLater :
    (system rawCodec).StepsMeet NoNullUse (initial newRecorder) openedLater :=
  (failed_open_not_used newRecorder rfl openedLater).mpr (by decide +kernel)

/-- A message comes after the constructor of its file, or a snapshot, has failed to open it. -/
theorem null_database_used :
    ¬ (system rawCodec).StepsMeet NoNullUse (initial newRecorder)
        [.registerChannel intChannel "int" "20230316T041531" true noDirs,
          .deliver ⟨intChannel, [0]⟩ 5 putsOnly] ∧
      ¬ (system rawCodec).StepsMeet NoNullUse (initial newRecorder)
        [.registerChannel intChannel "int" "20230316T041531" true willing,
          .generateSnapshot ["snapshots", "first"] (snapshotAnswers noDirs),
          .deliver ⟨intChannel, [0]⟩ 5 putsOnly] := by
  constructor <;> decide +kernel

end CrisCore.RecorderOpens
