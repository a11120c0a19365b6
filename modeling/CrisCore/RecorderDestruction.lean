import CrisCore.PlainDirectories
import CrisCore.RecorderConfig
import CrisCore.RecorderSnapshot
import CrisCore.RecordReplay

/-! `~MessageRecorder` after any use of the recorder. The record directory is made by the first
`RecordFile` that opens its database, if by anybody, and the destructor asks whether it is empty. -/
namespace CrisCore.RecorderDestruction
open FileSystem MessageRecorder RecordFile
open RecorderConfig (Rolling)

variable {codec : MessageCodec}

/-- `CreateRollingHelper`: whether there is a helper, or the text of the `std::logic_error`. -/
def createRollingHelper : Rolling → Except String Bool
  | .kNone => .ok false
  | .kDay | .kHour => .ok true
  | .kSize => .error "Record rolling by size is unsupported at present."

structure State (codec : MessageCodec) where
  recorder : MessageRecorder codec
  /-- `recorder_config_.rolling_` -/
  rolling : Rolling
  dirs : Directories

def State.recordDir (s : State codec) : List String :=
  s.recorder.getRecordDir

inductive Op (codec : MessageCodec)
  | registerChannel (channel : Channel) (linkname utcTime : String) (renames : Bool)
      (answers : OpenAnswers)
  | deliver (message : Published codec) (now : Int64) (answers : WriteAnswers)
  | makeKey (now : Int64)
  /-- `GenerateSnapshot` may be called with any directory. -/
  | generateSnapshot (snapshotDir : List String) (answers : SnapshotAnswers)
  /-- `MaintainMaxNumOfSnapshots` removes a snapshot of `SnapshotWorker`. -/
  | removeSnapshot (interval name : String)

/-- The directories after `OpenDB()`, which makes those above the database. -/
def openDirs (dirs : Directories) (fs : FileSystem) (file : RecordFile) (renames : Bool)
    (answers : OpenAnswers) : Directories :=
  if file.db.isSome || file.filepath.isEmpty then dirs
  else
    match file.checkoutDB fs renames with
    | .error _ => dirs
    | .ok _ => if answers.makeDirs then createDirectories dirs file.filepath.parent else dirs

/-- The same for all files that a snapshot opens again. -/
def openFilesDirs (answers : List ReopenAnswers) (fs : FileSystem) (dirs : Directories) :
    List (Channel × RecordFile) → Directories
  | [] => dirs
  | (_, file) :: rest =>
    let a := answers.headD .succeeding
    openFilesDirs answers.tail (file.openDB fs a.checksOut a.opens).2.1
      (openDirs dirs fs file a.checksOut a.opens) rest

/-- The directories after a `Write` to the file, which makes them when it rolls. -/
def writeDirs (dirs : Directories) (file : RecordFile) (answers : WriteAnswers) : Directories :=
  if file.rollingHelper && answers.needToRoll && answers.opens.makeDirs then
    createDirectories dirs file.filepath.parent
  else dirs

/-- An exception leaves `RegisterChannel` and the recorder as it was. No step where a job on
`record_strand_` would end the process: by an exception, or by a call through a null `db_`. -/
def step (s : State codec) : Op codec → Option (State codec)
  | .registerChannel channel linkname utcTime renames answers =>
    match createRollingHelper s.rolling with
    | .error _ => some s
    | .ok _ =>
      let file := s.recorder.newFile channel linkname utcTime
      match (file.openDB s.recorder.fs renames answers).1 with
      | .error _ => some s
      | .ok _ =>
        (s.recorder.step (.registerChannel channel linkname utcTime renames answers)).map
          fun recorder => { s with
            recorder := recorder
            dirs := openDirs s.dirs s.recorder.fs file renames answers }
  | .deliver m now answers =>
    (s.recorder.step (.deliver m now answers)).map fun recorder => { s with
      recorder := recorder
      dirs :=
        match s.recorder.files.find? fun g => g.1 = m.channel with
        | none => s.dirs
        | some (_, file) => writeDirs s.dirs file answers }
  | .makeKey now => (s.recorder.step (.makeKey now)).map fun recorder => { s with recorder := recorder }
  | .generateSnapshot snapshotDir answers =>
    let closed := closeFiles answers.reopens s.recorder.fs s.recorder.files
    let copied := closed.1.copy s.recordDir snapshotDir answers.copyStopsAfter
    let made := if answers.createDirectories then createDirectories s.dirs snapshotDir else s.dirs
    let dirs := copyDirectories made s.recordDir snapshotDir answers.copyStopsAfter
    (s.recorder.generateSnapshotImpl snapshotDir answers).map fun result => { s with
      recorder := result.2
      dirs := openFilesDirs answers.reopens copied.2 dirs closed.2 }
  | .removeSnapshot interval name =>
    let snapshotDir := s.recordDir.dropLast ++ ["snapshots", interval, name]
    some { s with
      recorder := { s.recorder with fs := s.recorder.fs.removeBelow snapshotDir }
      dirs := removeDirectories s.dirs snapshotDir }

/-- A new recorder; other recorders may have left their directories. -/
structure Initial (s : State codec) : Prop where
  files : s.recorder.files = []
  written : s.recorder.written = []
  rolling : s.recorder.rolling = (s.rolling != .kNone)
  housed : Housed s.recorder.fs s.dirs

def system (codec : MessageCodec) : TransitionSystem (State codec) (Op codec) where
  init := Initial
  step := step

/-- `~MessageRecorder`, from where the snapshot worker has stopped. -/
def destroy (s : State codec) : Except FilesystemError (State codec) :=
  let fs := clearFiles s.recorder.fs s.recorder.files
  match fs.isEmpty s.dirs s.recordDir with
  | .error e => .error e
  | .ok empty => .ok { s with
      recorder := { s.recorder with fs := fs, files := [] }
      dirs := if empty then removeDirectory s.dirs s.recordDir else s.dirs }

/-- The operations of the file system succeed, also those that a job on `record_strand_` makes;
LevelDB may fail. -/
def Succeeds (s : State codec) : Op codec → Prop
  | .registerChannel _ _ _ renames answers => renames = true ∧ answers.makeDirs = true
  | .deliver _ _ answers =>
    answers.needToRoll = true → answers.renames = true ∧ answers.opens.makeDirs = true
  | .generateSnapshot snapshotDir answers =>
    (answers.createDirectories = true ∨ snapshotDir ∈ s.dirs) ∧ answers.copyStopsAfter = none ∧
      ∀ a ∈ answers.reopens, a.commits = true ∧ a.checksOut = true ∧ a.opens.makeDirs = true
  | .makeKey _ | .removeSnapshot _ _ => True

instance (s : State codec) : (op : Op codec) → Decidable (Succeeds s op)
  | .registerChannel .. => inferInstanceAs (Decidable (_ ∧ _))
  | .deliver .. => inferInstanceAs (Decidable (_ → _))
  | .generateSnapshot .. => inferInstanceAs (Decidable (_ ∧ _ ∧ _))
  | .makeKey _ | .removeSnapshot _ _ => inferInstanceAs (Decidable True)

/-- The destructor comes to its end, with the record directory removed if it is there and empty and
everything else as the record files leave it when they are closed. -/
def Destroys (s : State codec) : Prop :=
  ∃ t, destroy s = .ok t ∧ t.recorder.files = [] ∧
    t.recorder.fs = clearFiles s.recorder.fs s.recorder.files ∧
    ∀ d, d ∈ t.dirs ↔ d ∈ s.dirs ∧ ¬ (d = s.recordDir ∧ t.recorder.fs.Bare s.dirs s.recordDir)

/-- A `RegisterChannel` that gets as far as a record file, or a snapshot in the record directory. -/
def MakesRecordDir (rolling : Rolling) (recordDir : List String) : Op codec → Prop
  | .registerChannel .. => rolling ≠ .kSize
  | .generateSnapshot snapshotDir _ => recordDir <+: snapshotDir
  | .deliver .. | .makeKey _ | .removeSnapshot _ _ => False

instance (rolling : Rolling) (recordDir : List String) :
    (op : Op codec) → Decidable (MakesRecordDir rolling recordDir op)
  | .registerChannel .. => inferInstanceAs (Decidable (_ ≠ _))
  | .generateSnapshot .. => inferInstanceAs (Decidable (_ <+: _))
  | .deliver .. | .makeKey _ | .removeSnapshot _ _ => inferInstanceAs (Decidable False)

section Destroy
variable {s : State codec}

theorem destroy_error (h : s.recordDir ∉ s.dirs) : destroy s = .error ⟨s.recordDir⟩ := by
  simp only [destroy, isEmpty_error h]

/-- `is_empty` is all that can throw. -/
theorem destroys_iff_mem : Destroys s ↔ s.recordDir ∈ s.dirs := by
  constructor
  · rintro ⟨t, ht, -⟩
    by_contra hnot
    rw [destroy_error hnot] at ht
    cases ht
  · intro hmem
    let fs := clearFiles s.recorder.fs s.recorder.files
    let dirs :=
      if decide (fs.Bare s.dirs s.recordDir) then removeDirectory s.dirs s.recordDir else s.dirs
    refine ⟨{ s with recorder := { s.recorder with fs := fs, files := [] }, dirs := dirs },
      by simp only [destroy, isEmpty_ok hmem, fs, dirs], rfl, rfl, fun d => ?_⟩
    by_cases hbare : fs.Bare s.dirs s.recordDir
    · simp [dirs, hbare, removeDirectory]
    · simp [dirs, hbare]

end Destroy

section Housing
variable {fs fs' : FileSystem} {dirs : Directories} {f : RecordFile} {path : Path}

theorem housed_checkoutDB {renames : Bool} (h : Housed fs dirs)
    (hc : f.checkoutDB fs renames = .ok fs') : Housed fs' dirs := by
  unfold checkoutDB at hc
  split_ifs at hc
  · cases hc
    exact h
  · cases renames with
    | false => cases hc
    | true =>
      cases hr : fs.rename f.filepath f.filepath.unfinishedPath with
      | none =>
        rw [hr] at hc
        cases hc
      | some g =>
        rw [hr] at hc
        cases hc
        exact h.rename (p := f.filepath) (q := f.filepath.unfinishedPath) rfl hr

theorem housed_openDBAt (h : Housed fs dirs) (f : RecordFile) (path : Path)
    (answers : OpenAnswers) :
    Housed (f.openDBAt fs path answers).2.1
      (if answers.makeDirs then createDirectories dirs path.parent else dirs) := by
  cases hmake : answers.makeDirs with
  | false => simpa [openDBAt, hmake] using h
  | true =>
    have hmade := h.createDirectories path.parent
    have hpath : path.unfinishedPath.parent ∈ createDirectories dirs path.parent :=
      mem_createDirectories.mpr (Or.inr List.prefix_rfl)
    have hfirst := hmade.tryOpen hpath false answers.default
    have hsecond := hfirst.tryOpen hpath true answers.legacy
    simp only [openDBAt, hmake, Bool.not_true, Bool.false_eq_true, if_false, if_true]
    split_ifs
    · exact hfirst
    · exact hsecond
    · exact hsecond

theorem housed_openDB (h : Housed fs dirs) (renames : Bool) (answers : OpenAnswers) :
    Housed (f.openDB fs renames answers).2.1 (openDirs dirs fs f renames answers) := by
  unfold openDB openDirs
  by_cases hskip : (f.db.isSome || f.filepath.isEmpty) = true
  · simp only [if_pos hskip]
    exact h
  · simp only [if_neg hskip]
    cases hc : f.checkoutDB fs renames with
    | error e => exact h
    | ok g =>
      have hat := housed_openDBAt (housed_checkoutDB h hc) f f.filepath answers
      rcases hopen : f.openDBAt g f.filepath answers with ⟨_ | handle, g', f'⟩
      · simp only [hopen] at hat ⊢
        exact hat
      · simp only [hopen] at hat ⊢
        refine hat.congr fun p hp => Or.inl ?_
        rwa [makeLink_node] at hp

theorem housed_closeDB (h : Housed fs dirs) (renames : Bool) :
    Housed (f.closeDB fs renames).1 dirs := by
  cases hdb : f.db with
  | none => simpa [closeDB, hdb] using h
  | some handle =>
    refine h.congr fun p hp => ?_
    rw [closeDB_node hdb] at hp
    split_ifs at hp
    · exact absurd rfl hp
    · rw [node_commitDB] at hp
      split_ifs at hp with hcommits hfin
      · -- the committed database was beside its final name
        rw [hfin]
        exact Or.inr (h.parent f.filepath.unfinishedPath hp)
      · exact absurd rfl hp
      · exact Or.inl hp
      · exact Or.inl hp

theorem housed_write {key : RecordFileKey} {value : Bytes} {answers : WriteAnswers} {ok : Bool}
    {f' : RecordFile} (h : Housed fs dirs)
    (hw : f.write fs key value answers = some (ok, fs', f')) :
    Housed fs' (writeDirs dirs f answers) := by
  have hrolled : Housed
      (if f.rollingHelper && answers.needToRoll then (f.roll fs answers).2 else (fs, f)).1
      (writeDirs dirs f answers) := by
    unfold writeDirs
    cases hroll : f.rollingHelper && answers.needToRoll with
    | false => simpa using h
    | true =>
      have hat := housed_openDBAt h f (f.newFilepath answers.newRecordDirName) answers.opens
      simp only [if_true, Bool.true_and, roll]
      rcases hopen : f.openDBAt fs (f.newFilepath answers.newRecordDirName) answers.opens with
        ⟨_ | handle, g, f'⟩
      · rw [hopen] at hat
        exact hat
      · rw [hopen] at hat
        exact housed_closeDB hat answers.renames
  unfold write at hw
  generalize (if f.rollingHelper && answers.needToRoll then (f.roll fs answers).2 else (fs, f)) =
    rolled at hw hrolled
  simp only at hw
  cases hdb : rolled.2.db with
  | none =>
    rw [hdb] at hw
    cases hw
  | some handle =>
    simp only [hdb, Option.some.injEq, Prod.mk.injEq] at hw
    rw [← hw.2.1]
    split_ifs
    · exact hrolled.put handle.path key.toBytes value
    · exact hrolled

theorem housed_closeFiles (h : Housed fs dirs) (answers : List ReopenAnswers)
    (files : List (Channel × RecordFile)) : Housed (closeFiles answers fs files).1 dirs := by
  induction files generalizing fs answers with
  | nil => exact h
  | cons g rest ih => exact ih (housed_closeDB h _) answers.tail

theorem housed_openFiles {files files' : List (Channel × RecordFile)}
    {answers : List ReopenAnswers} (h : Housed fs dirs)
    (ho : openFiles answers fs files = some (fs', files')) :
    Housed fs' (openFilesDirs answers fs dirs files) := by
  induction files generalizing fs dirs answers files' with
  | nil =>
    cases ho
    exact h
  | cons g rest ih =>
    obtain ⟨channel, file⟩ := g
    have hopened := housed_openDB (f := file) h (answers.headD .succeeding).checksOut
      (answers.headD .succeeding).opens
    simp only [openFiles] at ho
    simp only [openFilesDirs]
    rcases hopen : file.openDB fs (answers.headD .succeeding).checksOut
      (answers.headD .succeeding).opens with ⟨_ | ok, fs1, file1⟩
    · rw [hopen] at ho
      cases ho
    · rw [hopen] at ho hopened
      obtain ⟨others, hothers, heq⟩ := Option.map_eq_some_iff.mp ho
      obtain ⟨rfl, rfl⟩ := Prod.mk.inj heq
      exact ih hopened hothers

end Housing

section Steps
variable {s t : State codec} {op : Op codec}

theorem mem_openDirs {dirs : Directories} {fs : FileSystem} {file : RecordFile} {renames : Bool}
    {answers : OpenAnswers} {d : List String} (hd : d ∈ dirs) :
    d ∈ openDirs dirs fs file renames answers := by
  have hmade : d ∈ createDirectories dirs file.filepath.parent :=
    mem_createDirectories.mpr (Or.inl hd)
  unfold openDirs
  cases file.checkoutDB fs renames with
  | error e => simpa using hd
  | ok g => split_ifs <;> assumption

/-- Directories are only added. -/
theorem mem_openFilesDirs {dirs : Directories} {fs : FileSystem} {answers : List ReopenAnswers}
    {files : List (Channel × RecordFile)} {d : List String} (hd : d ∈ dirs) :
    d ∈ openFilesDirs answers fs dirs files := by
  induction files generalizing dirs fs answers with
  | nil => exact hd
  | cons g rest ih => exact ih (mem_openDirs hd)

theorem mem_writeDirs {dirs : Directories} {file : RecordFile} {answers : WriteAnswers}
    {d : List String} (hd : d ∈ dirs) : d ∈ writeDirs dirs file answers := by
  unfold writeDirs
  split_ifs
  · exact mem_createDirectories.mpr (Or.inl hd)
  · exact hd

/-- Where `OpenDB` throws, something has the final name of the database already. -/
theorem node_of_openDB_error {fs : FileSystem} {f : RecordFile} {renames : Bool}
    {answers : OpenAnswers} {e : CheckoutError}
    (h : (f.openDB fs renames answers).1 = .error e) : fs.node f.filepath ≠ none := by
  intro hnone
  have hc : f.checkoutDB fs renames = .ok fs := by simp [checkoutDB, pathExists, hnone]
  simp only [openDB, hc] at h
  split_ifs at h
  split at h <;> cases h

/-- What the recorder relies on from one step to the next. -/
structure Kept (s : State codec) : Prop where
  housed : Housed s.recorder.fs s.dirs
  files : s.recorder.files ≠ [] → s.recordDir ∈ s.dirs

theorem kept_initial (h : Initial s) : Kept s :=
  ⟨h.housed, fun hfiles => absurd h.files hfiles⟩

/-- What a step does: the invariant stays, the recorder keeps its configuration, and the record
directory is there exactly if it was there or the step has made it. -/
structure Stepped (s t : State codec) (op : Op codec) : Prop where
  kept : Kept t
  recordDir : t.recordDir = s.recordDir
  rolling : t.rolling = s.rolling
  mem : s.recordDir ∈ t.dirs ↔ s.recordDir ∈ s.dirs ∨ MakesRecordDir s.rolling s.recordDir op

theorem recordDir_prefix (s : State codec) (channel : Channel) :
    s.recordDir <+: s.recorder.channelDir channel :=
  (List.dropLast_prefix s.recorder.recordDir).trans (List.prefix_append _ _)

theorem createRollingHelper_ok_iff {rolling : Rolling} :
    (∃ helper, createRollingHelper rolling = .ok helper) ↔ rolling ≠ .kSize := by
  cases rolling <;> simp [createRollingHelper]

/-- The directories above a database are there when `OpenDB` has not thrown. -/
theorem mem_openDirs_of_ok {dirs : Directories} {fs : FileSystem} {file : RecordFile}
    {renames ok : Bool} {answers : OpenAnswers} {d : List String}
    (hskip : (file.db.isSome || file.filepath.isEmpty) = false) (hmake : answers.makeDirs = true)
    (hok : (file.openDB fs renames answers).1 = .ok ok) (hd : d <+: file.filepath.parent) :
    d ∈ openDirs dirs fs file renames answers := by
  unfold openDirs
  simp only [hskip, Bool.false_eq_true, if_false, hmake, if_true]
  cases hc : file.checkoutDB fs renames with
  | error e =>
    simp only [openDB, hskip, Bool.false_eq_true, if_false, hc] at hok
    cases hok
  | ok g => exact mem_createDirectories.mpr (Or.inr hd)

theorem stepped_registerChannel {channel : Channel} {linkname utcTime : String} {renames : Bool}
    {answers : OpenAnswers} (h : Kept s) (hmake : answers.makeDirs = true)
    (hst : step s (.registerChannel channel linkname utcTime renames answers) = some t) :
    Stepped s t (.registerChannel channel linkname utcTime renames answers) := by
  simp only [step] at hst
  cases hhelper : createRollingHelper s.rolling with
  | error e =>
    rw [hhelper] at hst
    cases hst
    have hsize : s.rolling = .kSize := by
      by_contra hother
      obtain ⟨helper, hok⟩ := createRollingHelper_ok_iff.mpr hother
      rw [hhelper] at hok
      cases hok
    exact ⟨h, rfl, rfl, by simp [MakesRecordDir, hsize]⟩
  | ok helper =>
    have hsize : s.rolling ≠ .kSize := createRollingHelper_ok_iff.mp ⟨helper, hhelper⟩
    rw [hhelper] at hst
    simp only at hst
    -- `CreateFile` goes on to the constructor of the record file
    set file := s.recorder.newFile channel linkname utcTime with hfile
    have hunder : s.recordDir <+: file.filepath.parent := recordDir_prefix s channel
    cases hopened : (file.openDB s.recorder.fs renames answers).1 with
    -- what made it throw is in the directory of the channel
    | error e =>
      rw [hopened] at hst
      cases hst
      have hthere : file.filepath.parent ∈ s.dirs :=
        h.housed.parent file.filepath (node_of_openDB_error hopened)
      have hmem : s.recordDir ∈ s.dirs := h.housed.closed file.filepath.parent hthere _ hunder
      exact ⟨h, rfl, rfl, by simp [hmem]⟩
    | ok opened =>
      rw [hopened] at hst
      obtain ⟨recorder, hrec, rfl⟩ := Option.map_eq_some_iff.mp hst
      have hhoused := housed_openDB (f := file) h.housed renames answers
      -- the new file has no database yet, and its path is not empty
      have hskip : (file.db.isSome || file.filepath.isEmpty) = false := by
        simp [hfile, newFile, unopened, Path.isEmpty, channelDir, Channel.dir]
      have hmem : s.recordDir ∈ openDirs s.dirs s.recorder.fs file renames answers :=
        mem_openDirs_of_ok hskip hmake hopened hunder
      rcases hopen : file.openDB s.recorder.fs renames answers with ⟨_ | ok, fs, file'⟩
      · rw [hopen] at hopened
        cases hopened
      · simp only [MessageRecorder.step, ← hfile, hopen, Option.some.injEq] at hrec
        rw [hopen] at hhoused
        subst hrec
        exact ⟨⟨hhoused, fun _ => hmem⟩, rfl, rfl, by simp [MakesRecordDir, hsize, hmem]⟩

theorem stepped_deliver {m : Published codec} {now : Int64} {answers : WriteAnswers} (h : Kept s)
    (hst : step s (.deliver m now answers) = some t) : Stepped s t (.deliver m now answers) := by
  obtain ⟨recorder, hrec, rfl⟩ := Option.map_eq_some_iff.mp hst
  simp only [MessageRecorder.step] at hrec
  cases hfind : s.recorder.files.find? fun g => g.1 = m.channel with
  | none =>
    rw [hfind] at hrec
    cases hrec
  | some g =>
    obtain ⟨channel, file⟩ := g
    rw [hfind] at hrec
    simp only at hrec
    obtain ⟨⟨ok, fs, file'⟩, hwrite, rfl⟩ := Option.map_eq_some_iff.mp hrec
    have hfiles : s.recorder.files ≠ [] := by
      intro hnil
      rw [hnil] at hfind
      cases hfind
    have hmem : s.recordDir ∈ s.dirs := h.files hfiles
    have hmem' : s.recordDir ∈ writeDirs s.dirs file answers := mem_writeDirs hmem
    refine ⟨⟨?_, fun _ => ?_⟩, rfl, rfl, ?_⟩
    · exact housed_write h.housed hwrite
    · exact hmem'
    · simp [hmem, hmem']

theorem stepped_generateSnapshot {snapshotDir : List String} {answers : SnapshotAnswers}
    (h : Kept s) (hs : Succeeds s (.generateSnapshot snapshotDir answers))
    (hst : step s (.generateSnapshot snapshotDir answers) = some t) :
    Stepped s t (.generateSnapshot snapshotDir answers) := by
  obtain ⟨hcreate, hstop, -⟩ := hs
  obtain ⟨⟨ok, recorder⟩, hrec, rfl⟩ := Option.map_eq_some_iff.mp hst
  obtain ⟨⟨fs, files⟩, hopened, heq⟩ := Option.map_eq_some_iff.mp hrec
  obtain ⟨rfl, rfl⟩ := Prod.mk.inj heq
  rw [hstop] at hopened
  simp only [hstop]
  have hdir := h.housed.mem_made hcreate
  have hhoused := (housed_closeFiles h.housed answers.reopens s.recorder.files).made
    answers.createDirectories snapshotDir
  generalize (if answers.createDirectories then createDirectories s.dirs snapshotDir else s.dirs) =
    made at hdir hhoused hopened ⊢
  have hcopied := hhoused.copy s.recordDir ((hdir snapshotDir).mpr (Or.inr List.prefix_rfl))
  have hgrown (hd : s.recordDir ∈ made) : s.recordDir ∈ openFilesDirs answers.reopens
      ((closeFiles answers.reopens s.recorder.fs s.recorder.files).1.copy s.recordDir snapshotDir
        none).2 (copyDirectories made s.recordDir snapshotDir none)
      (closeFiles answers.reopens s.recorder.fs s.recorder.files).2 :=
    mem_openFilesDirs (mem_copyDirectories_of_mem hd)
  refine ⟨⟨housed_openFiles hcopied hopened, fun hne => ?_⟩, rfl, rfl, ?_⟩
  -- there are record files after the snapshot only if there were some before
  · refine hgrown ((hdir s.recordDir).mpr (Or.inl (h.files fun hnil => ?_)))
    rw [hnil] at hopened
    cases hopened
    exact hne rfl
  · refine Iff.trans ⟨fun hd => ?_, hgrown⟩ (hdir s.recordDir)
    by_cases hfiles : s.recorder.files = []
    · -- no file is opened again, and a copy has what is there already
      rw [hfiles] at hd
      have hcopy : s.recordDir ∈ copyDirectories made s.recordDir snapshotDir none := hd
      exact hhoused.src_mem_copyDirectories hcopy
    · exact (hdir s.recordDir).mpr (Or.inl (h.files hfiles))

theorem stepped_removeSnapshot {interval name : String} (h : Kept s)
    (hst : step s (.removeSnapshot interval name) = some t) :
    Stepped s t (.removeSnapshot interval name) := by
  cases hst
  -- the directory of a snapshot has a longer name than the record directory
  have hout : ¬ s.recordDir.dropLast ++ ["snapshots", interval, name] <+: s.recordDir := by
    intro hpre
    have hlen := hpre.length_le
    simp only [List.length_append, List.length_dropLast, List.length_cons, List.length_nil] at hlen
    omega
  have hmem (hd : s.recordDir ∈ s.dirs) : s.recordDir ∈
      removeDirectories s.dirs (s.recordDir.dropLast ++ ["snapshots", interval, name]) :=
    mem_removeDirectories.mpr ⟨hd, hout⟩
  refine ⟨⟨h.housed.removeBelow _, fun hfiles => hmem (h.files hfiles)⟩, rfl, rfl, ?_⟩
  constructor
  · exact fun hd => Or.inl (mem_removeDirectories.mp hd).1
  · rintro (hd | hd)
    · exact hmem hd
    · cases hd

/-- One case for each step of the recorder. -/
theorem stepped (h : Kept s) (hs : Succeeds s op) (hst : step s op = some t) : Stepped s t op := by
  cases op with
  | registerChannel channel linkname utcTime renames answers =>
    exact stepped_registerChannel h hs.2 hst
  | deliver m now answers => exact stepped_deliver h hst
  | makeKey now =>
    cases hst
    exact ⟨⟨h.housed, h.files⟩, rfl, rfl, by simp [MakesRecordDir]⟩
  | generateSnapshot snapshotDir answers => exact stepped_generateSnapshot h hs hst
  | removeSnapshot interval name => exact stepped_removeSnapshot h hst

/-- Along a run the record directory appears with the first step that makes it, and stays. -/
theorem recordDir_mem_iff {ops : List (Op codec)} (h : Kept s)
    (hs : (system codec).StepsMeet Succeeds s ops) (hrun : (system codec).exec s ops = some t) :
    t.recordDir ∈ t.dirs ↔
      s.recordDir ∈ s.dirs ∨ ∃ op ∈ ops, MakesRecordDir s.rolling s.recordDir op := by
  -- on the run; `Stepped` says that the configuration stays
  induction ops generalizing s with
  | nil =>
    cases hrun
    simp
  | cons op ops ih =>
    obtain ⟨u, hu, hrest⟩ := Option.bind_eq_some_iff.mp hrun
    have hstep := stepped h hs.1 hu
    have htail := ih hstep.kept (hs.2 u hu) hrest
    rw [hstep.recordDir, hstep.rolling, hstep.mem] at htail
    rw [htail, or_assoc]
    simp

end Steps

section Runs

/-- The first recorder of a process, where the record directory is not there yet. -/
def newState (rolling : Rolling) : State rawCodec :=
  ⟨{ newRecorder with rolling := rolling != .kNone }, rolling, [[]]⟩

theorem initial_newState (rolling : Rolling) : Initial (newState rolling) := by
  refine ⟨rfl, rfl, rfl, fun d hd d' hd' => ?_, fun p hp => absurd rfl hp⟩
  have hroot : d = [] := List.mem_singleton.mp hd
  rw [hroot, List.prefix_nil] at hd'
  exact List.mem_singleton.mpr hd'

def registerInt : Op rawCodec :=
  .registerChannel intChannel "int" "20230316T041531" true willing

/-- A channel is registered, a message comes, and there is a snapshot before the next one. -/
def usedRun : List (Op rawCodec) :=
  [registerInt, .deliver ⟨intChannel, [0]⟩ 5 putsOnly,
    .generateSnapshot ["snapshots", "day", "first"] ⟨[], true, none⟩,
    .deliver ⟨intChannel, [1]⟩ 6 putsOnly, .removeSnapshot "day" "first"]

end Runs
end CrisCore.RecorderDestruction
