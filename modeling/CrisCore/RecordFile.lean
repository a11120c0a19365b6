import CrisCore.RecordDirs
import CrisCore.TransitionSystem

/-! `RecordFile` and its iterators. Every call is a function of the file system, the object and
the answers the world gives: which file system operations, LevelDB opens and puts succeed, and what
the rolling helper says. -/
namespace CrisCore

/-- `RecordFileIterator`; `RecordFileReverseIterator` is the same over the entries in reverse, as
`RecordFileCursors` shows for cursors of one database. -/
structure RecordFileIterator where
  /-- `db_itr_`: the entries from its position on. -/
  dbItr : List (Bytes × Bytes)
  legacy : Bool
  currentKey : RecordFileKey

namespace RecordFileIterator

def tryReadCurrentKey (legacy : Bool) (keyBytes : Bytes) : Option RecordFileKey :=
  if legacy then RecordFileKey.fromBytesLegacy keyBytes else RecordFileKey.fromBytes keyBytes

def readNextValidKey (legacy : Bool) (currentKey : RecordFileKey) :
    List (Bytes × Bytes) → RecordFileIterator
  | [] => ⟨[], legacy, currentKey⟩
  | (k, v) :: rest =>
    match tryReadCurrentKey legacy k with
    | none => readNextValidKey legacy currentKey rest
    | some key => ⟨(k, v) :: rest, legacy, key⟩

def start (entries : List (Bytes × Bytes)) (legacy : Bool) : RecordFileIterator :=
  readNextValidKey legacy ⟨0, 0⟩ entries

def valid (itr : RecordFileIterator) : Bool :=
  !itr.dbItr.isEmpty

def get (itr : RecordFileIterator) : RecordFileKey × Bytes :=
  (itr.currentKey, (itr.dbItr.head?.map Prod.snd).getD [])

def next (itr : RecordFileIterator) : RecordFileIterator :=
  readNextValidKey itr.legacy itr.currentKey itr.dbItr.tail

theorem readNextValidKey_valid (legacy : Bool) (currentKey : RecordFileKey)
    (entries : List (Bytes × Bytes)) :
    (readNextValidKey legacy currentKey entries).valid = true ↔
      ∃ e ∈ entries, (tryReadCurrentKey legacy e.1).isSome = true := by
  induction entries with
  | nil => simp [readNextValidKey, valid]
  | cons e rest ih =>
    obtain ⟨k, v⟩ := e
    simp only [readNextValidKey]
    cases h : tryReadCurrentKey legacy k with
    | none => simp [ih, h]
    | some key => simp [valid, h]

end RecordFileIterator

structure DbHandle where
  path : Path
  /-- Opened with the legacy comparator. -/
  legacy : Bool
  deriving DecidableEq

structure RecordFile where
  filepath : Path
  linkname : String
  /-- `rolling_helper_` is not null. -/
  rollingHelper : Bool
  db : Option DbHandle
  legacy : Bool
  compactBeforeClose : Bool
  deriving DecidableEq

/-- The answers to `MakeDirs`, the two `leveldb::DB::Open` and `Symlink`. -/
structure OpenAnswers where
  makeDirs : Bool
  default : FileSystem.Attempt
  legacy : FileSystem.Attempt
  symlink : Bool
  deriving DecidableEq

/-- The answers of the rolling helper, of the calls inside `Roll` and of `Put`. -/
structure WriteAnswers where
  needToRoll : Bool
  newRecordDirName : String
  opens : OpenAnswers
  renames : Bool
  put : Bool
  deriving DecidableEq

/-- The world lets `OpenDB(path)` take its course. -/
def Willing (answers : OpenAnswers) : Prop :=
  answers.makeDirs = true ∧ answers.default = .proceeds ∧ answers.legacy = .proceeds

instance (answers : OpenAnswers) : Decidable (Willing answers) :=
  inferInstanceAs (Decidable (_ ∧ _ ∧ _))

inductive CheckoutError
  | alreadyExists (path : Path)
  | filesystemError
  deriving DecidableEq

namespace RecordFile

/-- A `RecordFile` before its constructor calls `OpenDB`. -/
def unopened (filepath : Path) (linkname : String) (rollingHelper : Bool) : RecordFile where
  filepath := filepath
  linkname := linkname
  rollingHelper := rollingHelper
  db := none
  legacy := false
  compactBeforeClose := false

variable (fs : FileSystem) (f : RecordFile)

def entries (h : DbHandle) : List (Bytes × Bytes) :=
  ((fs.database h.path).map Database.entries).getD []

def iterate (h : DbHandle) : RecordFileIterator :=
  .start (entries fs h) f.legacy

def reverseIterate (h : DbHandle) : RecordFileIterator :=
  .start (entries fs h).reverse f.legacy

def empty (h : DbHandle) : Bool :=
  !(iterate fs f h).valid

def checkoutDB (renames : Bool) : Except CheckoutError FileSystem :=
  if !fs.pathExists f.filepath then .ok fs
  else if fs.pathExists f.filepath.unfinishedPath then
    .error (.alreadyExists f.filepath.unfinishedPath)
  else
    match renames, fs.rename f.filepath f.filepath.unfinishedPath with
    | true, some fs' => .ok fs'
    | _, _ => .error .filesystemError

def commitDB (renames : Bool) : FileSystem :=
  if !fs.pathExists f.filepath.unfinishedPath then fs
  else if fs.pathExists f.filepath then fs
  else
    match renames, fs.rename f.filepath.unfinishedPath f.filepath with
    | true, some fs' => fs'
    | _, _ => fs

/-- `OpenDB(path)`. The second attempt sets `legacy_` whether or not it succeeds. -/
def openDBAt (path : Path) (answers : OpenAnswers) : Option DbHandle × FileSystem × RecordFile :=
  if !answers.makeDirs then (none, fs, f)
  else
    let actual := path.unfinishedPath
    let first := fs.tryOpen actual false answers.default
    if first.1 then (some ⟨actual, false⟩, first.2, f)
    else
      let second := first.2.tryOpen actual true answers.legacy
      if second.1 then (some ⟨actual, true⟩, second.2, { f with legacy := true })
      else (none, second.2, { f with legacy := true })

/-- The symbolic link to the directory of the subchannel, unless something has its name. -/
def makeLink (symlink : Bool) : FileSystem :=
  if f.linkname == "" then fs
  else
    let subchannelDir := f.filepath.parent
    let messageDir := subchannelDir.dropLast
    let linkpath : Path := ⟨messageDir.dropLast, f.linkname⟩
    if !fs.linkExists linkpath && symlink then
      fs.createSymlink [messageDir.getLastD "", subchannelDir.getLastD ""] linkpath
    else fs

/-- `OpenDB()`. -/
def openDB (renames : Bool) (answers : OpenAnswers) :
    Except CheckoutError Bool × FileSystem × RecordFile :=
  if f.db.isSome || f.filepath.isEmpty then (.ok false, fs, f)
  else
    match checkoutDB fs f renames with
    | .error e => (.error e, fs, f)
    | .ok fs =>
      match openDBAt fs f f.filepath answers with
      | (none, fs, f) => (.ok false, fs, f)
      | (some h, fs, f) => (.ok true, makeLink fs f answers.symlink, { f with db := some h })

/-- The removal at the end of `CloseDB`: it looks at the final name only. -/
def removeIfEmpty (isEmpty : Bool) : FileSystem :=
  if (isEmpty || fs.isEmptyDir f.filepath) && fs.isLevelDBDir f.filepath then
    fs.removeAll f.filepath
  else fs

/-- `CompactRange` leaves the entries as they are. -/
def compact (_ : DbHandle) : FileSystem := fs

def closeDB (renames : Bool) : FileSystem × RecordFile :=
  match f.db with
  | none => (fs, f)
  | some h =>
    let fs := if f.compactBeforeClose then compact fs h else fs
    let isEmpty := empty fs f h
    let fs := commitDB (fs.unlock h.path) f renames
    (removeIfEmpty fs f isEmpty, { f with db := none })

/-- The `new_filepath` of `Roll`. -/
def newFilepath (newRecordDirName : String) : Path :=
  ⟨f.filepath.parent, newRecordDirName⟩

def roll (answers : WriteAnswers) : Bool × FileSystem × RecordFile :=
  match openDBAt fs f (newFilepath f answers.newRecordDirName) answers.opens with
  | (none, fs, f) => (false, fs, f)
  | (some newDb, fs, f) =>
    let closed := closeDB fs f answers.renames
    (true, closed.1,
      { closed.2 with db := some newDb, filepath := newFilepath f answers.newRecordDirName })

/-- `Write(key, value)`; `none` where it calls `Put` through a null `db_`. -/
def write (key : RecordFileKey) (value : Bytes) (answers : WriteAnswers) :
    Option (Bool × FileSystem × RecordFile) :=
  let rolled := if f.rollingHelper && answers.needToRoll then (roll fs f answers).2 else (fs, f)
  match rolled.2.db with
  | none => none
  | some h =>
    some (answers.put, if answers.put then rolled.1.put h.path key.toBytes value else rolled.1,
      rolled.2)

variable {fs f} {fs' : FileSystem} {f' : RecordFile} {path : Path} {answers : OpenAnswers}
  {h : DbHandle}

/-- A database that `OpenDB(path)` opened is at the unfinished path, locked, and made with the
comparator of the handle. -/
theorem openDBAt_some (ho : openDBAt fs f path answers = (some h, fs', f')) :
    h.path = path.unfinishedPath ∧ h.path ∉ fs.locks ∧ fs'.locks = h.path :: fs.locks ∧
      (f' = f ∨ f' = { f with legacy := true }) ∧ (h.legacy = true → f'.legacy = true) ∧
      (∀ p, p ≠ h.path → fs'.node p = fs.node p) ∧
      ((∃ db, fs.database h.path = some db ∧ db.legacy = h.legacy ∧
          fs'.node h.path = fs.node h.path) ∨
        (fs.database h.path = none ∧ fs'.database h.path = some ⟨h.legacy, []⟩)) := by
  simp only [openDBAt] at ho
  split at ho
  case isTrue => cases ho
  case isFalse =>
    rcases h1 : fs.tryOpen path.unfinishedPath false answers.default with ⟨ok1, fs1⟩
    rw [h1] at ho
    cases ok1 with
    -- opened with the default comparator
    | true =>
      cases ho
      obtain ⟨hl, hlocks, hnode, hdb⟩ := FileSystem.openDatabase_some (FileSystem.tryOpen_true h1)
      exact ⟨rfl, hl, hlocks, Or.inl rfl, by simp, hnode, hdb⟩
    | false =>
      -- what the failed attempt left does not stop the second one from saying where it is
      obtain ⟨hlocks1, hdb1, hnode1⟩ := FileSystem.tryOpen_false h1
      rcases h2 : fs1.tryOpen path.unfinishedPath true answers.legacy with ⟨ok2, fs2⟩
      simp only [h2] at ho
      cases ok2 with
      | false => cases ho
      | true =>
        cases ho
        obtain ⟨hl, hlocks, hnode, hdb⟩ := FileSystem.openDatabase_some (FileSystem.tryOpen_true h2)
        rw [hlocks1] at hl hlocks
        refine ⟨rfl, hl, hlocks, Or.inr rfl, fun _ => rfl, fun p hp => ?_, ?_⟩
        · rw [hnode p hp, hnode1 p (Or.inr hp)]
        · rcases hdb with ⟨db, hdb, hleg, hn⟩ | ⟨hdb, hn⟩
          · rw [hdb1] at hdb
            exact Or.inl ⟨db, hdb, hleg,
              hn.trans (hnode1 _ (Or.inl (FileSystem.node_isSome_of_database hdb)))⟩
          · rw [hdb1] at hdb
            exact Or.inr ⟨hdb, hn⟩

theorem openDBAt_none (ho : openDBAt fs f path answers = (none, fs', f')) :
    (f' = f ∨ f' = { f with legacy := true }) ∧ fs'.locks = fs.locks ∧
      (∀ p, fs'.database p = fs.database p) ∧
      ∀ p, (fs.node p).isSome = true ∨ p ≠ path.unfinishedPath → fs'.node p = fs.node p := by
  simp only [openDBAt] at ho
  split at ho
  case isTrue =>
    cases ho
    exact ⟨Or.inl rfl, rfl, fun _ => rfl, fun _ _ => rfl⟩
  case isFalse =>
    rcases h1 : fs.tryOpen path.unfinishedPath false answers.default with ⟨ok1, fs1⟩
    rw [h1] at ho
    cases ok1 with
    | true => cases ho
    | false =>
      obtain ⟨hlocks1, hdb1, hnode1⟩ := FileSystem.tryOpen_false h1
      rcases h2 : fs1.tryOpen path.unfinishedPath true answers.legacy with ⟨ok2, fs2⟩
      simp only [h2] at ho
      cases ok2 with
      | true => cases ho
      | false =>
        cases ho
        obtain ⟨hlocks2, hdb2, hnode2⟩ := FileSystem.tryOpen_false h2
        refine ⟨Or.inr rfl, hlocks2.trans hlocks1, fun p => (hdb2 p).trans (hdb1 p), ?_⟩
        intro p hp
        have h1 : fs1.node p = fs.node p := hnode1 p hp
        rw [← h1] at hp
        exact (hnode2 p hp).trans h1

theorem openDBAt_willing (hw : Willing answers)
    (ho : fs.openDatabase path.unfinishedPath false = some fs') :
    f.openDBAt fs path answers = (some ⟨path.unfinishedPath, false⟩, fs', f) := by
  simp [openDBAt, hw.1, hw.2.1, FileSystem.tryOpen, ho]

/-- Where there is nothing yet an empty database is made. -/
theorem openDB_fresh {renames : Bool} (hdb : f.db = none) (hne : f.filepath.isEmpty = false)
    (hfin : fs.node f.filepath = none) (hown : fs.node f.filepath.unfinishedPath = none)
    (hlock : f.filepath.unfinishedPath ∉ fs.locks) (hw : Willing answers) :
    f.openDB fs renames answers = (.ok true,
      makeLink ((fs.set f.filepath.unfinishedPath (.dir ⟨some ⟨false, []⟩, []⟩)).lock
        f.filepath.unfinishedPath) f answers.symlink,
      { f with db := some ⟨f.filepath.unfinishedPath, false⟩ }) := by
  have hopen : fs.openDatabase f.filepath.unfinishedPath false =
      some ((fs.set f.filepath.unfinishedPath (.dir ⟨some ⟨false, []⟩, []⟩)).lock
        f.filepath.unfinishedPath) := by
    simp [FileSystem.openDatabase, hlock, hown]
  simp [openDB, hdb, hne, checkoutDB, FileSystem.pathExists, hfin, openDBAt_willing hw hopen]

/-- A committed database is opened as it is. -/
theorem openDB_committed {d : Dir} {db : Database} (hdb : f.db = none)
    (hne : f.filepath.isEmpty = false) (hfin : fs.node f.filepath = some (.dir d))
    (hd : d.db = some db) (hleg : db.legacy = false)
    (hown : fs.node f.filepath.unfinishedPath = none)
    (hlock : f.filepath.unfinishedPath ∉ fs.locks) (hw : Willing answers) :
    f.openDB fs true answers = (.ok true,
      makeLink (((fs.removeAll f.filepath).set f.filepath.unfinishedPath (.dir d)).lock
        f.filepath.unfinishedPath) f answers.symlink,
      { f with db := some ⟨f.filepath.unfinishedPath, false⟩ }) := by
  have hopen : ((fs.removeAll f.filepath).set f.filepath.unfinishedPath (.dir d)).openDatabase
      f.filepath.unfinishedPath false =
      some (((fs.removeAll f.filepath).set f.filepath.unfinishedPath (.dir d)).lock
        f.filepath.unfinishedPath) := by
    have hl : f.filepath.unfinishedPath ∉
        ((fs.removeAll f.filepath).set f.filepath.unfinishedPath (.dir d)).locks := hlock
    simp [FileSystem.openDatabase, hl, FileSystem.node_set, hd, hleg]
  simp [openDB, hdb, hne, checkoutDB, FileSystem.pathExists, hfin, hown, FileSystem.rename,
    openDBAt_willing hw hopen]

/-- A write that does not roll puts the record into the open database. -/
theorem write_of_stays {h : DbHandle} {key : RecordFileKey} {value : Bytes} {answers : WriteAnswers}
    (hdb : f.db = some h) (hr : f.rollingHelper = true → answers.needToRoll = false)
    (hput : answers.put = true) :
    f.write fs key value answers = some (true, fs.put h.path key.toBytes value, f) := by
  have hroll : (f.rollingHelper && answers.needToRoll) = false := by
    cases hh : f.rollingHelper with
    | false => rfl
    | true => exact hr hh
  simp [write, hroll, hdb, hput]

/-- A database whose keys can all be read is empty when it has no entries. -/
theorem empty_iff {h : DbHandle} {db : Database} (hdb : fs.database h.path = some db)
    (hread : ∀ e ∈ db.entries, (RecordFileIterator.tryReadCurrentKey f.legacy e.1).isSome = true) :
    f.empty fs h = true ↔ db.entries = [] := by
  have hentries : entries fs h = db.entries := by simp [entries, hdb]
  simp only [empty, iterate, RecordFileIterator.start, hentries, Bool.not_eq_true']
  rw [← Bool.not_eq_true, RecordFileIterator.readNextValidKey_valid]
  constructor
  · intro hn
    exact List.eq_nil_iff_forall_not_mem.mpr fun e he => hn ⟨e, he, hread e he⟩
  · rintro hn ⟨e, he, -⟩
    rw [hn] at he
    cases he

/-- `CommitDB` renames the directory. -/
def commits (fs : FileSystem) (f : RecordFile) (renames : Bool) : Bool :=
  fs.pathExists f.filepath.unfinishedPath && !fs.pathExists f.filepath && renames

theorem node_commitDB (fs : FileSystem) (f : RecordFile) (renames : Bool) (p : Path) :
    (commitDB fs f renames).node p =
      if commits fs f renames = true then
        if p = f.filepath then fs.node f.filepath.unfinishedPath
        else if p = f.filepath.unfinishedPath then none else fs.node p
      else fs.node p := by
  simp only [commitDB, commits, FileSystem.rename]
  cases hown : fs.node f.filepath.unfinishedPath with
  | none => simp [FileSystem.pathExists, hown]
  | some n =>
    cases hfin : fs.node f.filepath with
    | some m => simp [FileSystem.pathExists, hown, hfin]
    | none =>
      cases renames
      · simp [FileSystem.pathExists, hown, hfin]
      · simp [FileSystem.pathExists, hown, hfin, FileSystem.node_set, FileSystem.node_removeAll]

theorem isEmptyDir_isLevelDBDir (fs : FileSystem) (p : Path) :
    (fs.isEmptyDir p && fs.isLevelDBDir p) = false := by
  simp only [FileSystem.isEmptyDir, FileSystem.isLevelDBDir]
  split
  case h_1 d hd => cases d.db <;> simp
  case h_2 => rfl

/-- Only a directory that holds a database is removed, and only if the closed one was empty. -/
theorem node_removeIfEmpty (fs : FileSystem) (f : RecordFile) (isEmpty : Bool) (p : Path) :
    (removeIfEmpty fs f isEmpty).node p =
      if isEmpty = true ∧ fs.isLevelDBDir f.filepath = true ∧ p = f.filepath then none
      else fs.node p := by
  have hdir := isEmptyDir_isLevelDBDir fs f.filepath
  simp only [removeIfEmpty]
  cases isEmpty <;> cases hl : fs.isLevelDBDir f.filepath <;>
    simp_all [FileSystem.node_removeAll]

theorem closeDB_node (hdb : f.db = some h) (renames : Bool) (p : Path) :
    (closeDB fs f renames).1.node p =
      if empty fs f h = true ∧ (commitDB (fs.unlock h.path) f renames).isLevelDBDir f.filepath ∧
        p = f.filepath then none
      else (commitDB (fs.unlock h.path) f renames).node p := by
  simp only [closeDB, hdb, compact, ite_self]
  exact node_removeIfEmpty _ f _ p

theorem closeDB_node_frame (hdb : f.db = some h) (renames : Bool) {p : Path}
    (hfin : p ≠ f.filepath) (hown : p ≠ f.filepath.unfinishedPath) :
    (closeDB fs f renames).1.node p = fs.node p := by
  rw [closeDB_node hdb, node_commitDB]
  simp [hfin, hown]

theorem closeDB_file (fs : FileSystem) (f : RecordFile) (renames : Bool) :
    (f.closeDB fs renames).2 = { f with db := none } := by
  obtain ⟨filepath, linkname, rollingHelper, db, legacy, compact⟩ := f
  cases db <;> rfl

theorem commitDB_locks (renames : Bool) : (commitDB fs f renames).locks = fs.locks := by
  simp only [commitDB, FileSystem.rename]
  cases fs.node f.filepath.unfinishedPath with
  | none => cases renames <;> simp
  | some n =>
    cases renames <;> simp only [Option.map_some]
    · simp
    · split
      · rfl
      · split <;> rfl

theorem closeDB_locks (hdb : f.db = some h) (renames : Bool) :
    (f.closeDB fs renames).1.locks = fs.locks.filter (· ≠ h.path) := by
  have hrm (g : FileSystem) (b : Bool) : (removeIfEmpty g f b).locks = g.locks := by
    simp only [removeIfEmpty]
    split <;> rfl
  simp only [closeDB, hdb, compact, ite_self, hrm, commitDB_locks]
  rfl

theorem makeLink_node (b : Bool) (p : Path) : (f.makeLink fs b).node p = fs.node p := by
  simp only [makeLink]
  repeat' split
  all_goals rfl

theorem makeLink_locks (b : Bool) : (f.makeLink fs b).locks = fs.locks := by
  simp only [makeLink]
  repeat' split
  all_goals rfl

end RecordFile

namespace RecordSession

/-- One `RecordFile` and the records it accepted so far. -/
structure State where
  fs : FileSystem
  file : RecordFile
  accepted : List (RecordFileKey × Bytes)

inductive Op
  | openDB (renames : Bool) (answers : OpenAnswers)
  | closeDB (renames : Bool)
  | write (key : RecordFileKey) (value : Bytes) (answers : WriteAnswers)
  deriving DecidableEq

/-- The constructor opens the database and the destructor closes it, so their runs are runs from
the unopened object. An exception of `OpenDB` leaves everything as it was. -/
def step (s : State) : Op → Option State
  | .openDB renames answers =>
    let result := s.file.openDB s.fs renames answers
    some { s with fs := result.2.1, file := result.2.2 }
  | .closeDB renames =>
    let result := s.file.closeDB s.fs renames
    some { s with fs := result.1, file := result.2 }
  | .write key value answers =>
    (s.file.write s.fs key value answers).map fun result =>
      { fs := result.2.1, file := result.2.2
        accepted := if result.1 then s.accepted ++ [(key, value)] else s.accepted }

def system : TransitionSystem State Op where
  init s := s.file.db = none ∧ s.file.legacy = false ∧ s.accepted = []
  step := step

section Sample

def emptyDisk : FileSystem := ⟨∅, [], []⟩

def proceeding : OpenAnswers := ⟨true, .proceeds, .proceeds, true⟩

def noRoll : WriteAnswers := ⟨false, "", proceeding, true, true⟩

def rollTo (name : String) : WriteAnswers := ⟨true, name, proceeding, true, true⟩

/-- A new record file on an empty disk. -/
def unopenedFile (name : String) : State where
  fs := emptyDisk
  file := .unopened ⟨["records"], name⟩ "" true
  accepted := []

theorem init_unopenedFile (name : String) : system.init (unopenedFile name) :=
  ⟨rfl, rfl, rfl⟩

end Sample

end RecordSession
end CrisCore
