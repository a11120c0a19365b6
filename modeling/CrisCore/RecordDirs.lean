import CrisCore.OrderedStore
import CrisCore.RecordKey
import Mathlib.Data.List.AList

/-! The part of the file system that record files work on: directories that may hold a LevelDB
database, side by side under their parents. A database lives in its directory; LevelDB holds a lock
on the path of a database that is open. -/
namespace CrisCore

def hasSuffix (s suffix : String) : Bool :=
  suffix.toList.isSuffixOf s.toList

theorem hasSuffix_append (s suffix : String) : hasSuffix (s ++ suffix) suffix = true := by
  simp [hasSuffix]

structure Path where
  parent : List String
  name : String
  deriving DecidableEq

namespace Path

def unfinishedPath (path : Path) : Path :=
  { path with name := path.name ++ ".saving" }

def isUnfinished (path : Path) : Bool :=
  hasSuffix path.name ".saving"

def isEmpty (path : Path) : Bool :=
  path.parent.isEmpty && path.name == ""

theorem unfinishedPath_injective : Function.Injective unfinishedPath := by
  rintro ⟨p, a⟩ ⟨q, b⟩ h
  simp only [unfinishedPath, mk.injEq, String.append_left_inj] at h
  simp [h]

theorem unfinishedPath_ne (path : Path) : path.unfinishedPath ≠ path := by
  intro h
  have hn : path.name ++ ".saving" = path.name := congrArg Path.name h
  have hl := congrArg String.length hn
  rw [String.length_append] at hl
  exact absurd (Nat.add_eq_left.mp hl) (by decide)

@[simp] theorem isUnfinished_unfinishedPath (path : Path) :
    path.unfinishedPath.isUnfinished = true := by
  exact hasSuffix_append _ _

end Path

/-- `RecordFileKeyLdbCmp`. -/
def legacyCompare (lhs rhs : Bytes) : Ordering :=
  match RecordFileKey.fromBytesLegacy lhs, RecordFileKey.fromBytesLegacy rhs with
  | some l, some r => RecordFileKey.compare l r
  | some _, none => .gt
  | none, some _ => .lt
  | none, none => .eq

structure Database where
  /-- Created with the comparator of legacy records. -/
  legacy : Bool
  entries : List (Bytes × Bytes)
  deriving DecidableEq

def Database.comparator (legacy : Bool) : Bytes → Bytes → Ordering :=
  if legacy then legacyCompare else List.compareLex compare

def Database.put (db : Database) (key value : Bytes) : Database :=
  { db with entries := OrderedStore.put (comparator db.legacy) key value db.entries }

structure Dir where
  /-- Its `CURRENT` and `MANIFEST-` files and what they lead to. -/
  db : Option Database
  others : List String
  deriving DecidableEq

inductive Node
  | file
  | dir (d : Dir)
  deriving DecidableEq

structure FileSystem where
  nodes : AList fun _ : Path => Node
  links : List (Path × List String)
  /-- The paths some `leveldb::DB` was opened with and has not released. -/
  locks : List Path

namespace FileSystem
variable (fs : FileSystem)

def node (path : Path) : Option Node :=
  fs.nodes.lookup path

def set (path : Path) (n : Node) : FileSystem :=
  { fs with nodes := fs.nodes.insert path n }

def removeAll (path : Path) : FileSystem :=
  { fs with nodes := fs.nodes.erase path }

theorem node_set (path : Path) (n : Node) (p : Path) :
    (fs.set path n).node p = if p = path then some n else fs.node p := by
  split_ifs with h
  · rw [h]
    exact AList.lookup_insert _
  · exact AList.lookup_insert_ne h

theorem node_removeAll (path p : Path) :
    (fs.removeAll path).node p = if p = path then none else fs.node p := by
  split_ifs with h
  · rw [h]
    exact AList.lookup_erase _ _
  · exact AList.lookup_erase_ne h

def pathExists (path : Path) : Bool :=
  (fs.node path).isSome

def linkExists (path : Path) : Bool :=
  fs.pathExists path || fs.links.any fun link => link.1 == path

def createSymlink (target : List String) (path : Path) : FileSystem :=
  { fs with links := fs.links ++ [(path, target)] }

/-- `fs::rename` to a path where there is nothing. -/
def rename (src dst : Path) : Option FileSystem :=
  (fs.node src).map fun n => (fs.removeAll src).set dst n

def isEmptyDir (path : Path) : Bool :=
  match fs.node path with
  | some (.dir d) => d.db.isNone && d.others.isEmpty
  | _ => false

def isLevelDBDir (path : Path) : Bool :=
  match fs.node path with
  | some (.dir d) => d.db.isSome
  | _ => false

def database (path : Path) : Option Database :=
  match fs.node path with
  | some (.dir d) => d.db
  | _ => none

def lock (path : Path) : FileSystem :=
  { fs with locks := path :: fs.locks }

/-- Destroy the `leveldb::DB` that was opened with the path. -/
def unlock (path : Path) : FileSystem :=
  { fs with locks := fs.locks.filter (· ≠ path) }

/-- `leveldb::DB::Open` with `create_if_missing`. It fails on a locked path, on a file and on a
database with another comparator. -/
def openDatabase (path : Path) (legacy : Bool) : Option FileSystem :=
  if path ∈ fs.locks then none
  else
    match fs.node path with
    | none => some ((fs.set path (.dir ⟨some ⟨legacy, []⟩, []⟩)).lock path)
    | some .file => none
    | some (.dir d) =>
      match d.db with
      | none => some ((fs.set path (.dir { d with db := some ⟨legacy, []⟩ })).lock path)
      | some db => if db.legacy == legacy then some (fs.lock path) else none

/-- How the world answers one `leveldb::DB::Open`: it takes its course, or it fails for a reason
of its own and may leave a directory without a database behind. -/
inductive Attempt
  | proceeds
  | fails (leavesDir : Bool)
  deriving DecidableEq

def tryOpen (path : Path) (legacy : Bool) : Attempt → Bool × FileSystem
  | .fails leavesDir =>
    (false, if leavesDir && !fs.pathExists path then fs.set path (.dir ⟨none, ["LOCK"]⟩)
      else fs)
  | .proceeds =>
    match fs.openDatabase path legacy with
    | some fs' => (true, fs')
    | none => (false, fs)

def put (path : Path) (key value : Bytes) : FileSystem :=
  match fs.node path with
  | some (.dir d) => fs.set path (.dir { d with db := d.db.map fun db => db.put key value })
  | _ => fs

@[simp] theorem node_lock (path p : Path) : (fs.lock path).node p = fs.node p := rfl

@[simp] theorem node_unlock (path p : Path) : (fs.unlock path).node p = fs.node p := rfl

@[simp] theorem locks_put (path : Path) (key value : Bytes) :
    (fs.put path key value).locks = fs.locks := by
  simp only [put]
  split <;> rfl

theorem node_put_of_ne {path p : Path} (hp : p ≠ path) (key value : Bytes) :
    (fs.put path key value).node p = fs.node p := by
  simp only [put]
  split
  · rw [node_set, if_neg hp]
  · rfl

theorem node_put_self {path : Path} {d : Dir} (hd : fs.node path = some (.dir d))
    (key value : Bytes) : (fs.put path key value).node path =
      some (.dir { d with db := d.db.map fun db => db.put key value }) := by
  simp only [put, hd, node_set, if_true]

theorem database_put (path : Path) (key value : Bytes) (p : Path) :
    (fs.put path key value).database p =
      if p = path then (fs.database path).map fun db => db.put key value
      else fs.database p := by
  split_ifs with hp
  · subst hp
    simp only [put]
    split
    case h_1 d hd => simp [database, node_set, hd]
    case h_2 => simp [database]
  · simp only [database, node_put_of_ne fs hp]

variable {fs} {fs' : FileSystem} {path : Path} {legacy : Bool} {attempt : Attempt}

theorem database_of_node {p : Path} (h : fs'.node p = fs.node p) :
    fs'.database p = fs.database p := by
  simp only [database, h]

theorem node_isSome_of_database {p : Path} {db : Database} (h : fs.database p = some db) :
    (fs.node p).isSome = true := by
  cases hn : fs.node p with
  | none => simp [database, hn] at h
  | some n => rfl

/-- An open that succeeds takes the lock and touches no other path; it finds a database with the
right comparator or makes an empty one. -/
theorem openDatabase_some (h : fs.openDatabase path legacy = some fs') :
    path ∉ fs.locks ∧ fs'.locks = path :: fs.locks ∧
      (∀ p, p ≠ path → fs'.node p = fs.node p) ∧
      ((∃ db, fs.database path = some db ∧ db.legacy = legacy ∧ fs'.node path = fs.node path) ∨
        (fs.database path = none ∧ fs'.database path = some ⟨legacy, []⟩)) := by
  unfold openDatabase at h
  split at h
  case isTrue => cases h
  case isFalse hl =>
    refine ⟨hl, ?_⟩
    -- a new database changes the one entry
    have hset (d : Dir) : ∀ p, p ≠ path → ((fs.set path (.dir d)).lock path).node p = fs.node p := by
      intro p hp
      rw [node_lock, node_set, if_neg hp]
    have hdb (d : Dir) : ((fs.set path (.dir d)).lock path).database path = d.db := by
      simp [database, node_set]
    split at h
    -- no entry, a regular file, a directory
    case h_1 hn =>
      cases h
      exact ⟨rfl, hset _, Or.inr ⟨by simp [database, hn], hdb _⟩⟩
    case h_2 => cases h
    case h_3 d hn =>
      split at h
      case h_1 hd =>
        cases h
        exact ⟨rfl, hset _, Or.inr ⟨by simp [database, hn, hd], hdb _⟩⟩
      case h_2 db hd =>
        split at h
        case isTrue he =>
          cases h
          refine ⟨rfl, fun _ _ => rfl, Or.inl ⟨db, by simp [database, hn, hd], ?_, rfl⟩⟩
          exact beq_iff_eq.mp he
        case isFalse => cases h

/-- Where the database is after an open that succeeded. -/
theorem database_of_openDatabase (ho : fs.openDatabase path false = some fs') :
    ∃ db, fs'.database path = some db ∧ db.legacy = false := by
  obtain ⟨-, -, -, ⟨db, hd, hleg, hn⟩ | ⟨-, hd⟩⟩ := openDatabase_some ho
  · exact ⟨db, (database_of_node hn).trans hd, hleg⟩
  · exact ⟨_, hd, rfl⟩

theorem tryOpen_true (h : fs.tryOpen path legacy attempt = (true, fs')) :
    fs.openDatabase path legacy = some fs' := by
  unfold tryOpen at h
  repeat' split at h
  all_goals simp_all

/-- An open that fails leaves the locks, the databases and everything that was there. -/
theorem tryOpen_false (h : fs.tryOpen path legacy attempt = (false, fs')) :
    fs'.locks = fs.locks ∧ (∀ p, fs'.database p = fs.database p) ∧
      ∀ p, (fs.node p).isSome = true ∨ p ≠ path → fs'.node p = fs.node p := by
  unfold tryOpen at h
  split at h
  case h_1 leavesDir =>
    obtain ⟨-, rfl⟩ := Prod.mk.inj h
    split
    case isTrue hc =>
      have hn : fs.node path = none := by
        simp only [pathExists, Bool.and_eq_true, Bool.not_eq_true'] at hc
        simpa using hc.2
      refine ⟨rfl, fun p => ?_, fun p hp => ?_⟩ <;> by_cases hpp : p = path
      · simp [database, node_set, hpp, hn]
      · simp [database, node_set, hpp]
      · simp [hpp, hn] at hp
      · simp [node_set, hpp]
    case isFalse => exact ⟨rfl, fun _ => rfl, fun _ _ => rfl⟩
  case h_2 =>
    split at h
    · cases h
    · obtain ⟨-, rfl⟩ := Prod.mk.inj h
      exact ⟨rfl, fun _ => rfl, fun _ _ => rfl⟩

end FileSystem
end CrisCore
