import CrisCore.RecordFileDecoding

/-! What a failed `OpenDB()` leaves behind. It renames the directory and tries the two comparators in
turn, and takes back neither when a later step fails. -/
namespace CrisCore.RecordFile
open RecordSession

/-- What `OpenDB()` returned or threw, and what it made of the file system and the object. -/
abbrev OpenResult := Except CheckoutError Bool × FileSystem × RecordFile

/-- `OpenDB()` returned false or threw. -/
def Failed (result : OpenResult) : Prop :=
  result.1 ≠ .ok true

instance (result : OpenResult) : Decidable (Failed result) :=
  match h : result.1 with
  | .ok true => .isFalse fun hn => hn h
  | .ok false => .isTrue fun he => by rw [h] at he; cases he
  | .error e => .isTrue fun he => by rw [h] at he; cases he

/-- The mode, the path and the handle are as before, and so is a directory under the final name. -/
structure Untouched (fs : FileSystem) (f : RecordFile) (result : OpenResult) : Prop where
  legacy : result.2.2.legacy = f.legacy
  filepath : result.2.2.filepath = f.filepath
  db : result.2.2.db = f.db
  dir : ∀ d, fs.node f.filepath = some (.dir d) → result.2.1.node f.filepath = some (.dir d)

variable {fs fs' : FileSystem} {f f' : RecordFile} {renames : Bool} {answers : OpenAnswers}

/-- `CheckoutDB` throws when it cannot rename what has the final name; else nothing has that name any
more. -/
theorem checkoutDB_cases (fs : FileSystem) (f : RecordFile) (renames : Bool) :
    ((∃ e, f.checkoutDB fs renames = .error e) ∧ fs.pathExists f.filepath = true ∧
      (fs.pathExists f.filepath.unfinishedPath = true ∨ renames = false)) ∨
    ((∃ fs', f.checkoutDB fs renames = .ok fs' ∧ fs'.node f.filepath = none) ∧
      ¬ (fs.pathExists f.filepath = true ∧
        (fs.pathExists f.filepath.unfinishedPath = true ∨ renames = false))) := by
  unfold checkoutDB FileSystem.rename
  cases hex : fs.pathExists f.filepath with
  | false => exact Or.inr ⟨⟨fs, rfl, by simpa [FileSystem.pathExists] using hex⟩, by simp⟩
  | true =>
    cases hown : fs.pathExists f.filepath.unfinishedPath with
    | true => exact Or.inl ⟨⟨_, rfl⟩, rfl, Or.inl rfl⟩
    | false =>
      cases renames with
      | false => exact Or.inl ⟨⟨_, rfl⟩, rfl, Or.inr rfl⟩
      | true =>
        obtain ⟨n, hn⟩ := Option.isSome_iff_exists.mp hex
        refine Or.inr ⟨⟨(fs.removeAll f.filepath).set f.filepath.unfinishedPath n, ?_, ?_⟩, by simp⟩
        · rw [hn]
          rfl
        · rw [FileSystem.node_set, if_neg f.filepath.unfinishedPath_ne.symm,
            FileSystem.node_removeAll, if_pos rfl]

/-- A failure of `OpenDB(path)` gives nothing a final name and takes nothing from one. -/
theorem openDBAt_none_node (h : f.openDBAt fs f.filepath answers = (none, fs', f')) :
    fs'.node f.filepath = fs.node f.filepath :=
  (openDBAt_none h).2.2.2 _ (Or.inr f.filepath.unfinishedPath_ne.symm)

/-- The call is refused, or `CheckoutDB` throws, or there is no directory to rename and the mode is
legacy already or the databases are not tried. -/
def TouchesNothing (fs : FileSystem) (f : RecordFile) (renames : Bool) (answers : OpenAnswers) :
    Prop :=
  f.db.isSome = true ∨ f.filepath.isEmpty = true ∨
    (fs.pathExists f.filepath = true ∧
      (fs.pathExists f.filepath.unfinishedPath = true ∨ renames = false)) ∨
    ((∀ d, fs.node f.filepath ≠ some (.dir d)) ∧ (answers.makeDirs = false ∨ f.legacy = true))

section Sample

/-- A committed record on the disk. -/
def committedDisk : FileSystem :=
  emptyDisk.set ⟨["records"], "a.ldb.d"⟩ (.dir ⟨some ⟨false, []⟩, []⟩)

def committedFile : RecordFile :=
  .unopened ⟨["records"], "a.ldb.d"⟩ "" false

/-- LevelDB answers both attempts with an error. -/
def failing : OpenAnswers :=
  ⟨true, .fails false, .fails false, true⟩

end Sample

end CrisCore.RecordFile
