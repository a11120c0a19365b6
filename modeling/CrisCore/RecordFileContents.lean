import CrisCore.RecordFile

/-! What an open or closed record file holds, and what `OpenDB`, `CloseDB`, `Roll` and `Put` make of
it when the operations of the file system succeed. -/
namespace CrisCore.RecordFile

/-- The directory of a database with the default comparator. -/
def holding (entries : List (Bytes × Bytes)) : Node :=
  .dir ⟨some ⟨false, entries⟩, []⟩

/-- What is left under the final name: nothing without a record. -/
def committed (entries : List (Bytes × Bytes)) : Option Node :=
  if entries = [] then none else some (holding entries)

structure HoldsOpen (fs : FileSystem) (f : RecordFile) (entries : List (Bytes × Bytes)) : Prop where
  db : f.db = some ⟨f.filepath.unfinishedPath, false⟩
  unfinished : fs.node f.filepath.unfinishedPath = some (holding entries)
  final : fs.node f.filepath = none
  locked : f.filepath.unfinishedPath ∈ fs.locks

structure HoldsClosed (fs : FileSystem) (f : RecordFile) (entries : List (Bytes × Bytes)) :
    Prop where
  db : f.db = none
  unfinished : fs.node f.filepath.unfinishedPath = none
  final : fs.node f.filepath = committed entries
  unlocked : f.filepath.unfinishedPath ∉ fs.locks

/-- Nothing differs but under the two names of some record files. -/
def SameBut (paths : List Path) (fs fs' : FileSystem) : Prop :=
  ∀ p, (∀ path ∈ paths, p ≠ path ∧ p ≠ path.unfinishedPath) →
    fs'.node p = fs.node p ∧ (p ∈ fs'.locks ↔ p ∈ fs.locks)

def Readable (entries : List (Bytes × Bytes)) : Prop :=
  ∀ e ∈ entries, (RecordFileKey.fromBytes e.1).isSome = true

variable {fs fs' fs'' : FileSystem} {f : RecordFile} {entries : List (Bytes × Bytes)} {path : Path}
  {paths paths' : List Path}

theorem ne_unfinishedPath {p q : Path} (hp : p.isUnfinished = false) : p ≠ q.unfinishedPath := by
  rintro rfl
  simp at hp

theorem ne_of_isUnfinished {p q : Path} (hp : p.isUnfinished = true)
    (hq : q.isUnfinished = false) : p ≠ q := by
  rintro rfl
  rw [hq] at hp
  cases hp

theorem SameBut.trans (h : SameBut paths fs fs') (h' : SameBut paths' fs' fs'') :
    SameBut (paths ++ paths') fs fs'' := by
  intro p hp
  have h1 := h p fun q hq => hp q (List.mem_append_left _ hq)
  have h2 := h' p fun q hq => hp q (List.mem_append_right _ hq)
  exact ⟨h2.1.trans h1.1, h2.2.trans h1.2⟩

/-- Record files with different names do not meet. -/
theorem SameBut.own (hs : SameBut paths fs fs') (hne : f.filepath ∉ paths)
    (hf : f.filepath.isUnfinished = false) (hpaths : ∀ path ∈ paths, path.isUnfinished = false) :
    fs'.node f.filepath = fs.node f.filepath ∧
      fs'.node f.filepath.unfinishedPath = fs.node f.filepath.unfinishedPath ∧
      (f.filepath.unfinishedPath ∈ fs'.locks ↔ f.filepath.unfinishedPath ∈ fs.locks) := by
  have hfin := hs f.filepath fun q hq => ⟨ne_of_mem_of_not_mem hq hne |>.symm, ne_unfinishedPath hf⟩
  have hown := hs f.filepath.unfinishedPath fun q hq =>
    ⟨(ne_unfinishedPath (hpaths q hq)).symm,
      Path.unfinishedPath_injective.ne (ne_of_mem_of_not_mem hq hne).symm⟩
  exact ⟨hfin.1, hown⟩

theorem HoldsOpen.congr (h : HoldsOpen fs f entries) (hs : SameBut paths fs fs')
    (hne : f.filepath ∉ paths) (hf : f.filepath.isUnfinished = false)
    (hpaths : ∀ path ∈ paths, path.isUnfinished = false) : HoldsOpen fs' f entries := by
  obtain ⟨hfin, hown, hlock⟩ := hs.own hne hf hpaths
  exact ⟨h.db, hown.trans h.unfinished, hfin.trans h.final, hlock.mpr h.locked⟩

theorem HoldsClosed.congr (h : HoldsClosed fs f entries) (hs : SameBut paths fs fs')
    (hne : f.filepath ∉ paths) (hf : f.filepath.isUnfinished = false)
    (hpaths : ∀ path ∈ paths, path.isUnfinished = false) : HoldsClosed fs' f entries := by
  obtain ⟨hfin, hown, hlock⟩ := hs.own hne hf hpaths
  exact ⟨h.db, hown.trans h.unfinished, hfin.trans h.final, hlock.not.mpr h.unlocked⟩

theorem empty_iff_of_holding (hdb : fs.node f.filepath.unfinishedPath = some (holding entries))
    (hread : Readable entries) :
    f.empty fs ⟨f.filepath.unfinishedPath, false⟩ = true ↔ entries = [] := by
  have hdb : fs.database f.filepath.unfinishedPath = some ⟨false, entries⟩ := by
    simp [FileSystem.database, hdb, holding]
  refine empty_iff (h := ⟨f.filepath.unfinishedPath, false⟩) hdb fun e he => ?_
  cases f.legacy with
  | true => rfl
  | false => exact hread e he

/-- Under the unfinished name nothing stays, under the final one the database if it has a record. -/
theorem closeDB_node_of_holding (hdb : f.db = some ⟨f.filepath.unfinishedPath, false⟩)
    (hown : fs.node f.filepath.unfinishedPath = some (holding entries))
    (hfin : fs.node f.filepath = none) (hread : Readable entries) (p : Path) :
    (f.closeDB fs true).1.node p =
      if p = f.filepath then committed entries
      else if p = f.filepath.unfinishedPath then none else fs.node p := by
  have hcommits : commits (fs.unlock f.filepath.unfinishedPath) f true = true := by
    simp [commits, FileSystem.pathExists, hown, hfin]
  have hcommit (p : Path) : (commitDB (fs.unlock f.filepath.unfinishedPath) f true).node p =
      if p = f.filepath then some (holding entries)
      else if p = f.filepath.unfinishedPath then none else fs.node p := by
    rw [node_commitDB, hcommits, if_pos rfl]
    simp [hown]
  have hlevel : (commitDB (fs.unlock f.filepath.unfinishedPath) f true).isLevelDBDir f.filepath =
      true := by
    simp [FileSystem.isLevelDBDir, hcommit, holding]
  simp only [closeDB_node hdb, hlevel, empty_iff_of_holding hown hread, hcommit]
  by_cases hp : p = f.filepath
  · simp [hp, committed]
  · simp [hp]

theorem closeDB_links (fs : FileSystem) (f : RecordFile) (renames : Bool) :
    (f.closeDB fs renames).1.links = fs.links := by
  have hcommit (g : FileSystem) : (f.commitDB g renames).links = g.links := by
    simp only [commitDB, FileSystem.rename]
    cases g.node f.filepath.unfinishedPath <;> cases renames <;> simp only [Option.map] <;>
      (repeat' split) <;> simp_all [FileSystem.set, FileSystem.removeAll]
  have hremove (g : FileSystem) (b : Bool) : (f.removeIfEmpty g b).links = g.links := by
    simp only [removeIfEmpty]
    split <;> rfl
  simp only [closeDB, compact, ite_self]
  split
  · rfl
  · rw [hremove, hcommit]
    rfl

/-- `CloseDB` gives the database its final name, or removes it when it has no record. -/
theorem HoldsOpen.closeDB (h : HoldsOpen fs f entries) (hread : Readable entries) :
    HoldsClosed (f.closeDB fs true).1 (f.closeDB fs true).2 entries ∧
      SameBut [f.filepath] fs (f.closeDB fs true).1 := by
  have hne := f.filepath.unfinishedPath_ne
  have hnode (p : Path) : (f.closeDB fs true).1.node p =
      if p = f.filepath then committed entries
      else if p = f.filepath.unfinishedPath then none else fs.node p :=
    closeDB_node_of_holding h.db h.unfinished h.final hread p
  have hlocks : (f.closeDB fs true).1.locks = fs.locks.filter (· ≠ f.filepath.unfinishedPath) :=
    closeDB_locks h.db true
  rw [closeDB_file]
  refine ⟨⟨rfl, ?_, ?_, ?_⟩, fun p hsame => ?_⟩
  · change (f.closeDB fs true).1.node f.filepath.unfinishedPath = none
    rw [hnode, if_neg hne, if_pos rfl]
  · change (f.closeDB fs true).1.node f.filepath = committed entries
    rw [hnode, if_pos rfl]
  · change f.filepath.unfinishedPath ∉ (f.closeDB fs true).1.locks
    simp [hlocks]
  · obtain ⟨hp, hown⟩ := hsame f.filepath (List.mem_singleton_self _)
    exact ⟨by rw [hnode, if_neg hp, if_neg hown], by simp [hlocks, hown]⟩

/-- `OpenDB()` takes a committed database back, or makes a new one. -/
theorem HoldsClosed.openDB {answers : OpenAnswers} (h : HoldsClosed fs f entries)
    (hne : f.filepath.isEmpty = false) (hw : Willing answers) :
    ∃ fs', f.openDB fs true answers =
        (.ok true, fs', { f with db := some ⟨f.filepath.unfinishedPath, false⟩ }) ∧
      HoldsOpen fs' { f with db := some ⟨f.filepath.unfinishedPath, false⟩ } entries ∧
      SameBut [f.filepath] fs fs' ∧
      ∀ link ∈ fs'.links, link ∈ fs.links ∨ link.1.parent = f.filepath.parent.dropLast.dropLast := by
  have hown := f.filepath.unfinishedPath_ne
  -- the file system after the directory is there, before the link is made
  obtain ⟨g, hopen, hnode, hlocks, hlinks⟩ : ∃ g : FileSystem,
      f.openDB fs true answers = (.ok true, makeLink g f answers.symlink,
        { f with db := some ⟨f.filepath.unfinishedPath, false⟩ }) ∧
      (∀ p, g.node p = if p = f.filepath.unfinishedPath then some (holding entries)
        else if p = f.filepath then none else fs.node p) ∧
      g.locks = f.filepath.unfinishedPath :: fs.locks ∧ g.links = fs.links := by
    by_cases hemp : entries = []
    · have hfin : fs.node f.filepath = none := by rw [h.final, committed, if_pos hemp]
      refine ⟨_, openDB_fresh h.db hne hfin h.unfinished h.unlocked hw, fun p => ?_, rfl, rfl⟩
      rw [FileSystem.node_lock, FileSystem.node_set, hemp]
      by_cases hp : p = f.filepath
      · simp [hp, hown.symm, hfin]
      · simp only [hp, if_false]
        rfl
    · have hfin : fs.node f.filepath = some (holding entries) := by
        rw [h.final, committed, if_neg hemp]
      refine ⟨_, openDB_committed h.db hne hfin rfl rfl h.unfinished h.unlocked hw,
        fun p => ?_, rfl, rfl⟩
      rw [FileSystem.node_lock, FileSystem.node_set, FileSystem.node_removeAll]
      rfl
  refine ⟨_, hopen, ⟨rfl, ?_, ?_, ?_⟩, fun p hsame => ?_, fun link hl => ?_⟩
  · rw [makeLink_node, hnode, if_pos rfl]
  · rw [makeLink_node, hnode, if_neg hown.symm, if_pos rfl]
  · rw [makeLink_locks, hlocks]
    exact List.mem_cons_self
  · obtain ⟨hp, hpown⟩ := hsame f.filepath (List.mem_singleton_self _)
    constructor
    · rw [makeLink_node, hnode, if_neg hpown, if_neg hp]
    · rw [makeLink_locks, hlocks, List.mem_cons, or_iff_right hpown]
  · simp only [makeLink] at hl
    split at hl
    · exact Or.inl (hlinks ▸ hl)
    · split at hl
      · rcases List.mem_append.mp hl with hl | hl
        · exact Or.inl (hlinks ▸ hl)
        · rw [List.mem_singleton.mp hl]
          exact Or.inr rfl
      · exact Or.inl (hlinks ▸ hl)

theorem HoldsOpen.put (h : HoldsOpen fs f entries) (key value : Bytes) :
    HoldsOpen (fs.put f.filepath.unfinishedPath key value) f
        (OrderedStore.put (List.compareLex compare) key value entries) ∧
      SameBut [f.filepath] fs (fs.put f.filepath.unfinishedPath key value) := by
  refine ⟨⟨h.db, ?_, ?_, ?_⟩, fun p hsame => ?_⟩
  · rw [FileSystem.node_put_self _ h.unfinished]
    rfl
  · rw [FileSystem.node_put_of_ne _ f.filepath.unfinishedPath_ne.symm]
    exact h.final
  · rw [FileSystem.locks_put]
    exact h.locked
  · have hown := (hsame f.filepath (List.mem_singleton_self _)).2
    exact ⟨FileSystem.node_put_of_ne _ hown _ _, by rw [FileSystem.locks_put]⟩

/-- The record file after a roll. -/
def rolledTo (f : RecordFile) (path : Path) : RecordFile :=
  { f with filepath := path, db := some ⟨path.unfinishedPath, false⟩ }

/-- A roll to a new name closes the database and opens an empty one. -/
theorem HoldsOpen.roll {answers : WriteAnswers} (h : HoldsOpen fs f entries)
    (hread : Readable entries) (hf : f.filepath.isUnfinished = false)
    (hpath : f.newFilepath answers.newRecordDirName = path) (hplain : path.isUnfinished = false)
    (hren : answers.renames = true) (hw : Willing answers.opens)
    (hfree : path.unfinishedPath ∉ fs.locks) (hown : fs.node path.unfinishedPath = none)
    (hfin : fs.node path = none) :
    ∃ fs', f.roll fs answers = (true, fs', f.rolledTo path) ∧ fs'.links = fs.links ∧
      HoldsOpen fs' (f.rolledTo path) [] ∧ HoldsClosed fs' { f with db := none } entries ∧
      SameBut [path, f.filepath] fs fs' := by
  have hne : f.filepath ≠ path := by
    rintro rfl
    rw [h.unfinished] at hown
    cases hown
  let g := (fs.set path.unfinishedPath (holding [])).lock path.unfinishedPath
  have hopen : fs.openDatabase path.unfinishedPath false = some g := by
    simp [FileSystem.openDatabase, hfree, hown, g, holding]
  have hsame : SameBut [path] fs g := by
    intro p hp
    have hp := (hp path (List.mem_singleton_self _)).2
    constructor
    · simp [g, FileSystem.node_set, hp]
    · simp [g, FileSystem.lock, FileSystem.set, hp]
  -- the new database is opened before the old one is closed
  have hold : HoldsOpen g f entries := h.congr hsame (by simpa using hne) hf (by simpa using hplain)
  have hnew : HoldsOpen g (f.rolledTo path) [] := by
    refine ⟨rfl, ?_, ?_, List.mem_cons_self⟩
    · change g.node path.unfinishedPath = _
      simp [g, FileSystem.node_set]
    · change g.node path = none
      simp [g, FileSystem.node_set, path.unfinishedPath_ne.symm, hfin]
  obtain ⟨hclosed, hsame'⟩ := hold.closeDB hread
  rw [closeDB_file] at hclosed
  refine ⟨(f.closeDB g true).1, ?_, closeDB_links _ _ _,
    hnew.congr hsame' (by simpa [rolledTo] using hne.symm) hplain (by simpa using hf), hclosed,
    hsame.trans hsame'⟩
  simp [RecordFile.roll, hpath, openDBAt_willing hw hopen, hren, closeDB_file, rolledTo]

end CrisCore.RecordFile
