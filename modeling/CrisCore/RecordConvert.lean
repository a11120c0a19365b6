import CrisCore.RecordReadBack

/-! The tool that copies a legacy record into a new one, record by record. -/
namespace CrisCore.RecordConvert
open RecordFile RecordFileKey

/-- The loop of `main` over the iterator of the old file. `none` where `Write` meets a null `db_`. -/
def copyLoop (answers : ℕ → WriteAnswers) :
    ℕ → RecordFileIterator → FileSystem → RecordFile → Option (FileSystem × RecordFile)
  | 0, _, fs, newFile => some (fs, newFile)
  | n + 1, itr, fs, newFile =>
    if itr.valid then
      match newFile.write fs itr.get.1 itr.get.2 (answers n) with
      | none => none
      | some result => copyLoop answers n itr.next result.2.1 result.2.2
    else some (fs, newFile)

def copy (answers : ℕ → WriteAnswers) (itr : RecordFileIterator) (fs : FileSystem)
    (newFile : RecordFile) : Option (FileSystem × RecordFile) :=
  copyLoop answers itr.dbItr.length itr fs newFile

def convertedPath (oldFilePath : Path) : Path :=
  { oldFilePath with name := oldFilePath.name ++ ".converted.ldb.d" }

structure Answers where
  oldRenames : Bool
  oldOpens : OpenAnswers
  newRenames : Bool
  newOpens : OpenAnswers
  writes : ℕ → WriteAnswers

/-- `main` up to the end of the loop: the file system, the old and the new file. `none` where it does
not get there: the `CHECK` fails, a constructor throws or `Iterate` meets a null `db_`. -/
def main (fs : FileSystem) (oldFilePath : Path) (answers : Answers) :
    Option (FileSystem × RecordFile × RecordFile) :=
  if fs.pathExists (convertedPath oldFilePath) then none
  else
    let old := (unopened oldFilePath "" false).openDB fs answers.oldRenames answers.oldOpens
    let new := (unopened (convertedPath oldFilePath) "" false).openDB old.2.1 answers.newRenames
      answers.newOpens
    match old.1, new.1, old.2.2.db with
    | .ok _, .ok _, some h =>
      (copy answers.writes (old.2.2.iterate new.2.1 h) new.2.1 new.2.2).map fun result =>
        (result.1, old.2.2, result.2)
    | _, _, _ => none

section Loop
variable {answers : ℕ → WriteAnswers} {newFile : RecordFile} {h : DbHandle}

/-- The loop writes the records that are still to come, in their order. -/
theorem copyLoop_holds (hroll : newFile.rollingHelper = false)
    (hput : ∀ n, (answers n).put = true) {n : ℕ} {itr : RecordFileIterator} {fs : FileSystem}
    {accepted : List (RecordFileKey × Bytes)} (hitr : itr.Standing)
    (hn : itr.dbItr.length ≤ n) (hs : RecordSession.HoldsAccepted ⟨fs, newFile, accepted⟩ h) :
    ∃ fs', copyLoop answers n itr fs newFile = some (fs', newFile) ∧
      RecordSession.HoldsAccepted ⟨fs', newFile, accepted ++ itr.records⟩ h := by
  induction n generalizing itr fs accepted with
  | zero =>
    have hnil : itr.records = [] := by
      apply RecordFileIterator.records_eq_nil
      simp [RecordFileIterator.valid, List.length_eq_zero_iff.mp (Nat.le_zero.mp hn)]
    rw [hnil, List.append_nil]
    exact ⟨fs, rfl, hs⟩
  | succ n ih =>
    by_cases hv : itr.valid = true
    · -- one record is written, and the iterator has fewer entries to go
      have hlen : itr.next.dbItr.length ≤ itr.dbItr.tail.length :=
        RecordFileIterator.length_readNextValidKey _ _ _
      rw [List.length_tail] at hlen
      have hwrite : newFile.write fs itr.get.1 itr.get.2 (answers n) =
          some (true, fs.put h.path itr.get.1.toBytes itr.get.2, newFile) := by
        refine write_of_stays hs.db (fun hr => ?_) (hput n)
        rw [hroll] at hr
        cases hr
      have hrest : itr.next.dbItr.length ≤ n := by omega
      obtain ⟨fs', hloop, hfs'⟩ := ih (RecordFileIterator.standing_next itr) hrest
        (hs.put itr.get.1 itr.get.2)
      refine ⟨fs', ?_, ?_⟩
      · rw [copyLoop, if_pos hv, hwrite]
        exact hloop
      · rw [RecordFileIterator.records_eq_cons hitr hv]
        rwa [List.append_assoc] at hfs'
    · rw [copyLoop, if_neg hv, RecordFileIterator.records_eq_nil hv, List.append_nil]
      exact ⟨fs, rfl, hs⟩

/-- The new file yields what the old one does, with the keys clamped, when the old file yields its
records in the order of their keys. -/
theorem copy_yields (hroll : newFile.rollingHelper = false) (hlegacy : newFile.legacy = false)
    (hput : ∀ n, (answers n).put = true) {itr : RecordFileIterator} {fs : FileSystem}
    (hitr : itr.Standing)
    (hsorted : OrderedStore.Sorted RecordFileKey.compare itr.records)
    (hs : RecordSession.HoldsAccepted ⟨fs, newFile, []⟩ h) :
    ∃ fs', copy answers itr fs newFile = some (fs', newFile) ∧
      (newFile.iterate fs' h).yielded = itr.records.map (Prod.map clamped id) := by
  obtain ⟨fs', hloop, hfs'⟩ := copyLoop_holds hroll hput hitr (Nat.le_refl _) hs
  refine ⟨fs', hloop, ?_⟩
  have hyielded := hfs'.yielded
  rw [if_pos hlegacy, List.nil_append, hsorted.ofPuts_eq] at hyielded
  exact hyielded

end Loop

theorem records_legacy (entries : List (Bytes × Bytes)) :
    (RecordFileIterator.start entries true).records = entries.map (Prod.map legacyKey id) := by
  rw [RecordFileIterator.start, RecordFileIterator.records_readNextValidKey,
    ← List.filterMap_eq_map]
  rfl

/-- The records of a legacy database in its order, with the keys that it decodes. -/
def decoded (records : List (Bytes × Bytes)) : List (RecordFileKey × Bytes) :=
  OrderedStore.ofPuts RecordFileKey.compare (records.map (Prod.map legacyKey id))

section Copy
variable {fs : FileSystem} {oldFile newFile : RecordFile} {old new : DbHandle}
  {records : List (Bytes × Bytes)} {answers : ℕ → WriteAnswers}

theorem sorted_decoded (records : List (Bytes × Bytes)) :
    OrderedStore.Sorted RecordFileKey.compare (decoded records) :=
  OrderedStore.sorted_ofPuts _

/-- A legacy file iterates in the order of the decoded keys. -/
theorem iterate_legacy (hold : oldFile.legacy = true)
    (hdb : fs.database old.path = some ⟨true, OrderedStore.ofPuts legacyCompare records⟩) :
    (oldFile.iterate fs old).records = decoded records ∧
      (oldFile.iterate fs old).yielded = decoded records := by
  have hdecoded : (OrderedStore.ofPuts legacyCompare records).map (Prod.map legacyKey id) =
      decoded records := OrderedStore.map_ofPuts compare_legacyKey
  have hiterate : oldFile.iterate fs old =
      .start (OrderedStore.ofPuts legacyCompare records) true := by
    simp only [iterate, entries, hdb, hold, Option.map_some, Option.getD_some]
  constructor
  · rw [hiterate, records_legacy, hdecoded]
  · rw [hiterate, yielded_legacy, hdecoded]

/-- The copy of a legacy file into a new one that is empty. -/
theorem copy_legacy (hold : oldFile.legacy = true)
    (hdb : fs.database old.path = some ⟨true, OrderedStore.ofPuts legacyCompare records⟩)
    (hroll : newFile.rollingHelper = false) (hlegacy : newFile.legacy = false)
    (hnew : newFile.db = some new) (hnewLegacy : new.legacy = false)
    (hempty : fs.database new.path = some ⟨false, []⟩) (hput : ∀ n, (answers n).put = true) :
    ∃ fs', copy answers (oldFile.iterate fs old) fs newFile = some (fs', newFile) ∧
      (newFile.iterate fs' new).yielded = (decoded records).map (Prod.map clamped id) := by
  have hrecords := (iterate_legacy hold hdb).1
  have hs : RecordSession.HoldsAccepted ⟨fs, newFile, []⟩ new := by
    refine ⟨hnew, fun hl => ?_, ?_⟩
    · rw [hnewLegacy] at hl
      cases hl
    · rw [hempty, hnewLegacy]
      rfl
  have hstanding : (oldFile.iterate fs old).Standing :=
    RecordFileIterator.standing_readNextValidKey _ _ _
  have hsorted : OrderedStore.Sorted RecordFileKey.compare (oldFile.iterate fs old).records :=
    hrecords ▸ sorted_decoded records
  rw [← hrecords]
  exact copy_yields hroll hlegacy hput hstanding hsorted hs

/-- Copying a legacy database, whatever its keys are as long as its comparator tells them apart, into
an empty new one: the new database yields what the old one yields, all of its records in the same
order, with the keys clamped, and different records keep different keys. -/
theorem migration_preserves (hdistinct : records.Pairwise fun e f => legacyCompare f.1 e.1 ≠ .eq)
    (hold : oldFile.legacy = true)
    (hdb : fs.database old.path = some ⟨true, OrderedStore.ofPuts legacyCompare records⟩)
    (hroll : newFile.rollingHelper = false) (hlegacy : newFile.legacy = false)
    (hnew : newFile.db = some new) (hnewLegacy : new.legacy = false)
    (hempty : fs.database new.path = some ⟨false, []⟩) (hput : ∀ n, (answers n).put = true) :
    ∃ fs', copy answers (oldFile.iterate fs old) fs newFile = some (fs', newFile) ∧
      (oldFile.iterate fs old).yielded.Perm (records.map (Prod.map legacyKey id)) ∧
      (newFile.iterate fs' new).yielded =
        (oldFile.iterate fs old).yielded.map (Prod.map clamped id) ∧
      (newFile.iterate fs' new).yielded.Pairwise fun e f =>
        RecordFileKey.compare e.1 f.1 = .lt := by
  have hyielded := (iterate_legacy hold hdb).2
  have hperm : (decoded records).Perm (records.map (Prod.map legacyKey id)) :=
    OrderedStore.perm_ofPuts (List.pairwise_map.mpr hdistinct)
  obtain ⟨fs', hcopy, hnewYielded⟩ := copy_legacy hold hdb hroll hlegacy hnew
    hnewLegacy hempty hput
  refine ⟨fs', hcopy, hyielded ▸ hperm, by rw [hnewYielded, hyielded], ?_⟩
  rw [hnewYielded, List.pairwise_map]
  refine (sorted_decoded records).imp fun {e f} hlt => ?_
  rw [Prod.map_fst, Prod.map_fst, compare_clamped]
  exact hlt

/-- Two short keys, one of them with a negative timestamp. -/
def shortKeys : List (Bytes × Bytes) :=
  [([5], [1]), (List.replicate 8 255 ++ [7], [2])]

def shortKeysDisk : FileSystem :=
  (RecordSession.emptyDisk.set ⟨["records"], "a.saving"⟩
    (.dir ⟨some ⟨true, OrderedStore.ofPuts legacyCompare shortKeys⟩, []⟩)).set
    ⟨["records"], "b.saving"⟩ (.dir ⟨some ⟨false, []⟩, []⟩)

theorem migration_preserves_shortKeys :
    let old : DbHandle := ⟨⟨["records"], "a.saving"⟩, true⟩
    let new : DbHandle := ⟨⟨["records"], "b.saving"⟩, false⟩
    let oldFile : RecordFile := ⟨⟨["records"], "a"⟩, "", false, some old, true, false⟩
    let newFile : RecordFile := ⟨⟨["records"], "b"⟩, "", false, some new, false, false⟩
    ∃ fs', copy (fun _ => RecordSession.noRoll) (oldFile.iterate shortKeysDisk old) shortKeysDisk
        newFile = some (fs', newFile) ∧
      (newFile.iterate fs' new).yielded = [(⟨0, 7⟩, [2]), (⟨5, 0⟩, [1])] := by
  intro old new oldFile newFile
  have hdb : shortKeysDisk.database old.path =
      some ⟨true, OrderedStore.ofPuts legacyCompare shortKeys⟩ := rfl
  obtain ⟨fs', hcopy, -, hyielded, -⟩ := migration_preserves (by decide +kernel)
    (rfl : oldFile.legacy = true) hdb rfl rfl (rfl : newFile.db = some new) rfl rfl
    (fun _ => (rfl : RecordSession.noRoll.put = true))
  refine ⟨fs', hcopy, hyielded.trans ?_⟩
  decide +kernel

end Copy

section Main
variable {fs : FileSystem} {path : Path} {d : Dir} {db : Database}

/-- A committed legacy database is opened by the second attempt. -/
theorem openDB_legacy {f : RecordFile} {opens : OpenAnswers} (hdb : f.db = none)
    (hne : f.filepath.isEmpty = false) (hlink : f.linkname = "")
    (hfin : fs.node f.filepath = some (.dir d)) (hd : d.db = some db) (hleg : db.legacy = true)
    (hown : fs.node f.filepath.unfinishedPath = none)
    (hlock : f.filepath.unfinishedPath ∉ fs.locks) (hw : Willing opens) :
    f.openDB fs true opens = (.ok true,
      ((fs.removeAll f.filepath).set f.filepath.unfinishedPath (.dir d)).lock
        f.filepath.unfinishedPath,
      { f with legacy := true, db := some ⟨f.filepath.unfinishedPath, true⟩ }) := by
  set fs' := (fs.removeAll f.filepath).set f.filepath.unfinishedPath (.dir d) with hfs'
  have hnode : fs'.node f.filepath.unfinishedPath = some (.dir d) := by
    rw [hfs', FileSystem.node_set, if_pos rfl]
  have hl : f.filepath.unfinishedPath ∉ fs'.locks := hlock
  have hfirst : fs'.openDatabase f.filepath.unfinishedPath false = none := by
    simp [FileSystem.openDatabase, hl, hnode, hd, hleg]
  have hsecond : fs'.openDatabase f.filepath.unfinishedPath true =
      some (fs'.lock f.filepath.unfinishedPath) := by
    simp [FileSystem.openDatabase, hl, hnode, hd, hleg]
  have hopen : f.openDBAt fs' f.filepath opens = (some ⟨f.filepath.unfinishedPath, true⟩,
      fs'.lock f.filepath.unfinishedPath, { f with legacy := true }) := by
    simp [openDBAt, hw.1, hw.2.1, hw.2.2, FileSystem.tryOpen, hfirst, hsecond]
  have hcheckout : f.checkoutDB fs true = .ok fs' := by
    simp [checkoutDB, FileSystem.pathExists, hfin, hown, FileSystem.rename, hfs']
  simp [openDB, hdb, hne, hcheckout, hopen, makeLink, hlink]

theorem convertedPath_ne (path : Path) :
    convertedPath path ≠ path.unfinishedPath ∧
      (convertedPath path).unfinishedPath ≠ path.unfinishedPath := by
  constructor
  · intro he
    have hname : path.name ++ ".converted.ldb.d" = path.name ++ ".saving" := congrArg Path.name he
    rw [String.append_right_inj] at hname
    exact absurd hname (by decide)
  · intro he
    have hpath := Path.unfinishedPath_injective he
    have hname : path.name ++ ".converted.ldb.d" = path.name := congrArg Path.name hpath
    have hlen := congrArg String.length hname
    rw [String.length_append] at hlen
    exact absurd (Nat.add_eq_left.mp hlen) (by decide)

/-- The tool opens a legacy record and an empty new one and gets to the end of the loop. -/
theorem main_migrates {records : List (Bytes × Bytes)} {answers : Answers}
    (hne : path.isEmpty = false) (hneNew : (convertedPath path).isEmpty = false)
    (hfin : fs.node path = some (.dir d))
    (hd : d.db = some ⟨true, OrderedStore.ofPuts legacyCompare records⟩)
    (hown : fs.node path.unfinishedPath = none) (hlock : path.unfinishedPath ∉ fs.locks)
    (hnew : fs.node (convertedPath path) = none)
    (hnewOwn : fs.node (convertedPath path).unfinishedPath = none)
    (hnewLock : (convertedPath path).unfinishedPath ∉ fs.locks)
    (hrenames : answers.oldRenames = true) (hwOld : Willing answers.oldOpens)
    (hwNew : Willing answers.newOpens) (hput : ∀ n, (answers.writes n).put = true) :
    ∃ fs' old new h, main fs path answers = some (fs', old, new) ∧ new.db = some h ∧
      (new.iterate fs' h).yielded = (decoded records).map (Prod.map clamped id) := by
  let handle : DbHandle := ⟨path.unfinishedPath, true⟩
  let old : RecordFile := { unopened path "" false with legacy := true, db := some handle }
  set fs₁ := ((fs.removeAll path).set path.unfinishedPath (.dir d)).lock path.unfinishedPath
    with hfs₁
  have hopenOld : (unopened path "" false).openDB fs true answers.oldOpens = (.ok true, fs₁, old) :=
    openDB_legacy rfl hne rfl hfin hd rfl hown hlock hwOld
  have hnode₁ (p : Path) : fs₁.node p =
      if p = path.unfinishedPath then some (.dir d) else if p = path then none else fs.node p := by
    rw [hfs₁, FileSystem.node_lock, FileSystem.node_set, FileSystem.node_removeAll]
  -- the new record is beside the old one, not at one of its names
  obtain ⟨hne₁, hne₂⟩ := convertedPath_ne path
  have hnone {p : Path} (hp : p ≠ path.unfinishedPath) (hn : fs.node p = none) :
      fs₁.node p = none := by
    rw [hnode₁, if_neg hp, hn, ite_self]
  let newHandle : DbHandle := ⟨(convertedPath path).unfinishedPath, false⟩
  let new : RecordFile := { unopened (convertedPath path) "" false with db := some newHandle }
  set fs₂ := (fs₁.set (convertedPath path).unfinishedPath (.dir ⟨some ⟨false, []⟩, []⟩)).lock
    (convertedPath path).unfinishedPath with hfs₂
  have hlock₁ : (convertedPath path).unfinishedPath ∉ fs₁.locks := by
    change (convertedPath path).unfinishedPath ∉ path.unfinishedPath :: fs.locks
    rw [List.mem_cons, not_or]
    exact ⟨hne₂, hnewLock⟩
  have hopenNew : (unopened (convertedPath path) "" false).openDB fs₁ answers.newRenames
      answers.newOpens = (.ok true, fs₂, new) :=
    openDB_fresh rfl hneNew (hnone hne₁ hnew) (hnone hne₂ hnewOwn) hlock₁ hwNew
  have hdbOld : fs₂.database handle.path =
      some ⟨true, OrderedStore.ofPuts legacyCompare records⟩ := by
    have hn : fs₂.node path.unfinishedPath = some (.dir d) := by
      rw [hfs₂, FileSystem.node_lock, FileSystem.node_set, if_neg hne₂.symm, hnode₁, if_pos rfl]
    simp only [FileSystem.database, handle, hn, hd]
  have hdbNew : fs₂.database newHandle.path = some ⟨false, []⟩ := by
    have hn : fs₂.node (convertedPath path).unfinishedPath = some (.dir ⟨some ⟨false, []⟩, []⟩) := by
      rw [hfs₂, FileSystem.node_lock, FileSystem.node_set, if_pos rfl]
    simp only [FileSystem.database, newHandle, hn]
  have hold : old.db = some handle := rfl
  have hnewDb : new.db = some newHandle := rfl
  obtain ⟨fs', hcopy, hyielded⟩ :=
    copy_legacy (rfl : old.legacy = true) hdbOld rfl rfl hnewDb rfl hdbNew hput
  refine ⟨fs', old, new, _, ?_, hnewDb, hyielded⟩
  have hpath : fs.pathExists (convertedPath path) = false := by
    rw [FileSystem.pathExists, hnew]
    rfl
  simp only [main, hpath, hrenames, hopenOld, hopenNew, hold, hcopy]
  rfl

end Main

end CrisCore.RecordConvert
