import CrisCore.RecordFileCleanup

/-! The commit protocol of record files: where the accepted records are, from the `.saving`
directory they are written to until it has its final name. -/
namespace CrisCore.RecordSession
open RecordFile RecordFileIterator

def Stored (fs : FileSystem) (p : Path) (e : Bytes × Bytes) : Prop :=
  ∃ db, fs.database p = some db ∧ e ∈ db.entries

/-- No database on the disk has an entry with the key. -/
def KeyUnused (fs : FileSystem) (key : RecordFileKey) : Prop :=
  ∀ p ∈ fs.nodes.keys, ∀ db ∈ fs.database p, ∀ e ∈ db.entries, e.1 ≠ key.toBytes

theorem KeyUnused.not_stored {fs : FileSystem} {key : RecordFileKey} (h : KeyUnused fs key)
    (p : Path) (v : Bytes) : ¬ Stored fs p (key.toBytes, v) := by
  rintro ⟨db, hdb, he⟩
  have hp : p ∈ fs.nodes := AList.lookup_isSome.mp (FileSystem.node_isSome_of_database hdb)
  exact h p hp db hdb _ he rfl

/-- The put of a key that the database does not have takes the place of no entry. -/
theorem stored_put {fs : FileSystem} {path : Path} {db : Database} {k value : Bytes}
    (hdb : fs.database path = some db) (hleg : db.legacy = false)
    (hunused : ∀ v, ¬ Stored fs path (k, v)) (p : Path) (e : Bytes × Bytes) :
    Stored (fs.put path k value) p e ↔ (p = path ∧ e = (k, value)) ∨ Stored fs p e := by
  have hdat : (fs.put path k value).database p =
      if p = path then some (db.put k value) else fs.database p := by
    rw [FileSystem.database_put, hdb]
    rfl
  have hmem : e ∈ (db.put k value).entries ↔ e = (k, value) ∨ e ∈ db.entries := by
    refine ⟨OrderedStore.mem_of_mem_put, ?_⟩
    rintro (rfl | he)
    · exact OrderedStore.mem_put_self ..
    · refine OrderedStore.mem_put_of_mem he fun hc => hunused e.2 ⟨db, hdb, ?_⟩
      have hcmp : List.compareLex compare k e.1 = .eq := by
        simpa [Database.comparator, hleg] using hc
      have heq : k = e.1 := Std.LawfulEqCmp.eq_of_compare hcmp
      rw [heq]
      exact he
  by_cases hp : p = path
  · subst hp
    simp [Stored, hdat, hmem, hdb]
  · simp [Stored, hdat, hp]

def recordBytes (r : RecordFileKey × Bytes) : Bytes × Bytes :=
  (r.1.toBytes, r.2)

/-- The entries of every database with the default comparator are records. -/
def RecordsOnly (fs : FileSystem) : Prop :=
  ∀ p db, fs.database p = some db → db.legacy = false →
    ∀ e ∈ db.entries, (RecordFileKey.fromBytes e.1).isSome = true

/-- What holds of the directories during a run that started from `fs₀`, while those of `opened`
are in the hands of the record file. -/
structure Kept (fs₀ fs : FileSystem) (accepted : List (RecordFileKey × Bytes))
    (opened : List Path) : Prop where
  records : RecordsOnly fs
  origin : ∀ p e, Stored fs p e → (∃ q, Stored fs₀ q e) ∨ ∃ r ∈ accepted, e = recordBytes r
  stored : ∀ r ∈ accepted, ∃! p, Stored fs p (recordBytes r)
  fresh : ∀ r ∈ accepted, KeyUnused fs₀ r.1
  nonneg : ∀ r ∈ accepted, 0 ≤ r.1.timestampNs.toInt
  unfinished : ∀ p, p.isUnfinished = true → p ∉ opened →
    fs.node p = none ∨ fs.node p = fs₀.node p
  kept : ∀ p n, fs.node p = some n → p ∉ opened →
    fs₀.node p = some n ∨ ∃ d, n = .dir d ∧ HoldsRecord d

namespace Kept
variable {fs₀ fs fs' : FileSystem} {accepted : List (RecordFileKey × Bytes)} {opened : List Path}

theorem congr (h : Kept fs₀ fs accepted opened) (hn : ∀ p, fs'.node p = fs.node p) :
    Kept fs₀ fs' accepted opened := by
  have hd (p : Path) : fs'.database p = fs.database p := FileSystem.database_of_node (hn p)
  have hst (p : Path) (e : Bytes × Bytes) : Stored fs' p e ↔ Stored fs p e := by
    simp only [Stored, hd]
  obtain ⟨h1, h2, h3, h4, h5, h6, h7⟩ := h
  exact ⟨by simpa only [RecordsOnly, hd] using h1, by simpa only [hst] using h2,
    by simpa only [hst] using h3, h4, h5, by simpa only [hn] using h6, by simpa only [hn] using h7⟩

theorem mono {opened' : List Path} (h : Kept fs₀ fs accepted opened)
    (hs : ∀ p ∈ opened, p ∈ opened') : Kept fs₀ fs accepted opened' :=
  { h with
    unfinished := fun p hp ho => h.unfinished p hp fun hm => ho (hs p hm)
    kept := fun p n hn ho => h.kept p n hn fun hm => ho (hs p hm) }

/-- A directory is handed back when it is gone, or when it has its final name and a record. -/
theorem close {p : Path} (h : Kept fs₀ fs accepted (p :: opened))
    (hp : fs.node p = none ∨
      (p.isUnfinished = false ∧ ∃ d, fs.node p = some (.dir d) ∧ HoldsRecord d)) :
    Kept fs₀ fs accepted opened := by
  refine { h with unfinished := fun q hq ho => ?_, kept := fun q n hn ho => ?_ }
  · by_cases hqp : q = p
    · rcases hp with hp | ⟨hp, -⟩
      · exact Or.inl (hqp ▸ hp)
      · rw [hqp, hp] at hq
        cases hq
    · exact h.unfinished q hq (by simp [hqp, ho])
  · by_cases hqp : q = p
    · rcases hp with hp | ⟨-, d, hd, hrec⟩
      · rw [hqp, hp] at hn
        cases hn
      · rw [hqp, hd] at hn
        exact Or.inr ⟨d, (Option.some.inj hn).symm, hrec⟩
    · exact h.kept q n hn (by simp [hqp, ho])

theorem rename {src dst : Path} (h : Kept fs₀ fs accepted opened)
    (hr : fs.rename src dst = some fs') (hdst : fs.node dst = none) :
    Kept fs₀ fs' accepted (dst :: opened) := by
  obtain ⟨n, hsrc, rfl⟩ := Option.map_eq_some_iff.mp hr
  have hne : src ≠ dst := by
    rintro rfl
    rw [hdst] at hsrc
    cases hsrc
  have hnode (p : Path) : ((fs.removeAll src).set dst n).node p =
      if p = dst then fs.node src else if p = src then none else fs.node p := by
    rw [FileSystem.node_set, FileSystem.node_removeAll, hsrc]
  have hdat (p : Path) : ((fs.removeAll src).set dst n).database p =
      if p = dst then fs.database src else if p = src then none else fs.database p := by
    simp only [FileSystem.database, hnode]
    split_ifs <;> rfl
  have hnone (e : Bytes × Bytes) : ¬ Stored fs dst e := by
    simp [Stored, FileSystem.database, hdst]
  -- what was below the old name is below the new one
  have hst (p : Path) (e : Bytes × Bytes) : Stored ((fs.removeAll src).set dst n) p e ↔
      if p = dst then Stored fs src e else p ≠ src ∧ Stored fs p e := by
    simp only [Stored, hdat]
    split_ifs <;> simp_all
  refine ⟨?_, ?_, ?_, h.fresh, h.nonneg, ?_, ?_⟩
  · intro p db hp
    rw [hdat] at hp
    split_ifs at hp
    · exact h.records src db hp
    · exact h.records p db hp
  · intro p e hp
    rw [hst] at hp
    split_ifs at hp
    · exact h.origin src e hp
    · exact h.origin p e hp.2
  -- a record is where it was, or has moved with its directory
  · intro r hr
    obtain ⟨q, hq, huniq⟩ := h.stored r hr
    refine ⟨if q = src then dst else q, ?_, fun p hp => ?_⟩
    · simp only [hst]
      have hqd : q ≠ dst := fun he => hnone _ (he ▸ hq)
      split_ifs <;> simp_all
    · simp only [hst] at hp
      split_ifs at hp with hpd
      · rw [if_pos (huniq src hp).symm, hpd]
      · have hpq := huniq p hp.2
        rw [if_neg (by rw [← hpq]; exact hp.1), hpq]
  · intro p hp ho
    simp only [List.mem_cons, not_or] at ho
    rw [hnode, if_neg ho.1]
    split_ifs
    · exact Or.inl rfl
    · exact h.unfinished p hp ho.2
  · intro p m hp ho
    simp only [List.mem_cons, not_or] at ho
    rw [hnode, if_neg ho.1] at hp
    split_ifs at hp
    exact h.kept p m hp ho.2

theorem removeAll {p : Path} (h : Kept fs₀ fs accepted opened) (hp : ∀ e, ¬ Stored fs p e) :
    Kept fs₀ (fs.removeAll p) accepted opened := by
  have hst (q : Path) (e : Bytes × Bytes) : Stored (fs.removeAll p) q e ↔ Stored fs q e := by
    by_cases hq : q = p
    · simp only [hq, hp, iff_false]
      simp [Stored, FileSystem.database, FileSystem.node_removeAll]
    · simp [Stored, FileSystem.database, FileSystem.node_removeAll, hq]
  have hnode (q : Path) {n : Node} (hn : (fs.removeAll p).node q = some n) : fs.node q = some n := by
    rw [FileSystem.node_removeAll] at hn
    split_ifs at hn
    exact hn
  refine ⟨fun q db hq => ?_, by simpa only [hst] using h.origin, by simpa only [hst] using h.stored,
    h.fresh, h.nonneg, fun q hq ho => ?_, fun q n hn ho => h.kept q n (hnode q hn) ho⟩
  · simp only [FileSystem.database, FileSystem.node_removeAll] at hq
    split_ifs at hq
    exact h.records q db hq
  · rw [FileSystem.node_removeAll]
    split_ifs
    · exact Or.inl rfl
    · exact h.unfinished q hq ho

theorem openDatabase {path : Path} (h : Kept fs₀ fs accepted opened)
    (ho : fs.openDatabase path false = some fs') : Kept fs₀ fs' accepted (path :: opened) := by
  obtain ⟨-, -, hnode, hdb⟩ := FileSystem.openDatabase_some ho
  have hdat (p : Path) (hp : p ≠ path) : fs'.database p = fs.database p :=
    FileSystem.database_of_node (hnode p hp)
  -- a new database has no record, an old one keeps them
  have hst (p : Path) (e : Bytes × Bytes) : Stored fs' p e ↔ Stored fs p e := by
    by_cases hp : p = path
    · rcases hdb with ⟨db, hd, -, hn⟩ | ⟨hd, hd'⟩
      · rw [hp, Stored, Stored, FileSystem.database_of_node hn]
      · simp [hp, Stored, hd, hd']
    · rw [Stored, Stored, hdat p hp]
  refine ⟨fun p db hp => ?_, by simpa only [hst] using h.origin, by simpa only [hst] using h.stored,
    h.fresh, h.nonneg, fun p hp hm => ?_, fun p n hn hm => ?_⟩
  · by_cases hpp : p = path
    · rcases hdb with ⟨-, -, -, hn⟩ | ⟨-, hd'⟩
      · rw [hpp, FileSystem.database_of_node hn] at hp
        exact h.records path db hp
      · rw [hpp, hd'] at hp
        cases hp
        simp
    · rw [hdat p hpp] at hp
      exact h.records p db hp
  · simp only [List.mem_cons, not_or] at hm
    rw [hnode p hm.1]
    exact h.unfinished p hp hm.2
  · simp only [List.mem_cons, not_or] at hm
    rw [hnode p hm.1] at hn
    exact h.kept p n hn hm.2

/-- A put with a new key adds one record to the open directory and keeps all others. -/
theorem put {path : Path} {db : Database} {key : RecordFileKey} {value : Bytes}
    (h : Kept fs₀ fs accepted opened) (hdb : fs.database path = some db) (hleg : db.legacy = false)
    (hpath : path ∈ opened) (hkey : 0 ≤ key.timestampNs.toInt)
    (hnew : ∀ r ∈ accepted, r.1 ≠ key) (hfresh : KeyUnused fs₀ key) :
    Kept fs₀ (fs.put path key.toBytes value) (accepted ++ [(key, value)]) opened := by
  have hbytes : ∀ r ∈ accepted, r.1.toBytes ≠ key.toBytes := by
    intro r hr he
    have hd := RecordFileKey.fromBytes_toBytes (h.nonneg r hr)
    rw [he, RecordFileKey.fromBytes_toBytes hkey] at hd
    exact hnew r hr (Option.some.inj hd).symm
  -- no database has the key yet, whether from before or from an accepted write
  have hunused (p : Path) (v : Bytes) : ¬ Stored fs p (key.toBytes, v) := by
    intro hp
    rcases h.origin p _ hp with ⟨q, hq⟩ | ⟨r, hr, he⟩
    · exact hfresh.not_stored q v hq
    · exact hbytes r hr (congrArg Prod.fst he).symm
  have hst := @stored_put fs path db key.toBytes value hdb hleg fun v => hunused path v
  refine ⟨?_, ?_, ?_, ?_, ?_, fun p hp ho => ?_, fun p n hn ho => ?_⟩
  · intro p db' hp hl e he
    rw [FileSystem.database_put, hdb] at hp
    split_ifs at hp
    · cases hp
      rcases OrderedStore.mem_of_mem_put he with rfl | he
      · simp [RecordFileKey.fromBytes_toBytes hkey]
      · exact h.records path db hdb hleg e he
    · exact h.records p db' hp hl e he
  · intro p e hp
    rcases (hst p e).mp hp with ⟨-, rfl⟩ | hp
    · exact Or.inr ⟨(key, value), by simp, rfl⟩
    · rcases h.origin p e hp with hq | ⟨r, hr, he⟩
      · exact Or.inl hq
      · exact Or.inr ⟨r, by simp [hr], he⟩
  -- each record in one place: the old ones where they were, the new one here
  · intro r hr
    rcases List.mem_append.mp hr with hr | hr
    · obtain ⟨q, hq, huniq⟩ := h.stored r hr
      refine ⟨q, (hst q _).mpr (Or.inr hq), fun p hp => ?_⟩
      rcases (hst p _).mp hp with ⟨-, he⟩ | hp
      · exact absurd (congrArg Prod.fst he) (hbytes r hr)
      · exact huniq p hp
    · cases List.mem_singleton.mp hr
      refine ⟨path, (hst path _).mpr (Or.inl ⟨rfl, rfl⟩), fun p hp => ?_⟩
      rcases (hst p _).mp hp with ⟨hp, -⟩ | hp
      · exact hp
      · exact absurd hp (hunused p value)
  · intro r hr
    rcases List.mem_append.mp hr with hr | hr
    · exact h.fresh r hr
    · cases List.mem_singleton.mp hr
      exact hfresh
  · intro r hr
    rcases List.mem_append.mp hr with hr | hr
    · exact h.nonneg r hr
    · cases List.mem_singleton.mp hr
      exact hkey
  · rw [FileSystem.node_put_of_ne _ (ne_of_mem_of_not_mem hpath ho).symm]
    exact h.unfinished p hp ho
  · rw [FileSystem.node_put_of_ne _ (ne_of_mem_of_not_mem hpath ho).symm] at hn
    exact h.kept p n hn ho

/-- `CloseDB` gives the directory its final name, or removes it if it holds no record. -/
theorem closeDB {f : RecordFile} {db : Database}
    (h : Kept fs₀ fs accepted (f.filepath.unfinishedPath :: opened))
    (hplain : f.filepath.isUnfinished = false)
    (hf : f.db = some ⟨f.filepath.unfinishedPath, false⟩)
    (hdb : fs.database f.filepath.unfinishedPath = some db) (hleg : db.legacy = false)
    (hfin : fs.node f.filepath = none) : Kept fs₀ (f.closeDB fs true).1 accepted opened := by
  obtain ⟨d, hd, hddb⟩ : ∃ d, fs.node f.filepath.unfinishedPath = some (.dir d) ∧
      d.db = some db := by
    simp only [FileSystem.database] at hdb
    split at hdb
    case h_1 d hd => exact ⟨d, hd, hdb⟩
    case h_2 => cases hdb
  have hne := f.filepath.unfinishedPath_ne
  let committed := commitDB (fs.unlock f.filepath.unfinishedPath) f true
  have hcommit : committed = ((fs.unlock f.filepath.unfinishedPath).removeAll
      f.filepath.unfinishedPath).set f.filepath (.dir d) := by
    simp [committed, commitDB, FileSystem.pathExists, FileSystem.rename, hd, hfin]
  -- the commit is a rename
  have hrename : (fs.unlock f.filepath.unfinishedPath).rename f.filepath.unfinishedPath f.filepath =
      some committed := by
    rw [hcommit]
    simp [FileSystem.rename, hd]
  have hunlocked : Kept fs₀ (fs.unlock f.filepath.unfinishedPath) accepted
      (f.filepath.unfinishedPath :: opened) := h.congr fun _ => rfl
  have hk : Kept fs₀ committed accepted (f.filepath :: f.filepath.unfinishedPath :: opened) :=
    hunlocked.rename hrename hfin
  have hown : committed.node f.filepath.unfinishedPath = none := by
    rw [hcommit]
    simp [FileSystem.node_set, FileSystem.node_removeAll, hne]
  have hnew : committed.node f.filepath = some (.dir d) := by
    rw [hcommit]
    simp [FileSystem.node_set]
  -- then the database is removed if it is empty
  have hclosed : (f.closeDB fs true).1 =
      if f.empty fs ⟨f.filepath.unfinishedPath, false⟩ = true then committed.removeAll f.filepath
      else committed := by
    have hlevel : committed.isLevelDBDir f.filepath = true := by
      simp [FileSystem.isLevelDBDir, hnew, hddb]
    have hdir := isEmptyDir_isLevelDBDir committed f.filepath
    rw [hlevel, Bool.and_true] at hdir
    simp only [RecordFile.closeDB, hf, compact, ite_self]
    change removeIfEmpty committed f _ = _
    simp only [removeIfEmpty, hlevel, hdir, Bool.or_false, Bool.and_true]
  -- as all keys can be read, it counts as empty only without entries
  have hvalid : f.empty fs ⟨f.filepath.unfinishedPath, false⟩ = true ↔ db.entries = [] := by
    refine RecordFile.empty_iff hdb fun e he => ?_
    cases f.legacy with
    | true => rfl
    | false => exact h.records _ db hdb hleg e he
  rw [hclosed]
  by_cases hempty : db.entries = []
  · rw [if_pos (hvalid.mpr hempty)]
    have hnone : ∀ e, ¬ Stored committed f.filepath e := by
      rintro e ⟨db', hdb', he⟩
      simp only [FileSystem.database, hnew, hddb, Option.some.injEq] at hdb'
      rw [← hdb', hempty] at he
      cases he
    refine ((hk.removeAll hnone).close (Or.inl ?_)).close (Or.inl ?_)
    · simp [FileSystem.node_removeAll]
    · simp [FileSystem.node_removeAll, hown]
  · rw [if_neg fun hc => hempty (hvalid.mp hc)]
    obtain ⟨e, he⟩ := List.exists_mem_of_ne_nil _ hempty
    have hrec : HoldsRecord d := by
      refine ⟨db, hddb, e, he, ?_⟩
      rw [hleg]
      exact h.records _ db hdb hleg e he
    exact (hk.close (Or.inr ⟨hplain, d, hnew, hrec⟩)).close (Or.inl hown)

end Kept

/-- Opening the database succeeds unless it is open already. -/
def OpensUnlessLocked (fs : FileSystem) (path : Path) : Prop :=
  path.unfinishedPath ∈ fs.locks ∨ (fs.openDatabase path.unfinishedPath false).isSome = true

/-- A step in a world where file system operations succeed, and opens unless the database is open.
Writes come while the file is open, with new keys of non-negative timestamp. The rolling helper
names the current directory or one that does not exist, without the suffix `.saving`. -/
def Cooperative (fs₀ : FileSystem) (s : State) : Op → Prop
  | .openDB renames answers =>
    renames = true ∧ Willing answers ∧
      ∀ fs ∈ (s.file.checkoutDB s.fs renames).toOption, OpensUnlessLocked fs s.file.filepath
  | .closeDB renames => renames = true
  | .write key _ answers =>
    s.file.db ≠ none ∧ 0 ≤ key.timestampNs.toInt ∧ (∀ r ∈ s.accepted, r.1 ≠ key) ∧
      KeyUnused fs₀ key ∧
      (s.file.rollingHelper = true → answers.needToRoll = true →
        answers.renames = true ∧ Willing answers.opens ∧
          OpensUnlessLocked s.fs (s.file.newFilepath answers.newRecordDirName) ∧
          (s.file.newFilepath answers.newRecordDirName = s.file.filepath ∨
            s.fs.node (s.file.newFilepath answers.newRecordDirName) = none) ∧
          (s.file.newFilepath answers.newRecordDirName).isUnfinished = false)

instance (fs : FileSystem) (path : Path) : Decidable (OpensUnlessLocked fs path) :=
  inferInstanceAs (Decidable (_ ∨ _))

instance (fs : FileSystem) (key : RecordFileKey) : Decidable (KeyUnused fs key) :=
  inferInstanceAs (Decidable (∀ p ∈ fs.nodes.keys, ∀ db ∈ fs.database p, ∀ e ∈ db.entries,
    e.1 ≠ key.toBytes))

instance (fs₀ : FileSystem) (s : State) : (op : Op) → Decidable (Cooperative fs₀ s op)
  | .openDB .. => inferInstanceAs (Decidable (_ ∧ _ ∧ ∀ fs ∈ Except.toOption _, _))
  | .closeDB _ => inferInstanceAs (Decidable (_ = _))
  | .write .. => inferInstanceAs (Decidable (_ ∧ _ ∧ _ ∧ _ ∧ (_ → _ → _)))

def openPaths (f : RecordFile) : List Path :=
  (f.db.map DbHandle.path).toList

/-- The state of the file during a cooperative run. -/
structure Sound (fs₀ : FileSystem) (s : State) : Prop where
  plain : s.file.filepath.isUnfinished = false
  locks : ∀ p ∈ s.fs.locks, p ∈ openPaths s.file
  keeps : Kept fs₀ s.fs s.accepted (openPaths s.file)
  handle : ∀ h, s.file.db = some h → h = ⟨s.file.filepath.unfinishedPath, false⟩ ∧
    h.path ∈ s.fs.locks ∧ s.fs.node s.file.filepath = none ∧
    ∃ db, s.fs.database h.path = some db ∧ db.legacy = false

/-- The same beside paths that nobody has in hand, such as those an earlier process left open. -/
structure SoundBeside (fs₀ : FileSystem) (spared : List Path) (s : State) : Prop where
  plain : s.file.filepath.isUnfinished = false
  locks : ∀ p ∈ s.fs.locks, p ∈ openPaths s.file
  keeps : Kept fs₀ s.fs s.accepted (openPaths s.file ++ spared)
  handle : ∀ h, s.file.db = some h → h = ⟨s.file.filepath.unfinishedPath, false⟩ ∧
    h.path ∈ s.fs.locks ∧ s.fs.node s.file.filepath = none ∧
    ∃ db, s.fs.database h.path = some db ∧ db.legacy = false

theorem soundBeside_nil {fs₀ : FileSystem} {s : State} : SoundBeside fs₀ [] s ↔ Sound fs₀ s := by
  constructor
  · intro h
    exact ⟨h.plain, h.locks, by simpa using h.keeps, h.handle⟩
  · intro h
    exact ⟨h.plain, h.locks, by simpa using h.keeps, h.handle⟩

section Steps
variable {fs₀ fs fs' : FileSystem} {f : RecordFile} {s : State} {spared : List Path}

theorem openDBAt_locked {path : Path} {answers : OpenAnswers} (hw : Willing answers)
    (hl : path.unfinishedPath ∈ fs.locks) :
    f.openDBAt fs path answers = (none, fs, { f with legacy := true }) := by
  simp [openDBAt, hw.1, hw.2.1, hw.2.2, FileSystem.tryOpen, FileSystem.openDatabase, hl]

/-- `CheckoutDB` leaves nothing under the final name. -/
theorem Kept.checkoutDB {accepted : List (RecordFileKey × Bytes)} {opened : List Path}
    (h : Kept fs₀ fs accepted opened) (hc : f.checkoutDB fs true = .ok fs') :
    Kept fs₀ fs' accepted (f.filepath.unfinishedPath :: opened) ∧ fs'.node f.filepath = none ∧
      fs'.locks = fs.locks := by
  unfold RecordFile.checkoutDB at hc
  split at hc
  case isTrue hn =>
    cases hc
    refine ⟨h.mono fun p hp => List.mem_cons_of_mem _ hp, ?_, rfl⟩
    simpa [FileSystem.pathExists] using hn
  case isFalse =>
    split at hc
    case isTrue => cases hc
    case isFalse hown =>
      have hown : fs.node f.filepath.unfinishedPath = none := by
        simpa [FileSystem.pathExists] using hown
      split at hc
      case h_1 g hr =>
        cases hc
        have hk := h.rename hr hown
        obtain ⟨n, hn, hg⟩ := Option.map_eq_some_iff.mp hr
        refine ⟨hk, ?_, ?_⟩
        · rw [← hg, FileSystem.node_set, FileSystem.node_removeAll,
            if_neg f.filepath.unfinishedPath_ne.symm, if_pos rfl]
        · rw [← hg]
          rfl
      case h_2 => cases hc

theorem sound_openDB {renames : Bool} {answers : OpenAnswers} (h : SoundBeside fs₀ spared s)
    (hc : Cooperative fs₀ s (.openDB renames answers)) :
    SoundBeside fs₀ spared { s with
      fs := (s.file.openDB s.fs renames answers).2.1
      file := (s.file.openDB s.fs renames answers).2.2 } := by
  obtain ⟨rfl, hw, hopens⟩ := hc
  by_cases hcond : (s.file.db.isSome || s.file.filepath.isEmpty) = true
  · simp only [openDB, hcond, if_true]
    exact h
  have hdb : s.file.db = none := by
    simp only [Bool.or_eq_true, not_or] at hcond
    simpa using hcond.1
  have hpaths : openPaths s.file = [] := by simp [openPaths, hdb]
  cases hco : s.file.checkoutDB s.fs true with
  | error e =>
    simp only [openDB, hcond, hco]
    exact h
  | ok fs =>
    obtain ⟨hk, hfin, hlocks⟩ := Kept.checkoutDB (hpaths ▸ h.keeps) hco
    -- nothing is open, so nothing is locked
    have hfree : s.file.filepath.unfinishedPath ∉ fs.locks := by
      intro hm
      rw [hlocks] at hm
      have hp := h.locks _ hm
      rw [hpaths] at hp
      cases hp
    obtain ⟨fs', ho⟩ := Option.isSome_iff_exists.mp ((hopens fs (by rw [hco]; rfl)).resolve_left hfree)
    obtain ⟨-, hlocks', hnode, -⟩ := FileSystem.openDatabase_some ho
    have hk' : Kept fs₀ fs' s.accepted (s.file.filepath.unfinishedPath :: spared) :=
      (hk.openDatabase ho).mono (by simp)
    have hnone : s.fs.locks = [] := by
      refine List.eq_nil_iff_forall_not_mem.mpr fun p hp => ?_
      have := h.locks p hp
      rw [hpaths] at this
      cases this
    simp only [openDB, hcond, hco, openDBAt_willing hw ho]
    refine ⟨h.plain, ?_, hk'.congr (makeLink_node _), ?_⟩
    · simp [makeLink_locks, hlocks', hlocks, hnone, openPaths]
    -- the handle
    · rintro _ ⟨⟩
      refine ⟨rfl, by simp [makeLink_locks, hlocks'], ?_, ?_⟩
      · change (makeLink _ _ _).node s.file.filepath = none
        rw [makeLink_node, hnode _ s.file.filepath.unfinishedPath_ne.symm]
        exact hfin
      · obtain ⟨db, hd, hleg⟩ := FileSystem.database_of_openDatabase ho
        exact ⟨db, (FileSystem.database_of_node (makeLink_node _ _)).trans hd, hleg⟩

theorem sound_closeDB (h : SoundBeside fs₀ spared s) : SoundBeside fs₀ spared { s with
    fs := (s.file.closeDB s.fs true).1
    file := (s.file.closeDB s.fs true).2 } := by
  cases hdb : s.file.db with
  | none =>
    simp only [closeDB, hdb]
    exact h
  | some hd =>
    obtain ⟨hpath, hlock, hfin, db, hdat, hleg⟩ := h.handle hd hdb
    have hk : Kept fs₀ (s.file.closeDB s.fs true).1 s.accepted spared := by
      refine Kept.closeDB ?_ h.plain (hdb.trans (congrArg some hpath)) ?_ hleg hfin
      · have := h.keeps
        simpa [openPaths, hdb, hpath] using this
      · simpa [hpath] using hdat
    rw [closeDB_file]
    refine ⟨h.plain, fun p hp => ?_, hk, by simp⟩
    simp only [closeDB_locks hdb, List.mem_filter, decide_eq_true_eq] at hp
    have hmem := h.locks p hp.1
    simp only [openPaths, hdb, Option.map_some, Option.toList_some, List.mem_singleton] at hmem
    exact absurd hmem hp.2

/-- A roll to the directory in use finds it locked and leaves everything but `legacy_`. -/
theorem sound_legacy {legacy : Bool} (h : SoundBeside fs₀ spared s) :
    SoundBeside fs₀ spared { s with file := { s.file with legacy := legacy } } :=
  ⟨h.plain, h.locks, h.keeps, h.handle⟩

/-- When another database is opened the present one stays as it is. -/
theorem both_open {new : Path} {hd : DbHandle} (h : SoundBeside fs₀ spared s)
    (hdb : s.file.db = some hd) (ho : s.fs.openDatabase new.unfinishedPath false = some fs') :
    Kept fs₀ fs' s.accepted (s.file.filepath.unfinishedPath :: new.unfinishedPath :: spared) ∧
      fs'.node s.file.filepath = none ∧
      ∃ db, fs'.database s.file.filepath.unfinishedPath = some db ∧ db.legacy = false := by
  obtain ⟨rfl, hlock, hfin, db, hdat, hleg⟩ := h.handle hd hdb
  obtain ⟨hfree, -, hnode, -⟩ := FileSystem.openDatabase_some ho
  have hne : s.file.filepath.unfinishedPath ≠ new.unfinishedPath := fun he => hfree (he ▸ hlock)
  refine ⟨?_, ?_, db, (FileSystem.database_of_node (hnode _ hne)).trans hdat, hleg⟩
  · have hk := h.keeps.openDatabase ho
    rw [openPaths, hdb] at hk
    refine hk.mono fun p hp => ?_
    simp only [Option.map_some, Option.toList_some, List.cons_append, List.nil_append,
      List.mem_cons] at hp ⊢
    tauto
  · rw [hnode _ ?_, hfin]
    intro he
    have hplain := h.plain
    rw [he] at hplain
    simp at hplain

theorem sound_roll {answers : WriteAnswers} (h : SoundBeside fs₀ spared s)
    (hopen : s.file.db ≠ none) (hren : answers.renames = true) (hw : Willing answers.opens)
    (ho : OpensUnlessLocked s.fs (s.file.newFilepath answers.newRecordDirName))
    (hname : s.file.newFilepath answers.newRecordDirName = s.file.filepath ∨
      s.fs.node (s.file.newFilepath answers.newRecordDirName) = none)
    (hplain : (s.file.newFilepath answers.newRecordDirName).isUnfinished = false) :
    SoundBeside fs₀ spared { s with fs := (s.file.roll s.fs answers).2.1
                                    file := (s.file.roll s.fs answers).2.2 } ∧
      (s.file.roll s.fs answers).2.2.db ≠ none := by
  obtain ⟨hd, hdb⟩ := Option.ne_none_iff_exists'.mp hopen
  obtain ⟨rfl, hlock, -⟩ := h.handle hd hdb
  set current := s.file.filepath with hcurrent
  set new := s.file.newFilepath answers.newRecordDirName with hnew
  -- a roll to the directory in use finds it locked and leaves everything but `legacy_`
  by_cases hl : new.unfinishedPath ∈ s.fs.locks
  · simp only [roll, ← hnew, openDBAt_locked hw hl]
    exact ⟨sound_legacy h, hopen⟩
  obtain ⟨fs', ho'⟩ := Option.isSome_iff_exists.mp (ho.resolve_left hl)
  have hne : new.unfinishedPath ≠ current.unfinishedPath := fun he => hl (he ▸ hlock)
  have hnc : new ≠ current := fun he => hne (he ▸ rfl)
  have hfree := hname.resolve_left hnc
  have hplainOf {p q : Path} (hp : p.isUnfinished = false) : p ≠ q.unfinishedPath := by
    rintro rfl
    simp at hp
  obtain ⟨-, hlocks', hnode, -⟩ := FileSystem.openDatabase_some ho'
  -- for a moment both databases are open
  obtain ⟨hboth, hfin', db, hdat', hleg⟩ := both_open h hdb ho'
  have hk : Kept fs₀ (s.file.closeDB fs' true).1 s.accepted (new.unfinishedPath :: spared) :=
    hboth.closeDB h.plain hdb hdat' hleg hfin'
  simp only [roll, ← hnew, openDBAt_willing hw ho', hren, closeDB_file]
  refine ⟨⟨hplain, fun p hp => ?_, hk, ?_⟩, by simp⟩
  · simp only [closeDB_locks hdb, hlocks', List.mem_filter, List.mem_cons,
      decide_eq_true_eq] at hp
    rcases hp with ⟨rfl | hp, hp'⟩
    · simp [openPaths]
    · have hmem := h.locks p hp
      simp only [openPaths, hdb, Option.map_some, Option.toList_some, List.mem_singleton] at hmem
      exact absurd hmem hp'
  · rintro _ ⟨⟩
    refine ⟨rfl, ?_, ?_, ?_⟩
    · simp [closeDB_locks hdb, hlocks', hne]
    · change (s.file.closeDB fs' true).1.node new = none
      rw [closeDB_node_frame hdb true hnc (hplainOf hplain), hnode _ (hplainOf hplain)]
      exact hfree
    · obtain ⟨db', hd', hleg'⟩ := FileSystem.database_of_openDatabase ho'
      refine ⟨db', (FileSystem.database_of_node ?_).trans hd', hleg'⟩
      exact closeDB_node_frame hdb true (hplainOf h.plain).symm hne

theorem sound_put {key : RecordFileKey} {value : Bytes} {hd : DbHandle} (h : SoundBeside fs₀ spared s)
    (hdb : s.file.db = some hd) (hkey : 0 ≤ key.timestampNs.toInt)
    (hnew : ∀ r ∈ s.accepted, r.1 ≠ key) (hfresh : KeyUnused fs₀ key) :
    SoundBeside fs₀ spared { s with fs := s.fs.put hd.path key.toBytes value
                                    accepted := s.accepted ++ [(key, value)] } := by
  obtain ⟨rfl, hlock, hfin, db, hdat, hleg⟩ := h.handle hd hdb
  have hk : Kept fs₀ (s.fs.put s.file.filepath.unfinishedPath key.toBytes value)
      (s.accepted ++ [(key, value)]) (openPaths s.file ++ spared) :=
    h.keeps.put hdat hleg (by simp [openPaths, hdb]) hkey hnew hfresh
  refine ⟨h.plain, by simpa using h.locks, hk, fun hd' hh => ?_⟩
  cases hdb.symm.trans hh
  refine ⟨rfl, by simpa using hlock, ?_, db.put key.toBytes value, ?_, hleg⟩
  · rw [FileSystem.node_put_of_ne _ s.file.filepath.unfinishedPath_ne.symm]
    exact hfin
  · rw [FileSystem.database_put, if_pos rfl, hdat]
    rfl

theorem sound_write {t : State} {key : RecordFileKey} {value : Bytes} {answers : WriteAnswers}
    (h : SoundBeside fs₀ spared s) (hc : Cooperative fs₀ s (.write key value answers))
    (hst : system.step s (.write key value answers) = some t) : SoundBeside fs₀ spared t := by
  obtain ⟨hopen, hkey, hnew, hfresh, hroll⟩ := hc
  obtain ⟨result, hw, rfl⟩ := Option.map_eq_some_iff.mp hst
  set rolled := if s.file.rollingHelper && answers.needToRoll then (s.file.roll s.fs answers).2
    else (s.fs, s.file) with hrolled
  have hs : SoundBeside fs₀ spared { s with fs := rolled.1, file := rolled.2 } := by
    rw [hrolled]
    split
    case isTrue hr =>
      obtain ⟨hhelper, hneed⟩ := Bool.and_eq_true_iff.mp hr
      obtain ⟨hren, hwill, ho, hname, hplain⟩ := hroll hhelper hneed
      exact (sound_roll h hopen hren hwill ho hname hplain).1
    case isFalse => exact h
  simp only [write, ← hrolled] at hw
  split at hw
  case h_1 => cases hw
  case h_2 hd hdb =>
    cases hw
    cases answers.put with
    | true => exact sound_put hs hdb hkey hnew hfresh
    | false => exact hs

theorem soundBeside_step {t : State} {op : Op} (h : SoundBeside fs₀ spared s)
    (hc : Cooperative fs₀ s op) (hst : system.step s op = some t) : SoundBeside fs₀ spared t := by
  cases op with
  | openDB renames answers =>
    cases hst
    exact sound_openDB h hc
  | closeDB renames =>
    obtain rfl : renames = true := hc
    cases hst
    exact sound_closeDB h
  | write => exact sound_write h hc hst

theorem sound_step {t : State} {op : Op} (h : Sound fs₀ s) (hc : Cooperative fs₀ s op)
    (hst : system.step s op = some t) : Sound fs₀ t :=
  soundBeside_nil.mp (soundBeside_step (soundBeside_nil.mpr h) hc hst)

/-- Before the first step the record file has nothing open and accepted nothing. -/
theorem sound_init (hs : system.init s) (hlocks : s.fs.locks = []) (hrec : RecordsOnly s.fs)
    (hplain : s.file.filepath.isUnfinished = false) : Sound s.fs s := by
  obtain ⟨hdb, -, hacc⟩ := hs
  refine ⟨hplain, by simp [hlocks], ⟨hrec, fun p e he => Or.inl ⟨p, he⟩, ?_, ?_, ?_,
    fun p _ _ => Or.inr rfl, fun p n hn _ => Or.inl hn⟩, by simp [hdb]⟩
  all_goals simp [hacc]

end Steps

/-- Whenever the file is closed, every accepted record is in exactly one directory, and that one is
committed; no `.saving` directory is left, and what the run left under other names holds a record.
What was on the disk before is left as it was, unless the run took it away. -/
theorem commit_protocol_keeps_records {s t : State} {ops : List Op} (hs : system.init s)
    (hlocks : s.fs.locks = []) (hrec : RecordsOnly s.fs)
    (hplain : s.file.filepath.isUnfinished = false)
    (hco : system.StepsMeet (Cooperative s.fs) s ops) (hrun : system.exec s ops = some t)
    (hclosed : t.file.db = none) :
    (∀ r ∈ t.accepted, ∃ p, Stored t.fs p (recordBytes r) ∧ p.isUnfinished = false ∧
      ∀ q, Stored t.fs q (recordBytes r) → q = p) ∧
    (∀ p, p.isUnfinished = true → t.fs.node p = none ∨ t.fs.node p = s.fs.node p) ∧
    (∀ p n, t.fs.node p = some n → s.fs.node p = some n ∨ ∃ d, n = .dir d ∧ HoldsRecord d) := by
  have hsound : Sound s.fs t :=
    hco.invariant (sound_init hs hlocks hrec hplain) (fun _ _ _ h hc hst => sound_step h hc hst)
      hrun
  have hk : Kept s.fs t.fs t.accepted [] := by simpa [openPaths, hclosed] using hsound.keeps
  refine ⟨fun r hr => ?_, fun p hp => hk.unfinished p hp (by simp),
    fun p n hn => hk.kept p n hn (by simp)⟩
  obtain ⟨p, hp, huniq⟩ := hk.stored r hr
  refine ⟨p, hp, ?_, huniq⟩
  by_contra hunf
  obtain ⟨db, hdb, he⟩ := hp
  rcases hk.unfinished p (by simpa using hunf) (by simp) with hn | hn
  · simp [FileSystem.database, hn] at hdb
  · rw [FileSystem.database_of_node hn] at hdb
    exact (hk.fresh r hr).not_stored p r.2 ⟨db, hdb, he⟩

/-- The record file rolls under load, fails to roll to the directory in use, is closed and opened
again. -/
def reopenRun : List Op :=
  [.openDB true proceeding, .write ⟨1, 0⟩ [65] noRoll, .write ⟨1, 8⟩ [66] (rollTo "b.ldb.d"),
    .write ⟨2, 0⟩ [67] (rollTo "b.ldb.d"), .closeDB true, .openDB true proceeding,
    .write ⟨3, 0⟩ [68] { noRoll with put := false }, .closeDB true]

theorem commit_protocol_keeps_records_reopenRun :
    let t := system.after (unopenedFile "a.ldb.d") reopenRun
    (∀ r ∈ t.accepted, ∃ p, Stored t.fs p (recordBytes r) ∧ p.isUnfinished = false ∧
      ∀ q, Stored t.fs q (recordBytes r) → q = p) ∧
    (∀ p, p.isUnfinished = true → t.fs.node p = none ∨
      t.fs.node p = (unopenedFile "a.ldb.d").fs.node p) ∧
    (∀ p n, t.fs.node p = some n → (unopenedFile "a.ldb.d").fs.node p = some n ∨
      ∃ d, n = .dir d ∧ HoldsRecord d) :=
  commit_protocol_keeps_records (init_unopenedFile _) rfl (by rintro p db ⟨⟩) (by decide) (by decide)
    (system.exec_after (by decide)) (by decide)

/-- A record file whose own name ends in `.saving` keeps that name when it is closed. -/
theorem saving_directory_left : ∃ t,
    system.exec (unopenedFile "x.saving") [.openDB true proceeding, .write ⟨1, 0⟩ [65] noRoll,
      .closeDB true] = some t ∧ t.file.db = none ∧
    ∃ p, p.isUnfinished = true ∧ t.fs.pathExists p = true := by
  refine ⟨_, system.exec_after (by decide), by decide, ⟨["records"], "x.saving"⟩, by decide,
    by decide⟩

end CrisCore.RecordSession
