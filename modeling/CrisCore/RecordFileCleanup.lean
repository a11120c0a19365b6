import CrisCore.RecordFile

/-! What `CloseDB` removes. -/
namespace CrisCore.RecordSession
open RecordFile RecordFileIterator

/-- An entry of its database reads as a record, in the format the database was made with. -/
def HoldsRecord (d : Dir) : Prop :=
  ∃ db, d.db = some db ∧ ∃ e ∈ db.entries, (tryReadCurrentKey db.legacy e.1).isSome = true

/-- The open handle belongs to the directory at the unfinished path, and `legacy_` is set if the
database there is a legacy one. -/
structure HandleOk (fs : FileSystem) (f : RecordFile) (h : DbHandle) : Prop where
  path : h.path = f.filepath.unfinishedPath
  locked : h.path ∈ fs.locks
  legacy : h.legacy = true → f.legacy = true
  database : ∀ db, fs.database h.path = some db → db.legacy = h.legacy

def OpenOk (fs : FileSystem) (f : RecordFile) : Prop :=
  ∀ h, f.db = some h → HandleOk fs f h

/-- What `CloseDB` does to directories: each one stays, but for that of the database being closed,
which is renamed or, if it holds no record, removed. -/
def ClosesHarmlessly (fs : FileSystem) (f : RecordFile) (renames : Bool) : Prop :=
  ∀ h, f.db = some h → ∀ p d, fs.node p = some (.dir d) →
    (f.closeDB fs renames).1.node p = some (.dir d) ∨
      (p = h.path ∧
        ((f.closeDB fs renames).1.node f.filepath = some (.dir d) ∨ ¬ HoldsRecord d))

/-- The database to be closed is not empty, or no database is under its final name. -/
def FinalNameFree (fs : FileSystem) (f : RecordFile) : Prop :=
  ∀ h, f.db = some h → ¬ (f.empty fs h = true ∧ fs.isLevelDBDir f.filepath = true)

/-- The call of `CloseDB` inside a step, if any. -/
def closing (s : State) : Op → Option (FileSystem × RecordFile × Bool)
  | .openDB _ _ => none
  | .closeDB renames => some (s.fs, s.file, renames)
  | .write _ _ answers =>
    if s.file.rollingHelper && answers.needToRoll then
      match s.file.openDBAt s.fs (s.file.newFilepath answers.newRecordDirName) answers.opens with
      | (none, _, _) => none
      | (some _, fs, f) => some (fs, f, answers.renames)
    else none

/-- The call of `CloseDB` in a step, if any, is harmless. -/
def CleansHarmlessly (s : State) (op : Op) : Prop :=
  ∀ fs f renames, closing s op = some (fs, f, renames) → ClosesHarmlessly fs f renames

/-- No step closes an empty database while another database has its final name. -/
def ClosesUnderFreeName (s : State) (op : Op) : Prop :=
  ∀ fs f renames, closing s op = some (fs, f, renames) → FinalNameFree fs f

variable {fs fs' : FileSystem} {f f' : RecordFile} {h : DbHandle} {renames : Bool}

theorem not_holdsRecord_of_empty (ho : HandleOk fs f h) (he : f.empty fs h = true) {d : Dir}
    (hd : fs.node h.path = some (.dir d)) : ¬ HoldsRecord d := by
  rintro ⟨db, hdb, e, hmem, hkey⟩
  have hat : fs.database h.path = some db := by simp [FileSystem.database, hd, hdb]
  have hleg : db.legacy = h.legacy := ho.database db hat
  have hvalid : (f.iterate fs h).valid = true := by
    rw [iterate, start, readNextValidKey_valid]
    refine ⟨e, by simpa [entries, hat] using hmem, ?_⟩
    cases hf : f.legacy with
    | true => rfl
    | false =>
      have hh : h.legacy = false := by
        cases hc : h.legacy with
        | false => rfl
        | true => exact absurd (ho.legacy hc) (by simp [hf])
      rwa [hleg, hh] at hkey
  rw [empty, hvalid] at he
  cases he

theorem isLevelDBDir_commitDB (p : Path) (hex : fs.pathExists f.filepath = true) :
    (commitDB (fs.unlock p) f renames).isLevelDBDir f.filepath = fs.isLevelDBDir f.filepath := by
  have hc : commits (fs.unlock p) f renames = false := by
    simp only [commits, FileSystem.pathExists, FileSystem.node_unlock] at hex ⊢
    simp [hex]
  simp only [FileSystem.isLevelDBDir, node_commitDB, hc, FileSystem.node_unlock]
  rfl

/-- `CloseDB` is harmless exactly when it does not close an empty database while another database
has its final name. -/
theorem closesHarmlessly_iff (ho : OpenOk fs f) :
    ClosesHarmlessly fs f renames ↔ FinalNameFree fs f := by
  constructor
  · rintro hc h hdb ⟨hempty, hlevel⟩
    have hok := ho h hdb
    obtain ⟨d, hd⟩ : ∃ d, fs.node f.filepath = some (.dir d) := by
      simp only [FileSystem.isLevelDBDir] at hlevel
      split at hlevel
      case h_1 d hd => exact ⟨d, hd⟩
      case h_2 => cases hlevel
    have hex : fs.pathExists f.filepath = true := by simp [FileSystem.pathExists, hd]
    have hgone : (f.closeDB fs renames).1.node f.filepath = none := by
      rw [closeDB_node hdb, isLevelDBDir_commitDB _ hex, if_pos ⟨hempty, hlevel, rfl⟩]
    -- the database with the final name is gone, so it was the one that was closed
    rcases hc h hdb f.filepath d hd with hs | ⟨hp, -⟩
    · rw [hgone] at hs
      cases hs
    · rw [hok.path] at hp
      exact f.filepath.unfinishedPath_ne hp.symm
  · intro hfree h hdb p d hd
    have hok := ho h hdb
    cases hex : fs.pathExists f.filepath with
    | true =>
      -- the commit does nothing, and the final name is removed only if it is free
      have hc : commits (fs.unlock h.path) f renames = false := by
        simp only [commits, FileSystem.pathExists, FileSystem.node_unlock] at hex ⊢
        simp [hex]
      left
      rw [closeDB_node hdb, isLevelDBDir_commitDB _ hex, node_commitDB, hc]
      rw [if_neg fun hrm => hfree h hdb ⟨hrm.1, hrm.2.1⟩]
      exact hd
    | false =>
      have hpf : p ≠ f.filepath := by
        rintro rfl
        simp [FileSystem.pathExists, hd] at hex
      have hstay : (f.closeDB fs renames).1.node p =
          (commitDB (fs.unlock h.path) f renames).node p := by
        rw [closeDB_node hdb, if_neg fun hrm => hpf hrm.2.2]
      by_cases hp : p = h.path
      -- the closed database itself was empty, was moved, or stays
      · by_cases hempty : f.empty fs h = true
        · exact Or.inr ⟨hp, Or.inr (not_holdsRecord_of_empty hok hempty (hp ▸ hd))⟩
        · have hmv : (f.closeDB fs renames).1.node f.filepath =
              (commitDB (fs.unlock h.path) f renames).node f.filepath := by
            rw [closeDB_node hdb, if_neg fun hrm => hempty hrm.1]
          cases hc : commits (fs.unlock h.path) f renames with
          | true =>
            refine Or.inr ⟨hp, Or.inl ?_⟩
            rw [hmv, node_commitDB, hc, if_pos rfl, if_pos rfl, ← hok.path, ← hp]
            exact hd
          | false =>
            left
            rw [hstay, node_commitDB, hc]
            exact hd
      -- any other path keeps what it had
      · left
        rw [hok.path] at hp
        rw [hstay, node_commitDB]
        simpa [hpf, hp] using hd

/-- What was there besides the closed database stays or is removed, but is not replaced. -/
theorem closeDB_node_of_ne (renames : Bool) (ho : HandleOk fs f h) (hdb : f.db = some h) {p : Path}
    (hp : p ≠ h.path) (hex : (fs.node p).isSome = true) :
    (f.closeDB fs renames).1.node p = none ∨ (f.closeDB fs renames).1.node p = fs.node p := by
  rw [closeDB_node hdb, node_commitDB]
  split
  · exact Or.inl rfl
  · right
    have hown : p ≠ f.filepath.unfinishedPath := ho.path ▸ hp
    split
    case isTrue hc =>
      have hfin : p ≠ f.filepath := by
        rintro rfl
        simp [commits, FileSystem.pathExists, hex] at hc
      simp [hfin]
    case isFalse => rfl

theorem handleOk_of_openDBAt {path : Path} {answers : OpenAnswers}
    (ho : openDBAt fs f path answers = (some h, fs', f')) :
    HandleOk fs' { f' with filepath := path, db := some h } h := by
  obtain ⟨hpath, -, hlocks, -, hlegacy, -, hdb⟩ := openDBAt_some ho
  refine ⟨hpath, by simp [hlocks], hlegacy, fun db hd => ?_⟩
  rcases hdb with ⟨db', hdb', hleg, hnode⟩ | ⟨-, hnew⟩
  · rw [FileSystem.database_of_node hnode, hdb'] at hd
    exact Option.some.inj hd ▸ hleg
  · rw [hnew] at hd
    exact Option.some.inj hd ▸ rfl

/-- Opening another database, or failing to, does not disturb the open one. -/
theorem openOk_of_openDBAt (hopen : OpenOk fs f) {path : Path} {answers : OpenAnswers}
    {result : Option DbHandle} (ho : openDBAt fs f path answers = (result, fs', f')) :
    OpenOk fs' f' := by
  intro h hdb
  cases result with
  | none =>
    obtain ⟨hf, hlocks, hdata, -⟩ := openDBAt_none ho
    obtain ⟨h1, h2, h3, h4⟩ := hopen h (by rcases hf with rfl | rfl <;> exact hdb)
    refine ⟨?_, by rw [hlocks]; exact h2, ?_, by simpa only [hdata] using h4⟩
    · rcases hf with rfl | rfl <;> exact h1
    · rcases hf with rfl | rfl
      · exact h3
      · exact fun _ => rfl
  | some new =>
    obtain ⟨-, hfree, hlocks, hf, -, hnode, -⟩ := openDBAt_some ho
    obtain ⟨h1, h2, h3, h4⟩ := hopen h (by rcases hf with rfl | rfl <;> exact hdb)
    have hne : h.path ≠ new.path := fun he => hfree (he ▸ h2)
    refine ⟨?_, by simp [hlocks, h2], ?_, ?_⟩
    · rcases hf with rfl | rfl <;> exact h1
    · rcases hf with rfl | rfl
      · exact h3
      · exact fun _ => rfl
    · simpa only [FileSystem.database_of_node (hnode _ hne)] using h4

theorem handleOk_closeDB (renames : Bool) {g : RecordFile} {new : DbHandle} (hopen : OpenOk fs f)
    (hnew : HandleOk fs g new) (hne : ∀ h, f.db = some h → new.path ≠ h.path)
    (hex : (fs.node new.path).isSome = true) : HandleOk (f.closeDB fs renames).1 g new := by
  cases hdb : f.db with
  | none =>
    have hsame : (f.closeDB fs renames).1 = fs := by simp only [closeDB, hdb]
    rw [hsame]
    exact hnew
  | some h =>
    refine ⟨hnew.path, ?_, hnew.legacy, fun db hd => ?_⟩
    · rw [closeDB_locks hdb]
      exact List.mem_filter.mpr ⟨hnew.locked, by simpa using hne h hdb⟩
    · apply hnew.database db
      rcases closeDB_node_of_ne renames (hopen h hdb) hdb (hne h hdb) hex with hn | hn
      · simp [FileSystem.database, hn] at hd
      · rwa [FileSystem.database_of_node hn] at hd

theorem openOk_roll (hopen : OpenOk fs f) (answers : WriteAnswers) :
    OpenOk (f.roll fs answers).2.1 (f.roll fs answers).2.2 := by
  simp only [roll]
  rcases ho : f.openDBAt fs (f.newFilepath answers.newRecordDirName) answers.opens with
    ⟨result, fs', f'⟩
  have hopen' : OpenOk fs' f' := openOk_of_openDBAt hopen ho
  cases result with
  | none => exact hopen'
  | some new =>
    intro h hdb
    cases hdb
    obtain ⟨-, hfree, -, hf, -, -, hdata⟩ := openDBAt_some ho
    have hpath : f'.newFilepath answers.newRecordDirName =
        f.newFilepath answers.newRecordDirName := by
      rcases hf with rfl | rfl <;> rfl
    have hdb' : f'.db = f.db := by rcases hf with rfl | rfl <;> rfl
    have hnew := handleOk_of_openDBAt ho
    have hex : (fs'.node new.path).isSome = true := by
      rcases hdata with ⟨db, hd, -, hn⟩ | ⟨-, hd⟩
      · rw [hn]
        exact FileSystem.node_isSome_of_database hd
      · exact FileSystem.node_isSome_of_database hd
    -- closing the old database leaves the new one as the open found it
    have hcl := handleOk_closeDB answers.renames hopen' hnew
      (fun h hdb he => hfree (he ▸ (hopen h (hdb' ▸ hdb)).locked)) hex
    refine ⟨?_, hcl.locked, ?_, hcl.database⟩
    · rw [hcl.path]
      exact congrArg Path.unfinishedPath hpath.symm
    · simpa [closeDB_file] using hcl.legacy

theorem handleOk_put (hok : HandleOk fs f h) (key value : Bytes) :
    HandleOk (fs.put h.path key value) f h := by
  refine ⟨hok.path, by simpa using hok.locked, hok.legacy, fun db hd => ?_⟩
  rw [FileSystem.database_put, if_pos rfl, Option.map_eq_some_iff] at hd
  obtain ⟨db', hd', rfl⟩ := hd
  exact hok.database db' hd'

theorem openOk_step {s t : State} {op : Op} (hopen : OpenOk s.fs s.file)
    (hst : system.step s op = some t) : OpenOk t.fs t.file := by
  cases op with
  | openDB renames answers =>
    cases hst
    simp only [openDB]
    split
    case isTrue => exact hopen
    case isFalse hc =>
      cases hco : s.file.checkoutDB s.fs renames with
      | error e => exact hopen
      | ok fs =>
        have hdb : s.file.db = none := by
          simp only [Bool.or_eq_true, not_or] at hc
          simpa using hc.1
        have hopen' : OpenOk fs s.file := fun h hh => by simp [hdb] at hh
        -- `OpenDB(path)` may have set `legacy_` even when it failed
        rcases ho : s.file.openDBAt fs s.file.filepath answers with ⟨result, fs', f'⟩
        simp only [ho]
        cases result with
        | none => exact openOk_of_openDBAt hopen' ho
        | some new =>
          intro h hh
          cases hh
          have hok := handleOk_of_openDBAt ho
          obtain ⟨-, -, -, hf, -⟩ := openDBAt_some ho
          refine ⟨?_, by rw [makeLink_locks]; exact hok.locked, hok.legacy, ?_⟩
          · rcases hf with rfl | rfl <;> exact hok.path
          · intro db hd
            rw [FileSystem.database_of_node (makeLink_node _ _)] at hd
            exact hok.database db hd
  | closeDB renames =>
    cases hst
    intro h hh
    simp [closeDB_file] at hh
  | write key value answers =>
    simp only [system, step, Option.map_eq_some_iff] at hst
    obtain ⟨result, hw, rfl⟩ := hst
    simp only [write] at hw
    split at hw
    case h_1 => cases hw
    case h_2 h hdb =>
      cases hw
      -- the file as it is written to, rolled or not
      have hrolled : OpenOk
          (if s.file.rollingHelper && answers.needToRoll then (s.file.roll s.fs answers).2
            else (s.fs, s.file)).1
          (if s.file.rollingHelper && answers.needToRoll then (s.file.roll s.fs answers).2
            else (s.fs, s.file)).2 := by
        split
        · exact openOk_roll hopen answers
        · exact hopen
      intro h' hh'
      cases hdb.symm.trans hh'
      have hok := hrolled h hdb
      dsimp only
      split
      · exact handleOk_put hok _ _
      · exact hok

theorem openOk_closing {s : State} {op : Op} (hopen : OpenOk s.fs s.file)
    (hc : closing s op = some (fs, f, renames)) : OpenOk fs f := by
  cases op with
  | openDB => cases hc
  | closeDB =>
    cases hc
    exact hopen
  | write key value answers =>
    simp only [closing] at hc
    split at hc
    case isTrue =>
      split at hc
      case h_1 => cases hc
      case h_2 ho =>
        cases hc
        exact openOk_of_openDBAt hopen ho
    case isFalse => cases hc

theorem cleansHarmlessly_iff {s : State} {op : Op} (hopen : OpenOk s.fs s.file) :
    CleansHarmlessly s op ↔ ClosesUnderFreeName s op := by
  constructor
  · exact fun hc fs f renames he => (closesHarmlessly_iff (openOk_closing hopen he)).mp
      (hc fs f renames he)
  · exact fun hc fs f renames he => (closesHarmlessly_iff (openOk_closing hopen he)).mpr
      (hc fs f renames he)

theorem openOk_of_init {s : State} (hs : system.init s) : OpenOk s.fs s.file := by
  intro h hdb
  rw [hs.1] at hdb
  cases hdb

theorem openOk_of_reachable {s : State} (h : system.Reachable s) : OpenOk s.fs s.file :=
  h.invariant (P := fun s => OpenOk s.fs s.file) (fun _ => openOk_of_init)
    fun _ _ _ hu hst => openOk_step hu hst

/-- Along every run every call of `CloseDB` is harmless exactly when none of them closes an empty
database while another database has its final name. -/
theorem cleanup_keeps_records {s t : State} {ops : List Op} (hs : system.init s)
    (hrun : system.exec s ops = some t) :
    system.StepsMeet CleansHarmlessly s ops ↔ system.StepsMeet ClosesUnderFreeName s ops :=
  TransitionSystem.stepsMeet_congr (P := fun u => OpenOk u.fs u.file) (openOk_of_init hs)
    (fun _ _ _ hu hst => openOk_step hu hst) (fun _ _ hu => cleansHarmlessly_iff hu) hrun

/-- The record file rolls from `a` to `b` and back to `a`, which holds a record by then; the put
into the new database of that name fails. -/
def rollBackRun : List Op :=
  [.openDB true proceeding, .write ⟨1, 0⟩ [65] noRoll, .write ⟨2, 0⟩ [66] (rollTo "b.ldb.d"),
    .write ⟨3, 0⟩ [67] { rollTo "a.ldb.d" with put := false }]

theorem cleanup_keeps_records_rollBackRun :
    system.StepsMeet CleansHarmlessly (unopenedFile "a.ldb.d") rollBackRun ↔
      system.StepsMeet ClosesUnderFreeName (unopenedFile "a.ldb.d") rollBackRun :=
  cleanup_keeps_records (init_unopenedFile _) (system.exec_after (by decide))

/-- Closing the file then removes the directory with the first record. -/
theorem rollBackRun_destroys_record :
    ¬ ∀ s t ops, system.init s → system.exec s ops = some t →
      system.StepsMeet CleansHarmlessly s ops := by
  intro h
  have hrun : system.exec (unopenedFile "a.ldb.d") (rollBackRun ++ [.closeDB true]) =
      some (system.after (unopenedFile "a.ldb.d") (rollBackRun ++ [.closeDB true])) :=
    system.exec_after (by decide)
  have hmid : system.exec (unopenedFile "a.ldb.d") rollBackRun =
      some (system.after (unopenedFile "a.ldb.d") rollBackRun) :=
    system.exec_after (by decide)
  have hlast := ((h _ _ _ (init_unopenedFile _) hrun).drop hmid).1
  have hopen := openOk_of_reachable
    (TransitionSystem.Reachable.after (init_unopenedFile "a.ldb.d") rollBackRun)
  have hfree := (closesHarmlessly_iff hopen).mp (hlast _ _ _ rfl)
  exact hfree ⟨⟨["records"], "a.ldb.d.saving"⟩, false⟩ (by decide) (by decide)

end CrisCore.RecordSession
