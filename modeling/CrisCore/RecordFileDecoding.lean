import CrisCore.RecordFile

/-! Whether `legacy_` agrees with the comparator of the open database. -/
namespace CrisCore.RecordSession
open RecordFile

/-- `leveldb::DB::Open` with the default comparator succeeds in `OpenDB(path)`. -/
def defaultOpens (fs : FileSystem) (path : Path) (answers : OpenAnswers) : Bool :=
  answers.makeDirs && (fs.tryOpen path.unfinishedPath false answers.default).1

/-- Both attempts of `OpenDB(path)` are made and fail. -/
def bothOpensFail (fs : FileSystem) (path : Path) (answers : OpenAnswers) : Bool :=
  let first := fs.tryOpen path.unfinishedPath false answers.default
  answers.makeDirs && !first.1 && !(first.2.tryOpen path.unfinishedPath true answers.legacy).1

/-- While a database is open, `legacy_` says whether it was opened with the legacy comparator. -/
def DecodesOpenDb (s : State) : Prop :=
  ∀ h, s.file.db = some h → (s.file.legacy = true ↔ h.legacy = true)

/-- What a step must not meet for `legacy_` to stay right: a default open while `legacy_` is still
set from an earlier attempt, and a failed roll while a default database stays open. -/
def KeepsLegacy (s : State) : Op → Prop
  | .openDB renames answers =>
    s.file.db = none → s.file.filepath.isEmpty = false →
      ∀ fs, s.file.checkoutDB s.fs renames = .ok fs →
        defaultOpens fs s.file.filepath answers = true → s.file.legacy = false
  | .closeDB _ => True
  | .write _ _ answers =>
    s.file.rollingHelper = true → answers.needToRoll = true →
      (defaultOpens s.fs (s.file.newFilepath answers.newRecordDirName) answers.opens = true →
        s.file.legacy = false) ∧
      (bothOpensFail s.fs (s.file.newFilepath answers.newRecordDirName) answers.opens = true →
        s.file.db ≠ none → s.file.legacy = true)

theorem openDBAt_cases (fs : FileSystem) (f : RecordFile) (path : Path) (answers : OpenAnswers) :
    (answers.makeDirs = false ∧ f.openDBAt fs path answers = (none, fs, f)) ∨
      (defaultOpens fs path answers = true ∧ ∃ fs', f.openDBAt fs path answers =
        (some ⟨path.unfinishedPath, false⟩, fs', f)) ∨
      (defaultOpens fs path answers = false ∧ bothOpensFail fs path answers = false ∧
        ∃ fs', f.openDBAt fs path answers =
          (some ⟨path.unfinishedPath, true⟩, fs', { f with legacy := true })) ∨
      (defaultOpens fs path answers = false ∧ bothOpensFail fs path answers = true ∧
        ∃ fs', f.openDBAt fs path answers = (none, fs', { f with legacy := true })) := by
  simp only [defaultOpens, bothOpensFail, openDBAt]
  split_ifs <;> simp_all

theorem openDB_decodes_iff {s : State} {renames : Bool} {answers : OpenAnswers}
    (h : DecodesOpenDb s) :
    DecodesOpenDb { s with
      fs := (s.file.openDB s.fs renames answers).2.1
      file := (s.file.openDB s.fs renames answers).2.2 } ↔
      KeepsLegacy s (.openDB renames answers) := by
  simp only [openDB, KeepsLegacy]
  split
  case isTrue hc =>
    have hn : s.file.db = none → s.file.filepath.isEmpty = false → False := by
      intro hdb he
      simp [hdb, he] at hc
    exact ⟨fun _ hdb he => (hn hdb he).elim, fun _ => h⟩
  case isFalse hc =>
    obtain ⟨hdb, he⟩ : s.file.db = none ∧ s.file.filepath.isEmpty = false := by
      simpa [not_or] using hc
    cases hco : s.file.checkoutDB s.fs renames with
    | error e => simpa [hdb, he] using h
    | ok fs =>
      rcases openDBAt_cases fs s.file s.file.filepath answers with
        ⟨hm, ho⟩ | ⟨hd, fs', ho⟩ | ⟨hd, -, fs', ho⟩ | ⟨hd, -, fs', ho⟩ <;>
        simp_all [DecodesOpenDb, defaultOpens]

theorem roll_decodes_iff {fs : FileSystem} {f : RecordFile} {answers : WriteAnswers}
    (h : ∀ d, f.db = some d → (f.legacy = true ↔ d.legacy = true)) :
    (∀ d, (f.roll fs answers).2.2.db = some d →
      ((f.roll fs answers).2.2.legacy = true ↔ d.legacy = true)) ↔
      (defaultOpens fs (f.newFilepath answers.newRecordDirName) answers.opens = true →
        f.legacy = false) ∧
      (bothOpensFail fs (f.newFilepath answers.newRecordDirName) answers.opens = true →
        f.db ≠ none → f.legacy = true) := by
  have hfail (hm : answers.opens.makeDirs = false) (path : Path) :
      defaultOpens fs path answers.opens = false ∧ bothOpensFail fs path answers.opens = false := by
    simp [defaultOpens, bothOpensFail, hm]
  have hboth {path : Path} (hd : defaultOpens fs path answers.opens = true) :
      bothOpensFail fs path answers.opens = false := by
    simp only [defaultOpens, Bool.and_eq_true] at hd
    simp [bothOpensFail, hd.2]
  rcases openDBAt_cases fs f (f.newFilepath answers.newRecordDirName) answers.opens with
    ⟨hm, ho⟩ | ⟨hd, fs', ho⟩ | ⟨hd, hb, fs', ho⟩ | ⟨hd, hb, fs', ho⟩
  · simp only [roll, ho, (hfail hm _).1, (hfail hm _).2]
    simpa using h
  · simp only [roll, ho, hd, hboth hd, closeDB_file]
    simp
  · simp only [roll, ho, hd, hb, closeDB_file]
    simp
  · simp only [roll, ho, hd, hb]
    cases hdb : f.db with
    | none => simp
    | some d => simp [h d hdb]

theorem write_decodes_iff {s t : State} {key : RecordFileKey} {value : Bytes}
    {answers : WriteAnswers} (h : DecodesOpenDb s) (hst : step s (.write key value answers) = some t) :
    DecodesOpenDb t ↔ KeepsLegacy s (.write key value answers) := by
  simp only [step, Option.map_eq_some_iff] at hst
  obtain ⟨result, hw, rfl⟩ := hst
  simp only [write] at hw
  split at hw
  case h_1 => cases hw
  case h_2 d hd =>
    cases hw
    by_cases hr : s.file.rollingHelper = true ∧ answers.needToRoll = true
    · simp only [hr.1, hr.2, Bool.and_self, if_true, DecodesOpenDb, KeepsLegacy, true_imp_iff]
      exact roll_decodes_iff h
    · have hn : (s.file.rollingHelper && answers.needToRoll) = false := by
        simpa using hr
      have hk : KeepsLegacy s (.write key value answers) := fun h1 h2 => absurd ⟨h1, h2⟩ hr
      simp only [hn, DecodesOpenDb]
      exact ⟨fun _ => hk, fun _ => h⟩

theorem decodes_step_iff {s t : State} {op : Op} (h : DecodesOpenDb s)
    (hst : system.step s op = some t) : DecodesOpenDb t ↔ KeepsLegacy s op := by
  cases op with
  | openDB renames answers =>
    cases hst
    exact openDB_decodes_iff h
  | closeDB renames =>
    cases hst
    simp [DecodesOpenDb, KeepsLegacy, closeDB_file]
  | write key value answers => exact write_decodes_iff h hst

/-- Along every run `legacy_` is right in every state exactly when every step meets the condition:
no default open succeeds while `legacy_` is set, and no roll fails while a default database stays
open. -/
theorem decoding_mode_matches {s t : State} {ops : List Op} (hs : system.init s)
    (hrun : system.exec s ops = some t) :
    system.StatesMeet DecodesOpenDb s ops ↔ system.StepsMeet KeepsLegacy s ops := by
  have h0 : DecodesOpenDb s := by
    intro h hdb
    rw [hs.1] at hdb
    cases hdb
  exact TransitionSystem.statesMeet_iff_stepsMeet (I := fun _ => True) (fun _ _ _ _ _ => trivial)
    (fun u op v _ hu => decodes_step_iff hu) trivial h0 hrun

/-- The rolling helper names the current directory again. -/
def failedRollRun : List Op :=
  [.openDB true proceeding, .write ⟨1, 0⟩ [65] (rollTo "a.ldb.d")]

theorem decoding_mode_matches_failedRollRun :
    system.StatesMeet DecodesOpenDb (unopenedFile "a.ldb.d") failedRollRun ↔
      system.StepsMeet KeepsLegacy (unopenedFile "a.ldb.d") failedRollRun :=
  decoding_mode_matches (init_unopenedFile _) (system.exec_after (by decide))

/-- After a failed roll the current database, written with the default comparator, is read as a
legacy one. -/
theorem failed_roll_changes_decoding :
    ¬ ∀ s, system.Reachable s → DecodesOpenDb s := by
  intro h
  have hr := TransitionSystem.Reachable.after (init_unopenedFile "a.ldb.d") failedRollRun
  have hd := h _ hr ⟨⟨["records"], "a.ldb.d.saving"⟩, false⟩ (by decide)
  exact absurd (hd.mp (by decide)) (by decide)

end CrisCore.RecordSession
