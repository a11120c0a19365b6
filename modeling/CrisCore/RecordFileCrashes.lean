import CrisCore.RecordFileCommit
import Mathlib.Data.List.Nodup

/-! Record files over the lives of several processes. A process may die between any two calls to the
file system and LevelDB. LevelDB keeps the puts it has taken, and nobody holds a lock of the dead
process. The next process constructs a record file of its own. -/
namespace CrisCore

/-- The path that is `path` when it is unfinished. -/
def Path.finalPath (path : Path) : Path :=
  { path with name := String.ofList (path.name.toList.take (path.name.toList.length - 7)) }

@[simp] theorem Path.finalPath_unfinishedPath (path : Path) :
    path.unfinishedPath.finalPath = path := by
  obtain ⟨parent, name⟩ := path
  have hlen : ".saving".toList.length = 7 := by decide
  simp only [unfinishedPath, finalPath, mk.injEq, true_and, String.toList_append,
    List.length_append, hlen, Nat.add_sub_cancel]
  rw [List.take_left, String.ofList_toList]

namespace RecordCrashes
open RecordFile RecordSession

/-- The arguments of a constructor. -/
structure Next where
  filepath : Path
  linkname : String
  rollingHelper : Bool
  deriving DecidableEq

/-- The object before its constructor calls `OpenDB`. -/
def Next.file (next : Next) : RecordFile :=
  .unopened next.filepath next.linkname next.rollingHelper

inductive Event
  | call (op : Op)
  /-- A closed object is destroyed and another one constructed. -/
  | construct (next : Next)
  /-- The process dies in an operation, at one of its stages, and another one constructs a file. -/
  | crash (op : Op) (stage : ℕ) (next : Next)
  deriving DecidableEq

/-- What `OpenDB(path)` makes of the file system, one call after the other. -/
def openDBAtStages (fs : FileSystem) (path : Path) (answers : OpenAnswers) : List FileSystem :=
  if !answers.makeDirs then []
  else
    let first := fs.tryOpen path.unfinishedPath false answers.default
    if first.1 then [first.2]
    else [first.2, (first.2.tryOpen path.unfinishedPath true answers.legacy).2]

/-- The symbolic link comes last, and no record depends on it. -/
def openDBStages (fs : FileSystem) (f : RecordFile) (renames : Bool) (answers : OpenAnswers) :
    List FileSystem :=
  if f.db.isSome || f.filepath.isEmpty then []
  else
    match f.checkoutDB fs renames with
    | .error _ => []
    | .ok fs => fs :: openDBAtStages fs f.filepath answers

def closeDBStages (fs : FileSystem) (f : RecordFile) (renames : Bool) : List FileSystem :=
  match f.db with
  | none => []
  | some h => [fs.unlock h.path, f.commitDB (fs.unlock h.path) renames, (f.closeDB fs renames).1]

def rollStages (fs : FileSystem) (f : RecordFile) (answers : WriteAnswers) : List FileSystem :=
  let path := f.newFilepath answers.newRecordDirName
  openDBAtStages fs path answers.opens ++
    match f.openDBAt fs path answers.opens with
    | (none, _, _) => []
    | (some _, fs, f) => closeDBStages fs f answers.renames

/-- What an operation makes of the file system from its start on. A write that dies after its put is
a write after which the process dies. -/
def stages (s : State) : Op → List FileSystem
  | .openDB renames answers => s.fs :: openDBStages s.fs s.file renames answers
  | .closeDB renames => s.fs :: closeDBStages s.fs s.file renames
  | .write _ _ answers =>
    s.fs :: if s.file.rollingHelper && answers.needToRoll then rollStages s.fs s.file answers else []

def step (s : State) : Event → Option State
  | .call op => RecordSession.step s op
  | .construct next => if s.file.db = none then some { s with file := next.file } else none
  | .crash op stage next =>
    (stages s op)[stage]?.map fun fs => { s with fs := { fs with locks := [] }, file := next.file }

def system : TransitionSystem State Event where
  init := RecordSession.system.init
  step := step

/-- The rolling helper gives the new directory a name. -/
def Names : Op → Prop
  | .write _ _ answers => answers.needToRoll = true → answers.newRecordDirName ≠ ""
  | _ => True

instance : (op : Op) → Decidable (Names op)
  | .openDB .. => inferInstanceAs (Decidable True)
  | .closeDB _ => inferInstanceAs (Decidable True)
  | .write .. => inferInstanceAs (Decidable (_ → _ ≠ _))

/-- As long as a process lives the world lets it do what it does; no file is given the suffix of an
unfinished one. -/
def Careful (fs₀ : FileSystem) (s : State) : Event → Prop
  | .call op => Cooperative fs₀ s op ∧ Names op
  | .construct next => next.filepath.isUnfinished = false
  | .crash op _ next => (Cooperative fs₀ s op ∧ Names op) ∧ next.filepath.isUnfinished = false

instance (fs₀ : FileSystem) (s : State) : (event : Event) → Decidable (Careful fs₀ s event)
  | .call _ => inferInstanceAs (Decidable (_ ∧ _))
  | .construct _ => inferInstanceAs (Decidable (_ = _))
  | .crash .. => inferInstanceAs (Decidable ((_ ∧ _) ∧ _))

/-- The path has nothing, or a directory whose database, if there is one, has the default
comparator. -/
def Openable (fs : FileSystem) (p : Path) : Prop :=
  ∀ n, fs.node p = some n → ∃ d, n = .dir d ∧ ∀ db, d.db = some db → db.legacy = false

/-- Whatever is unfinished can be opened again under its final name. -/
def Resumable (fs : FileSystem) : Prop :=
  ∀ p, p.isUnfinished = true → fs.node p ≠ none →
    ∃ q, p = q.unfinishedPath ∧ q.isUnfinished = false ∧ q.isEmpty = false ∧
      fs.node q = none ∧ Openable fs p

section Stages
variable {fs fs' : FileSystem} {path q : Path} {s t : State} {f : RecordFile}

theorem Openable.of_openDatabase (h : (fs.openDatabase path false).isSome = true) :
    Openable fs path := by
  intro n hn
  unfold FileSystem.openDatabase at h
  split at h
  case isTrue => simp at h
  case isFalse =>
    rw [hn] at h
    cases n with
    | file => simp at h
    | dir d =>
      refine ⟨d, rfl, fun db hdb => ?_⟩
      simp only [hdb] at h
      split at h
      case isTrue he => simpa using he
      case isFalse => simp at h

theorem Openable.openDatabase (h : Openable fs path) (hl : path ∉ fs.locks) :
    (fs.openDatabase path false).isSome = true := by
  simp only [FileSystem.openDatabase, hl, if_false]
  cases hn : fs.node path with
  | none => simp
  | some n =>
    obtain ⟨⟨_ | db, others⟩, rfl, hleg⟩ := h n hn
    · rfl
    · simp [hleg db rfl]

theorem Openable.of_database {db : Database} (hdb : fs.database path = some db)
    (hleg : db.legacy = false) : Openable fs path := by
  intro n hn
  cases n with
  | file => simp [FileSystem.database, hn] at hdb
  | dir d =>
    refine ⟨d, rfl, fun db' hdb' => ?_⟩
    simp only [FileSystem.database, hn] at hdb
    cases hdb'.symm.trans hdb
    exact hleg

theorem ne_unfinishedPath_of_plain (hq : q.isUnfinished = false) (p : Path) :
    q ≠ p.unfinishedPath := by
  rintro rfl
  simp at hq

/-- An operation on one record directory, which is then gone from its unfinished path or can be
opened there. -/
theorem Resumable.change (h : Resumable fs) (hq : q.isUnfinished = false)
    (hne : q.isEmpty = false)
    (hframe : ∀ p, p ≠ q → p ≠ q.unfinishedPath → fs'.node p = fs.node p)
    (hown : fs'.node q.unfinishedPath ≠ none →
      fs'.node q = none ∧ Openable fs' q.unfinishedPath) : Resumable fs' := by
  intro p hp hn
  by_cases hpq : p = q.unfinishedPath
  · subst hpq
    exact ⟨q, rfl, hq, hne, hown hn⟩
  have hsame : fs'.node p = fs.node p := by
    refine hframe p ?_ hpq
    rintro rfl
    rw [hq] at hp
    cases hp
  rw [hsame] at hn
  obtain ⟨r, rfl, hr, hrne, hnone, hopen⟩ := h p hp hn
  have hrq : r ≠ q := fun he => hpq (he ▸ rfl)
  refine ⟨r, rfl, hr, hrne, ?_, ?_⟩
  · rw [hframe r hrq (ne_unfinishedPath_of_plain hr q), hnone]
  · intro n hn'
    exact hopen n (hsame ▸ hn')

theorem Resumable.congr (h : Resumable fs) (hn : ∀ p, fs'.node p = fs.node p) :
    Resumable fs' := by
  intro p hp hex
  rw [hn] at hex
  obtain ⟨q, rfl, hq, hne, hnone, hopen⟩ := h p hp hex
  exact ⟨q, rfl, hq, hne, (hn q).trans hnone, fun n hn' => hopen n ((hn _) ▸ hn')⟩

theorem openDBAt_stage (fs : FileSystem) (f : RecordFile) (path : Path) (answers : OpenAnswers) :
    (f.openDBAt fs path answers).2.1 ∈ fs :: openDBAtStages fs path answers := by
  simp only [openDBAt, openDBAtStages]
  split_ifs <;> simp

/-- The result of an operation, up to links and the put of a write, is its last stage. -/
theorem openDB_stage (fs : FileSystem) (f : RecordFile) (renames : Bool) (answers : OpenAnswers) :
    ∃ fs' ∈ fs :: openDBStages fs f renames answers,
      ∀ p, (f.openDB fs renames answers).2.1.node p = fs'.node p := by
  simp only [openDB, openDBStages]
  split_ifs with hcond
  · exact ⟨fs, by simp, fun _ => rfl⟩
  cases hco : f.checkoutDB fs renames with
  | error e => exact ⟨fs, by simp, fun _ => rfl⟩
  | ok fs₁ =>
    have hmem := openDBAt_stage fs₁ f f.filepath answers
    refine ⟨_, List.mem_cons_of_mem _ hmem, fun p => ?_⟩
    rcases ho : f.openDBAt fs₁ f.filepath answers with ⟨_ | hd, fs₂, f₂⟩
    · simp only [ho]
    · simp only [ho, makeLink_node]

theorem roll_stage (fs : FileSystem) (f : RecordFile) (answers : WriteAnswers) :
    ∃ fs' ∈ fs :: rollStages fs f answers, (f.roll fs answers).2.1 = fs' := by
  have hmem := openDBAt_stage fs f (f.newFilepath answers.newRecordDirName) answers.opens
  simp only [roll, rollStages]
  rcases ho : f.openDBAt fs (f.newFilepath answers.newRecordDirName) answers.opens with
    ⟨_ | hd, fs₁, f₁⟩
  · rw [ho] at hmem
    exact ⟨fs₁, by simpa using hmem, rfl⟩
  · cases hdb : f₁.db with
    | none =>
      rw [ho] at hmem
      refine ⟨fs₁, by simpa [closeDBStages, hdb] using hmem, ?_⟩
      simp [closeDB, hdb]
    | some h => exact ⟨_, by simp [closeDBStages, hdb], rfl⟩

/-- What the next process may find: every accepted record in one place, and nothing unfinished that
cannot be opened again. -/
def Safe (fs₀ : FileSystem) (accepted : List (RecordFileKey × Bytes)) (fs : FileSystem) : Prop :=
  (∃ opened, Kept fs₀ fs accepted opened) ∧ Resumable fs

variable {fs₀ : FileSystem} {accepted : List (RecordFileKey × Bytes)} {answers : OpenAnswers}

theorem Safe.congr (h : Safe fs₀ accepted fs) (hn : ∀ p, fs'.node p = fs.node p) :
    Safe fs₀ accepted fs' := by
  obtain ⟨⟨opened, hk⟩, hres⟩ := h
  exact ⟨⟨opened, hk.congr hn⟩, hres.congr hn⟩

theorem safe_openDatabase (h : Safe fs₀ accepted fs) (hplain : path.isUnfinished = false)
    (hne : path.isEmpty = false) (hnone : fs.node path = none)
    (ho : fs.openDatabase path.unfinishedPath false = some fs') : Safe fs₀ accepted fs' := by
  obtain ⟨⟨opened, hk⟩, hres⟩ := h
  obtain ⟨-, -, hnode, -⟩ := FileSystem.openDatabase_some ho
  refine ⟨⟨_, hk.openDatabase ho⟩, hres.change hplain hne (fun p _ hp => hnode p hp) fun _ => ?_⟩
  obtain ⟨db, hdb, hleg⟩ := FileSystem.database_of_openDatabase ho
  refine ⟨?_, .of_database hdb hleg⟩
  rw [hnode path path.unfinishedPath_ne.symm, hnone]

theorem openDBAtStages_willing (hw : Willing answers)
    (ho : fs.openDatabase path.unfinishedPath false = some fs') :
    openDBAtStages fs path answers = [fs'] := by
  simp [openDBAtStages, hw.1, hw.2.1, FileSystem.tryOpen, ho]

theorem openDBAtStages_locked (hw : Willing answers) (hl : path.unfinishedPath ∈ fs.locks) :
    openDBAtStages fs path answers = [fs, fs] := by
  simp [openDBAtStages, hw.1, hw.2.1, hw.2.2, FileSystem.tryOpen, FileSystem.openDatabase, hl]

theorem checkoutDB_node {renames : Bool} (hc : f.checkoutDB fs renames = .ok fs') {p : Path}
    (hfin : p ≠ f.filepath) (hown : p ≠ f.filepath.unfinishedPath) :
    fs'.node p = fs.node p := by
  unfold checkoutDB at hc
  split at hc
  case isTrue =>
    cases hc
    rfl
  case isFalse =>
    split at hc
    case isTrue => cases hc
    case isFalse =>
      split at hc
      case h_1 g hr =>
        cases hc
        obtain ⟨n, -, rfl⟩ := Option.map_eq_some_iff.mp hr
        rw [FileSystem.node_set, if_neg hown, FileSystem.node_removeAll, if_neg hfin]
      case h_2 => cases hc

theorem safe_openDBStages (h : Safe fs₀ accepted fs) (hplain : f.filepath.isUnfinished = false)
    (hw : Willing answers) (hopens : ∀ fs' ∈ (f.checkoutDB fs true).toOption,
      (fs'.openDatabase f.filepath.unfinishedPath false).isSome = true) :
    ∀ fs' ∈ openDBStages fs f true answers, Safe fs₀ accepted fs' := by
  unfold openDBStages
  split_ifs with hcond
  · simp
  have hne : f.filepath.isEmpty = false := by
    simp only [Bool.or_eq_true, not_or] at hcond
    simpa using hcond.2
  cases hco : f.checkoutDB fs true with
  | error e => simp
  | ok fs₁ =>
    have hopen := hopens fs₁ (by rw [hco]; rfl)
    obtain ⟨fs₂, ho⟩ := Option.isSome_iff_exists.mp hopen
    obtain ⟨⟨opened, hk⟩, hres⟩ := h
    obtain ⟨hk₁, hfin, -⟩ := hk.checkoutDB hco
    have hsafe : Safe fs₀ accepted fs₁ :=
      ⟨⟨_, hk₁⟩, hres.change hplain hne (fun p => checkoutDB_node hco)
        fun _ => ⟨hfin, .of_openDatabase hopen⟩⟩
    intro fs' hmem
    simp only [openDBAtStages_willing hw ho, List.mem_cons, List.not_mem_nil, or_false] at hmem
    rcases hmem with rfl | rfl
    · exact hsafe
    · exact safe_openDatabase hsafe hplain hne hfin ho

/-- At a commit the directory is under the one name or under the other. -/
theorem safe_commitDB (h : Safe fs₀ accepted fs) (hplain : f.filepath.isUnfinished = false)
    (hne : f.filepath.isEmpty = false) (hfin : fs.node f.filepath = none) :
    Safe fs₀ accepted (f.commitDB fs true) := by
  obtain ⟨⟨opened, hk⟩, hres⟩ := h
  cases hown : fs.node f.filepath.unfinishedPath with
  | none =>
    have hsame : f.commitDB fs true = fs := by simp [commitDB, FileSystem.pathExists, hown]
    rw [hsame]
    exact ⟨⟨opened, hk⟩, hres⟩
  | some n =>
    have hrename : fs.rename f.filepath.unfinishedPath f.filepath =
        some (f.commitDB fs true) := by
      simp [commitDB, FileSystem.pathExists, FileSystem.rename, hown, hfin]
    have hgone : (f.commitDB fs true).node f.filepath.unfinishedPath = none := by
      rw [node_commitDB, if_pos (by simp [commits, FileSystem.pathExists, hown, hfin]),
        if_neg f.filepath.unfinishedPath_ne, if_pos rfl]
    refine ⟨⟨_, hk.rename hrename hfin⟩, hres.change hplain hne (fun p hp hp' => ?_)
      fun hn => absurd hgone hn⟩
    rw [node_commitDB]
    simp [hp, hp']

/-- A directory that can be committed does not stay unfinished. -/
theorem closeDB_gone {h : DbHandle} (hf : f.db = some h)
    (hown : (fs.node f.filepath.unfinishedPath).isSome = true) (hfin : fs.node f.filepath = none) :
    (f.closeDB fs true).1.node f.filepath.unfinishedPath = none := by
  rw [closeDB_node hf, node_commitDB]
  simp [commits, FileSystem.pathExists, hown, hfin, f.filepath.unfinishedPath_ne]

theorem safe_closeDBStages {opened : List Path} {db : Database}
    (hk : Kept fs₀ fs accepted (f.filepath.unfinishedPath :: opened)) (hres : Resumable fs)
    (hplain : f.filepath.isUnfinished = false) (hne : f.filepath.isEmpty = false)
    (hf : f.db = some ⟨f.filepath.unfinishedPath, false⟩)
    (hdb : fs.database f.filepath.unfinishedPath = some db) (hleg : db.legacy = false)
    (hfin : fs.node f.filepath = none) :
    ∀ fs' ∈ closeDBStages fs f true, Safe fs₀ accepted fs' := by
  have hunlocked : Safe fs₀ accepted (fs.unlock f.filepath.unfinishedPath) :=
    Safe.congr ⟨⟨_, hk⟩, hres⟩ fun _ => rfl
  have hcommitted := safe_commitDB hunlocked hplain hne hfin
  have hgone : (f.closeDB fs true).1.node f.filepath.unfinishedPath = none :=
    closeDB_gone hf (FileSystem.node_isSome_of_database hdb) hfin
  have hclosed : Safe fs₀ accepted (f.closeDB fs true).1 :=
    ⟨⟨opened, hk.closeDB hplain hf hdb hleg hfin⟩, hres.change hplain hne
      (fun p hp hp' => closeDB_node_frame hf true hp hp') fun hn => absurd hgone hn⟩
  intro fs' hmem
  simp only [closeDBStages, hf, List.mem_cons, List.not_mem_nil, or_false] at hmem
  rcases hmem with rfl | rfl | rfl
  · exact hunlocked
  · exact hcommitted
  · exact hclosed

/-- The state while a process lives. -/
structure Recoverable (fs₀ : FileSystem) (s : State) : Prop where
  sound : ∃ spared, SoundBeside fs₀ spared s
  resumable : Resumable s.fs
  named : s.file.db ≠ none → s.file.filepath.isEmpty = false

theorem Recoverable.safe (h : Recoverable fs₀ s) : Safe fs₀ s.accepted s.fs := by
  obtain ⟨spared, hs⟩ := h.sound
  exact ⟨⟨_, hs.keeps⟩, h.resumable⟩

theorem newFilepath_isEmpty {name : String} (h : name ≠ "") :
    (f.newFilepath name).isEmpty = false := by
  simp [newFilepath, Path.isEmpty, h]

/-- Wherever a process dies in an operation, every record it had accepted is in one place. -/
theorem safe_stages {op : Op} (h : Recoverable fs₀ s) (hc : Cooperative fs₀ s op)
    (hname : Names op) : ∀ fs ∈ stages s op, Safe fs₀ s.accepted fs := by
  obtain ⟨spared, hs⟩ := h.sound
  intro fs hmem
  cases op with
  | openDB renames answers =>
    obtain ⟨rfl, hw, hopens⟩ := hc
    rcases List.mem_cons.mp hmem with rfl | hmem
    · exact h.safe
    cases hdb : s.file.db with
    | some hd => simp [openDBStages, hdb] at hmem
    | none =>
      refine safe_openDBStages h.safe hs.plain hw (fun fs' hfs' => ?_) fs hmem
      refine (hopens fs' hfs').resolve_left fun hlocked => ?_
      -- a file that is not open holds no lock
      have hco : s.file.checkoutDB s.fs true = .ok fs' := by
        cases hco : s.file.checkoutDB s.fs true with
        | error e => simp [hco, Except.toOption] at hfs'
        | ok g => simpa [hco, Except.toOption] using hfs'
      rw [(hs.keeps.checkoutDB hco).2.2] at hlocked
      have hown := hs.locks _ hlocked
      simp [openPaths, hdb] at hown
  | closeDB renames =>
    obtain rfl : renames = true := hc
    rcases List.mem_cons.mp hmem with rfl | hmem
    · exact h.safe
    cases hdb : s.file.db with
    | none => simp [closeDBStages, hdb] at hmem
    | some hd =>
      obtain ⟨rfl, -, hfin, db, hdat, hleg⟩ := hs.handle hd hdb
      have hk := hs.keeps
      rw [openPaths, hdb] at hk
      exact safe_closeDBStages hk h.resumable hs.plain (h.named (by simp [hdb])) hdb hdat hleg hfin
        fs hmem
  | write key value answers =>
    obtain ⟨hopen, -, -, -, hroll⟩ := hc
    rcases List.mem_cons.mp hmem with rfl | hmem
    · exact h.safe
    split at hmem
    case isFalse => cases hmem
    case isTrue hr =>
      obtain ⟨hhelper, hneed⟩ := Bool.and_eq_true_iff.mp hr
      obtain ⟨hren, hw, ho, hfree, hplain⟩ := hroll hhelper hneed
      obtain ⟨hd, hdb⟩ := Option.ne_none_iff_exists'.mp hopen
      obtain ⟨rfl, hlock, -⟩ := hs.handle hd hdb
      set new := s.file.newFilepath answers.newRecordDirName with hnew
      by_cases hl : new.unfinishedPath ∈ s.fs.locks
      · simp only [rollStages, ← hnew, openDBAtStages_locked hw hl, openDBAt_locked hw hl,
          List.append_nil, List.mem_cons, List.not_mem_nil, or_false, or_self] at hmem
        rw [hmem]
        exact h.safe
      obtain ⟨fs', ho'⟩ := Option.isSome_iff_exists.mp (ho.resolve_left hl)
      have hnone : s.fs.node new = none := by
        refine hfree.resolve_left fun he => hl ?_
        rw [he]
        exact hlock
      have hsafe := safe_openDatabase h.safe hplain (newFilepath_isEmpty (hname hneed)) hnone ho'
      obtain ⟨hboth, hfin, db, hdat, hleg⟩ := both_open hs hdb ho'
      simp only [rollStages, ← hnew, openDBAtStages_willing hw ho', openDBAt_willing hw ho', hren,
        List.singleton_append, List.mem_cons] at hmem
      rcases hmem with rfl | hmem
      · exact hsafe
      · exact safe_closeDBStages hboth hsafe.2 hs.plain (h.named hopen) hdb hdat hleg hfin fs hmem

theorem openDBAt_filepath (fs : FileSystem) (f : RecordFile) (path : Path) (answers : OpenAnswers) :
    (f.openDBAt fs path answers).2.2.filepath = f.filepath ∧
      (f.openDBAt fs path answers).2.2.db = f.db := by
  simp only [openDBAt]
  split_ifs <;> exact ⟨rfl, rfl⟩

/-- Only a file with a path is opened. -/
theorem openDB_named {renames : Bool} (h : f.db ≠ none → f.filepath.isEmpty = false)
    (hopen : (f.openDB fs renames answers).2.2.db ≠ none) :
    (f.openDB fs renames answers).2.2.filepath.isEmpty = false := by
  simp only [openDB] at hopen ⊢
  split_ifs at hopen ⊢ with hcond
  · exact h hopen
  have hne : f.filepath.isEmpty = false := by
    simp only [Bool.or_eq_true, not_or] at hcond
    simpa using hcond.2
  cases hco : f.checkoutDB fs renames with
  | error e => exact hne
  | ok fs₁ =>
    have hpath := (openDBAt_filepath fs₁ f f.filepath answers).1
    rcases ho : f.openDBAt fs₁ f.filepath answers with ⟨_ | hd, fs₂, f₂⟩
    all_goals
      rw [ho] at hpath
      simp only [ho]
      exact hpath ▸ hne

theorem closeDB_stage (fs : FileSystem) (f : RecordFile) (renames : Bool) :
    (f.closeDB fs renames).1 ∈ fs :: closeDBStages fs f renames := by
  cases hdb : f.db with
  | none => simp [closeDB, hdb]
  | some h => simp [closeDBStages, hdb]

theorem roll_filepath (fs : FileSystem) (f : RecordFile) (answers : WriteAnswers) :
    (f.roll fs answers).2.2.filepath = f.filepath ∨
      (f.roll fs answers).2.2.filepath = f.newFilepath answers.newRecordDirName := by
  have hpath := (openDBAt_filepath fs f (f.newFilepath answers.newRecordDirName) answers.opens).1
  simp only [roll]
  rcases ho : f.openDBAt fs (f.newFilepath answers.newRecordDirName) answers.opens with
    ⟨_ | hd, fs₁, f₁⟩
  · rw [ho] at hpath
    exact Or.inl hpath
  · rw [ho] at hpath
    refine Or.inr ?_
    simp only [newFilepath] at hpath ⊢
    rw [show f₁.filepath = f.filepath from hpath]

theorem recoverable_write {key : RecordFileKey} {value : Bytes} {answers : WriteAnswers}
    (h : Recoverable fs₀ s) (hc : Cooperative fs₀ s (.write key value answers))
    (hname : answers.needToRoll = true → answers.newRecordDirName ≠ "")
    (hst : RecordSession.step s (.write key value answers) = some t) : Recoverable fs₀ t := by
  obtain ⟨spared, hs⟩ := h.sound
  have hsound : SoundBeside fs₀ spared t := soundBeside_step hs hc hst
  have hstages := safe_stages h hc hname
  have hfile := h.named hc.1
  obtain ⟨result, hw, rfl⟩ := Option.map_eq_some_iff.mp hst
  set rolled := if s.file.rollingHelper && answers.needToRoll then (s.file.roll s.fs answers).2
    else (s.fs, s.file) with hrolled
  have hresumable : Resumable rolled.1 := by
    rw [hrolled]
    split
    case isTrue hr =>
      obtain ⟨fs', hmem, he⟩ := roll_stage s.fs s.file answers
      rw [he]
      refine (hstages fs' ?_).2
      simpa [stages, hr] using hmem
    case isFalse => exact h.resumable
  have hnamed : rolled.2.filepath.isEmpty = false := by
    rw [hrolled]
    split
    case isTrue hr =>
      rcases roll_filepath s.fs s.file answers with he | he
      · rw [he, hfile]
      · rw [he, newFilepath_isEmpty (hname (Bool.and_eq_true_iff.mp hr).2)]
    case isFalse => exact hfile
  simp only [write, ← hrolled] at hw
  split at hw
  case h_1 => cases hw
  case h_2 hd hdb =>
    cases hw
    obtain ⟨hpath, -, hfin, db, hdat, hleg⟩ := hsound.handle hd hdb
    have hown : hd.path = rolled.2.filepath.unfinishedPath := congrArg DbHandle.path hpath
    refine ⟨⟨spared, hsound⟩, hresumable.change hsound.plain hnamed (fun p _ hp => ?_) fun _ => ?_,
      fun _ => hnamed⟩
    -- the put touches the unfinished path alone
    · change p ≠ rolled.2.filepath.unfinishedPath at hp
      rw [← hown] at hp
      cases answers.put with
      | true => exact FileSystem.node_put_of_ne _ hp _ _
      | false => rfl
    · refine ⟨hfin, ?_⟩
      change Openable _ rolled.2.filepath.unfinishedPath
      rw [← hown]
      exact .of_database hdat hleg

theorem recoverable_call {op : Op} (h : Recoverable fs₀ s) (hc : Cooperative fs₀ s op)
    (hname : Names op) (hst : RecordSession.step s op = some t) : Recoverable fs₀ t := by
  obtain ⟨spared, hs⟩ := h.sound
  have hsound : SoundBeside fs₀ spared t := soundBeside_step hs hc hst
  have hstages := safe_stages h hc hname
  cases op with
  | openDB renames answers =>
    cases hst
    obtain ⟨fs', hmem, hn⟩ := openDB_stage s.fs s.file renames answers
    exact ⟨⟨spared, hsound⟩, (hstages fs' hmem).2.congr hn, openDB_named h.named⟩
  | closeDB renames =>
    cases hst
    refine ⟨⟨spared, hsound⟩, (hstages _ (closeDB_stage s.fs s.file renames)).2, fun hopen => ?_⟩
    simp [closeDB_file] at hopen
  | write key value answers => exact recoverable_write h hc hname hst

/-- Another object takes over a disk that is safe and where nothing is open. -/
theorem recoverable_next {next : Next} (h : Safe fs₀ accepted fs)
    (hplain : next.filepath.isUnfinished = false) (hlocks : fs.locks = []) :
    Recoverable fs₀ ⟨fs, next.file, accepted⟩ := by
  obtain ⟨⟨opened, hk⟩, hres⟩ := h
  refine ⟨⟨opened, hplain, by simp [hlocks], ?_, ?_⟩, hres, ?_⟩
  · exact hk.mono fun p hp => by simpa [openPaths, Next.file, unopened] using hp
  all_goals simp [Next.file, unopened]

theorem recoverable_step {event : Event} (h : Recoverable fs₀ s) (hc : Careful fs₀ s event)
    (hst : system.step s event = some t) : Recoverable fs₀ t := by
  cases event with
  | call op => exact recoverable_call h hc.1 hc.2 hst
  | construct next =>
    simp only [system, step] at hst
    split_ifs at hst with hdb
    cases hst
    obtain ⟨spared, hs⟩ := h.sound
    refine recoverable_next h.safe hc (List.eq_nil_iff_forall_not_mem.mpr fun p hp => ?_)
    have hown := hs.locks p hp
    simp [openPaths, hdb] at hown
  | crash op stage next =>
    obtain ⟨fs', hfs, rfl⟩ := Option.map_eq_some_iff.mp hst
    have hsafe := safe_stages h hc.1.1 hc.1.2 fs' (List.mem_of_getElem? hfs)
    exact recoverable_next (hsafe.congr fun _ => rfl) hc.2 rfl

end Stages

/-- The unfinished directories on a disk, under their final names. -/
def unfinished (fs : FileSystem) : List Path :=
  (fs.nodes.keys.filter Path.isUnfinished).map Path.finalPath

/-- A record file is constructed and destroyed. -/
def recover (answers : OpenAnswers) (q : Path) : List Event :=
  [.construct ⟨q, "", false⟩, .call (.openDB true answers), .call (.closeDB true)]

def recovery (answers : OpenAnswers) (fs : FileSystem) : List Event :=
  (unfinished fs).flatMap (recover answers)

section Recovery
variable {fs₀ : FileSystem} {s t : State} {q : Path} {answers : OpenAnswers}

theorem Recoverable.unlocked (h : Recoverable fs₀ s) (hdb : s.file.db = none) : s.fs.locks = [] := by
  obtain ⟨spared, hs⟩ := h.sound
  refine List.eq_nil_iff_forall_not_mem.mpr fun p hp => ?_
  have hown := hs.locks p hp
  simp [openPaths, hdb] at hown

/-- `OpenDB()` takes up what was left unfinished. -/
theorem openDB_unfinished (next : Next) {fs fs' : FileSystem} (hlink : next.linkname = "")
    (hne : next.filepath.isEmpty = false) (hnone : fs.node next.filepath = none) (hw : Willing answers)
    (ho : fs.openDatabase next.filepath.unfinishedPath false = some fs') :
    next.file.openDB fs true answers =
      (.ok true, fs', { next.file with db := some ⟨next.filepath.unfinishedPath, false⟩ }) := by
  have hco : next.file.checkoutDB fs true = .ok fs := by
    simp [checkoutDB, FileSystem.pathExists, Next.file, unopened, hnone]
  have hdb : next.file.db = none := rfl
  have hpath : next.file.filepath = next.filepath := rfl
  simp only [openDB, hdb, hpath, hne, hco, openDBAt_willing hw ho]
  simp [makeLink, Next.file, unopened, hlink]

theorem recover_one (h : Recoverable fs₀ s) (hdb : s.file.db = none)
    (hq : q.isUnfinished = false) (hne : q.isEmpty = false) (hown : s.fs.node q.unfinishedPath ≠ none)
    (hw : Willing answers) : ∃ u, system.exec s (recover answers q) = some u ∧
      Recoverable fs₀ u ∧ u.file.db = none ∧ u.accepted = s.accepted ∧
      u.fs.node q.unfinishedPath = none ∧
      ∀ p, p ≠ q → p ≠ q.unfinishedPath → u.fs.node p = s.fs.node p := by
  let next : Next := ⟨q, "", false⟩
  obtain ⟨r, hr, -, -, hnone, hopenable⟩ := h.resumable _ (by simp) hown
  rw [← Path.unfinishedPath_injective hr] at hnone
  have hisSome := hopenable.openDatabase (by simp [h.unlocked hdb])
  obtain ⟨fs', ho⟩ := Option.isSome_iff_exists.mp hisSome
  obtain ⟨-, -, hnode, -⟩ := FileSystem.openDatabase_some ho
  have hopened := openDB_unfinished next rfl hne hnone hw ho
  let s₁ : State := { s with file := next.file }
  let s₂ : State :=
    { s with fs := fs', file := { next.file with db := some ⟨q.unfinishedPath, false⟩ } }
  let s₃ : State :=
    { s₂ with fs := (s₂.file.closeDB fs' true).1, file := (s₂.file.closeDB fs' true).2 }
  have h₁ : system.step s (.construct next) = some s₁ := by
    simp only [system, step, hdb, if_true]
    rfl
  have h₂ : system.step s₁ (.call (.openDB true answers)) = some s₂ := by
    change some _ = some _
    rw [hopened]
  have h₃ : system.step s₂ (.call (.closeDB true)) = some s₃ := rfl
  have hR₁ : Recoverable fs₀ s₁ := recoverable_next h.safe hq (h.unlocked hdb)
  have hco : Cooperative fs₀ s₁ (.openDB true answers) := by
    refine ⟨rfl, hw, fun g hg => Or.inr ?_⟩
    have hsame : next.file.checkoutDB s.fs true = .ok s.fs := by
      simp [checkoutDB, FileSystem.pathExists, Next.file, unopened, next, hnone]
    change g ∈ (next.file.checkoutDB s.fs true).toOption at hg
    rw [hsame] at hg
    cases hg
    exact hisSome
  have hR₂ : Recoverable fs₀ s₂ := recoverable_call hR₁ hco trivial h₂
  have hclose : Cooperative fs₀ s₂ (.closeDB true) := rfl
  have hR₃ : Recoverable fs₀ s₃ := recoverable_call hR₂ hclose trivial h₃
  refine ⟨s₃, ?_, hR₃, ?_, rfl, ?_, fun p hp hp' => ?_⟩
  · simp only [recover, TransitionSystem.exec_cons, TransitionSystem.exec_nil]
    rw [h₁, Option.bind_some, h₂, Option.bind_some, h₃, Option.bind_some]
  · change ((s₂.file.closeDB fs' true).2).db = none
    rw [closeDB_file]
  · refine closeDB_gone (f := s₂.file) rfl ?_ ?_
    · obtain ⟨db, hdat, -⟩ := FileSystem.database_of_openDatabase ho
      exact FileSystem.node_isSome_of_database hdat
    · exact (hnode q q.unfinishedPath_ne.symm).trans hnone
  · exact (closeDB_node_frame (f := s₂.file) rfl true hp hp').trans (hnode p hp')

/-- One after the other, by induction over what is left. -/
theorem recover_all {qs : List Path} (h : Recoverable fs₀ s) (hdb : s.file.db = none)
    (hqs : ∀ q ∈ qs, q.isUnfinished = false ∧ q.isEmpty = false ∧
      s.fs.node q.unfinishedPath ≠ none) (hnodup : qs.Nodup) (hw : Willing answers) :
    ∃ u, system.exec s (qs.flatMap (recover answers)) = some u ∧ Recoverable fs₀ u ∧
      u.accepted = s.accepted ∧
      ∀ p, p.isUnfinished = true → u.fs.node p ≠ none →
        s.fs.node p ≠ none ∧ ∀ q ∈ qs, p ≠ q.unfinishedPath := by
  induction qs generalizing s with
  | nil => exact ⟨s, rfl, h, rfl, fun p _ hn => ⟨hn, by simp⟩⟩
  | cons q qs ih =>
    obtain ⟨hnot, hnodup⟩ := List.nodup_cons.mp hnodup
    obtain ⟨hq, hne, hown⟩ := hqs q List.mem_cons_self
    obtain ⟨u, hu, hR, hdb', hacc, hgone, hframe⟩ := recover_one h hdb hq hne hown hw
    have hsame (r : Path) (hr : r ∈ qs) :
        u.fs.node r.unfinishedPath = s.fs.node r.unfinishedPath := by
      refine hframe _ (ne_unfinishedPath_of_plain hq r).symm fun he => hnot ?_
      rwa [← Path.unfinishedPath_injective he]
    obtain ⟨v, hv, hRv, haccv, hleft⟩ := ih hR hdb' (fun r hr => by
      obtain ⟨hr₁, hr₂, hr₃⟩ := hqs r (List.mem_cons_of_mem _ hr)
      exact ⟨hr₁, hr₂, (hsame r hr).symm ▸ hr₃⟩) hnodup
    refine ⟨v, ?_, hRv, haccv.trans hacc, fun p hp hn => ?_⟩
    · rw [List.flatMap_cons, TransitionSystem.exec_append, hu]
      exact hv
    · obtain ⟨hn', hnot'⟩ := hleft p hp hn
      have hpq : p ≠ q.unfinishedPath := fun he => hn' (he ▸ hgone)
      have hpq' : p ≠ q := by
        rintro rfl
        rw [hq] at hp
        cases hp
      refine ⟨hframe p hpq' hpq ▸ hn', fun r hr => ?_⟩
      rcases List.mem_cons.mp hr with rfl | hr
      · exact hpq
      · exact hnot' r hr

theorem mem_unfinished (h : Resumable s.fs) {q : Path} (hq : q ∈ unfinished s.fs) :
    q.isUnfinished = false ∧ q.isEmpty = false ∧ s.fs.node q.unfinishedPath ≠ none := by
  obtain ⟨p, hp, rfl⟩ := List.mem_map.mp hq
  obtain ⟨hkey, hunf⟩ := List.mem_filter.mp hp
  have hn : s.fs.node p ≠ none := Option.isSome_iff_ne_none.mp (AList.lookup_isSome.mpr hkey)
  obtain ⟨r, rfl, hr, hne, -⟩ := h p hunf hn
  rw [Path.finalPath_unfinishedPath]
  exact ⟨hr, hne, hn⟩

theorem nodup_unfinished (h : Resumable s.fs) : (unfinished s.fs).Nodup := by
  refine List.Nodup.map_on (fun p hp p' hp' he => ?_) (s.fs.nodes.nodupKeys.filter _)
  have hback {p : Path} (hp : p ∈ s.fs.nodes.keys.filter Path.isUnfinished) :
      p.finalPath.unfinishedPath = p := by
    obtain ⟨hkey, hunf⟩ := List.mem_filter.mp hp
    have hn : s.fs.node p ≠ none := Option.isSome_iff_ne_none.mp (AList.lookup_isSome.mpr hkey)
    obtain ⟨r, rfl, -⟩ := h p hunf hn
    rw [Path.finalPath_unfinishedPath]
  rw [← hback hp, ← hback hp', he]

end Recovery

/-- The run starts on a disk where nothing is unfinished or open and whose databases hold records. -/
structure CleanStart (s : State) : Prop where
  init : system.init s
  locks : s.fs.locks = []
  records : RecordsOnly s.fs
  finished : ∀ p, p.isUnfinished = true → s.fs.node p = none
  plain : s.file.filepath.isUnfinished = false

theorem recoverable_start {s : State} (h : CleanStart s) : Recoverable s.fs s := by
  refine ⟨⟨[], soundBeside_nil.mpr (sound_init h.init h.locks h.records h.plain)⟩,
    fun p hp hn => absurd (h.finished p hp) hn, fun hopen => absurd h.init.1 hopen⟩

/-- However often processes die, in whatever operation and between whichever of its calls, every
record that was accepted is in exactly one database. When nothing is open, a record file constructed
and destroyed for each unfinished directory gives all of them their final names, and every accepted
record is then in exactly one database, a committed one. -/
theorem crashes_lose_no_record {s t : State} {events : List Event} {answers : OpenAnswers}
    (hs : CleanStart s) (hcareful : system.StepsMeet (Careful s.fs) s events)
    (hrun : system.exec s events = some t) (hw : Willing answers) :
    (∀ r ∈ t.accepted, ∃! p, Stored t.fs p (recordBytes r)) ∧
    (t.file.db = none → ∃ u, system.exec t (recovery answers t.fs) = some u ∧
      u.accepted = t.accepted ∧ (∀ p, p.isUnfinished = true → u.fs.node p = none) ∧
      ∀ r ∈ t.accepted, ∃ p, Stored u.fs p (recordBytes r) ∧ p.isUnfinished = false ∧
        ∀ q, Stored u.fs q (recordBytes r) → q = p) := by
  have hR : Recoverable s.fs t := hcareful.invariant (recoverable_start hs)
    (fun _ _ _ h hc hst => recoverable_step h hc hst) hrun
  refine ⟨fun r hr => ?_, fun hdb => ?_⟩
  · obtain ⟨⟨opened, hk⟩, -⟩ := hR.safe
    exact hk.stored r hr
  obtain ⟨u, hu, hRu, hacc, hleft⟩ := recover_all hR hdb (fun q => mem_unfinished hR.resumable)
    (nodup_unfinished hR.resumable) hw
  have hfinished (p : Path) (hp : p.isUnfinished = true) : u.fs.node p = none := by
    by_contra hn
    obtain ⟨hn', hnot⟩ := hleft p hp hn
    obtain ⟨q, rfl, -⟩ := hR.resumable p hp hn'
    refine hnot q ?_ rfl
    rw [← q.finalPath_unfinishedPath]
    refine List.mem_map_of_mem (List.mem_filter.mpr ⟨?_, hp⟩)
    exact AList.lookup_isSome.mp (Option.isSome_iff_ne_none.mpr hn')
  refine ⟨u, hu, hacc, hfinished, fun r hr => ?_⟩
  obtain ⟨⟨opened, hk⟩, -⟩ := hRu.safe
  obtain ⟨p, hp, huniq⟩ := hk.stored r (hacc ▸ hr)
  refine ⟨p, hp, ?_, huniq⟩
  by_contra hunf
  obtain ⟨db, hdb, -⟩ := hp
  have hn := hfinished p (by simpa using hunf)
  simp [FileSystem.database, hn] at hdb

/-- The process dies in a roll when the old directory has its final name again; the next one writes to
a directory of its own and dies while that one is open. -/
def crashingRun : List Event :=
  [.call (.openDB true proceeding), .call (.write ⟨1, 0⟩ [65] noRoll),
    .crash (.write ⟨1, 8⟩ [66] (rollTo "b.ldb.d")) 3 ⟨⟨["records"], "c.ldb.d"⟩, "", true⟩,
    .call (.openDB true proceeding), .call (.write ⟨2, 0⟩ [67] noRoll),
    .call (.write ⟨2, 8⟩ [68] (rollTo "b.ldb.d")),
    .crash (.closeDB true) 1 ⟨⟨["records"], "d.ldb.d"⟩, "", true⟩]

theorem crashes_lose_no_record_crashingRun :
    let t := system.after (unopenedFile "a.ldb.d") crashingRun
    (∀ r ∈ t.accepted, ∃! p, Stored t.fs p (recordBytes r)) ∧
    (t.file.db = none → ∃ u, system.exec t (recovery proceeding t.fs) = some u ∧
      u.accepted = t.accepted ∧ (∀ p, p.isUnfinished = true → u.fs.node p = none) ∧
      ∀ r ∈ t.accepted, ∃ p, Stored u.fs p (recordBytes r) ∧ p.isUnfinished = false ∧
        ∀ q, Stored u.fs q (recordBytes r) → q = p) := by
  have hclean : CleanStart (unopenedFile "a.ldb.d") :=
    ⟨init_unopenedFile _, rfl, by rintro p db ⟨⟩, fun _ _ => rfl, by decide⟩
  exact crashes_lose_no_record hclean (by decide) (system.exec_after (by decide)) (by decide)

end RecordCrashes
end CrisCore
