import CrisCore.DirectoryCopy
import CrisCore.MessageRecorder
import CrisCore.RecordFileContents

/-! `MessageRecorder::GenerateSnapshotImpl`: every record file is closed, the record directory is
copied, and every record file is opened again. -/
namespace CrisCore

/-- How the world answers the closing and the reopening of one record file. -/
structure ReopenAnswers where
  commits : Bool
  checksOut : Bool
  opens : OpenAnswers
  deriving DecidableEq

def ReopenAnswers.succeeding : ReopenAnswers :=
  ⟨true, true, ⟨true, .proceeds, .proceeds, true⟩⟩

structure SnapshotAnswers where
  /-- In the order of `files_`; where there is no answer everything succeeds. -/
  reopens : List ReopenAnswers
  createDirectories : Bool
  /-- The copy ends with an error after so many entries. -/
  copyStopsAfter : Option ℕ
  deriving DecidableEq

def ReopenAnswers.Succeed (answers : ReopenAnswers) : Prop :=
  answers.commits = true ∧ answers.checksOut = true ∧ Willing answers.opens

instance (answers : ReopenAnswers) : Decidable answers.Succeed :=
  inferInstanceAs (Decidable (_ ∧ _ ∧ _))

def SnapshotAnswers.Succeed (answers : SnapshotAnswers) : Prop :=
  (∀ a ∈ answers.reopens, a.Succeed) ∧ answers.createDirectories = true ∧
    answers.copyStopsAfter = none

instance (answers : SnapshotAnswers) : Decidable answers.Succeed :=
  inferInstanceAs (Decidable (_ ∧ _ ∧ _))

namespace MessageRecorder
open RecordFile
variable {codec : MessageCodec}

/-- `CloseDB` of every file. -/
def closeFiles (answers : List ReopenAnswers) (fs : FileSystem) :
    List (Channel × RecordFile) → FileSystem × List (Channel × RecordFile)
  | [] => (fs, [])
  | (channel, file) :: rest =>
    let closed := file.closeDB fs (answers.headD .succeeding).commits
    let others := closeFiles answers.tail closed.1 rest
    (others.1, (channel, closed.2) :: others.2)

/-- `OpenDB` of every file; `none` where it throws. -/
def openFiles (answers : List ReopenAnswers) (fs : FileSystem) :
    List (Channel × RecordFile) → Option (FileSystem × List (Channel × RecordFile))
  | [] => some (fs, [])
  | (channel, file) :: rest =>
    let a := answers.headD .succeeding
    match file.openDB fs a.checksOut a.opens with
    | (.error _, _, _) => none
    | (.ok _, fs, file) =>
      (openFiles answers.tail fs rest).map fun others => (others.1, (channel, file) :: others.2)

/-- `GetRecordDir()`: the directory of the host is in it. -/
def getRecordDir (s : MessageRecorder codec) : List String :=
  s.recordDir.dropLast

/-- It returns whether the snapshot was generated. An exception of `OpenDB` leaves the job, and
with it the process ends. -/
def generateSnapshotImpl (s : MessageRecorder codec) (snapshotDir : List String)
    (answers : SnapshotAnswers) : Option (Bool × MessageRecorder codec) :=
  let closed := closeFiles answers.reopens s.fs s.files
  let copied := closed.1.copy s.getRecordDir snapshotDir answers.copyStopsAfter
  (openFiles answers.reopens copied.2 closed.2).map fun opened =>
    (answers.createDirectories && copied.1, { s with fs := opened.1, files := opened.2 })

section Files
variable {fs : FileSystem} {answers : List ReopenAnswers} {files : List (Channel × RecordFile)}
  {held : Path → List (Bytes × Bytes)}

theorem succeed_headD (h : ∀ a ∈ answers, a.Succeed) : (answers.headD .succeeding).Succeed := by
  cases answers with
  | nil => exact ⟨rfl, rfl, rfl, rfl, rfl⟩
  | cons a rest => exact h a List.mem_cons_self

theorem succeed_tail (h : ∀ a ∈ answers, a.Succeed) : ∀ a ∈ answers.tail, a.Succeed :=
  fun a ha => h a (List.mem_of_mem_tail ha)

def paths (files : List (Channel × RecordFile)) : List Path :=
  files.map fun g => g.2.filepath

def closedFile (g : Channel × RecordFile) : Channel × RecordFile :=
  (g.1, { g.2 with db := none })

def openedFile (g : Channel × RecordFile) : Channel × RecordFile :=
  (g.1, { g.2 with db := some ⟨g.2.filepath.unfinishedPath, false⟩ })

/-- The files are closed one after the other, and no file meets another. -/
theorem closeFiles_spec (ha : ∀ a ∈ answers, a.Succeed) (hnodup : (paths files).Nodup)
    (hplain : ∀ p ∈ paths files, p.isUnfinished = false) (hread : ∀ p, Readable (held p))
    (hopen : ∀ g ∈ files, HoldsOpen fs g.2 (held g.2.filepath)) :
    (closeFiles answers fs files).2 = files.map closedFile ∧
      (∀ g ∈ files, HoldsClosed (closeFiles answers fs files).1 (closedFile g).2
        (held g.2.filepath)) ∧
      (closeFiles answers fs files).1.links = fs.links ∧
      SameBut (paths files) fs (closeFiles answers fs files).1 := by
  induction files generalizing fs answers with
  | nil => exact ⟨rfl, by simp, rfl, fun _ _ => ⟨rfl, Iff.rfl⟩⟩
  | cons g rest ih =>
    obtain ⟨channel, f⟩ := g
    have hf := hplain f.filepath List.mem_cons_self
    have hplain' : ∀ p ∈ paths rest, p.isUnfinished = false :=
      fun p hp => hplain p (List.mem_cons_of_mem _ hp)
    obtain ⟨hnot, hnodup'⟩ := List.nodup_cons.mp hnodup
    have hcommits : (answers.headD .succeeding).commits = true := (succeed_headD ha).1
    obtain ⟨hclosed, hsame⟩ := (hopen _ List.mem_cons_self).closeDB (hread f.filepath)
    -- closing the first file leaves the others open
    have hrest : ∀ g ∈ rest, HoldsOpen (f.closeDB fs true).1 g.2 (held g.2.filepath) := by
      intro g hg
      have hmem : g.2.filepath ∈ paths rest := List.mem_map_of_mem hg
      refine (hopen g (List.mem_cons_of_mem _ hg)).congr hsame ?_ (hplain' _ hmem) (by simpa using hf)
      simpa using ne_of_mem_of_not_mem hmem hnot
    obtain ⟨h1, h2, h3, h4⟩ := ih (succeed_tail ha) hnodup' hplain' hrest
    rw [closeDB_file] at hclosed
    simp only [closeFiles, hcommits, closeDB_file, List.map_cons, h1]
    refine ⟨rfl, fun g hg => ?_, h3.trans (closeDB_links _ _ _), hsame.trans h4⟩
    rcases List.mem_cons.mp hg with rfl | hg
    · exact hclosed.congr h4 hnot hf hplain'
    · exact h2 g hg

/-- Every closed file can be opened again. -/
theorem openFiles_spec {parent : List String} (ha : ∀ a ∈ answers, a.Succeed)
    (hnodup : (paths files).Nodup) (hplain : ∀ p ∈ paths files, p.isUnfinished = false)
    (hne : ∀ p ∈ paths files, p.isEmpty = false)
    (hparent : ∀ p ∈ paths files, p.parent.dropLast.dropLast = parent)
    (hclosed : ∀ g ∈ files, HoldsClosed fs (closedFile g).2 (held g.2.filepath)) :
    ∃ fs', openFiles answers fs (files.map closedFile) = some (fs', files.map openedFile) ∧
      (∀ g ∈ files, HoldsOpen fs' (openedFile g).2 (held g.2.filepath)) ∧
      (∀ link ∈ fs'.links, link ∈ fs.links ∨ link.1.parent = parent) ∧
      SameBut (paths files) fs fs' := by
  induction files generalizing fs answers with
  | nil => exact ⟨fs, rfl, by simp, fun _ h => Or.inl h, fun _ _ => ⟨rfl, Iff.rfl⟩⟩
  | cons g rest ih =>
    obtain ⟨channel, f⟩ := g
    have hf := hplain f.filepath List.mem_cons_self
    have hplain' : ∀ p ∈ paths rest, p.isUnfinished = false :=
      fun p hp => hplain p (List.mem_cons_of_mem _ hp)
    obtain ⟨hnot, hnodup'⟩ := List.nodup_cons.mp hnodup
    obtain ⟨-, hchecks, hw⟩ := succeed_headD ha
    obtain ⟨g, hopen, hholds, hsame, hlinks⟩ :=
      (hclosed _ List.mem_cons_self).openDB (hne f.filepath List.mem_cons_self) hw
    -- opening the first file leaves the others closed
    have hrest : ∀ g' ∈ rest, HoldsClosed g (closedFile g').2 (held g'.2.filepath) := by
      intro g' hg'
      have hmem : g'.2.filepath ∈ paths rest := List.mem_map_of_mem hg'
      refine (hclosed g' (List.mem_cons_of_mem _ hg')).congr hsame ?_ (hplain' _ hmem)
        (by simpa [closedFile] using hf)
      simpa [closedFile] using ne_of_mem_of_not_mem hmem hnot
    obtain ⟨fs', h1, h2, h3, h4⟩ := ih (succeed_tail ha) hnodup' hplain'
      (fun p hp => hne p (List.mem_cons_of_mem _ hp))
      (fun p hp => hparent p (List.mem_cons_of_mem _ hp)) hrest
    refine ⟨fs', ?_, fun g' hg' => ?_, fun link hl => ?_, hsame.trans h4⟩
    · simp only [openFiles, List.map_cons, closedFile, hchecks]
      simp only [closedFile] at hopen
      rw [hopen]
      simp only [h1, Option.map_some]
      rfl
    · rcases List.mem_cons.mp hg' with rfl | hg'
      · exact hholds.congr h4 hnot hf hplain'
      · exact h2 g' hg'
    -- every link is made in the directory above the record directory
    · rcases h3 link hl with hl | hl
      · refine (hlinks link hl).imp id fun hp => ?_
        exact hp.trans (hparent f.filepath List.mem_cons_self)
      · exact Or.inr hl

end Files
end MessageRecorder
end CrisCore
