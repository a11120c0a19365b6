import CrisCore.RecordFileCommit
import CrisCore.RecordReplay
import CrisCore.RecorderSnapshot

/-! Runs of a recorder with snapshots between its other steps: which records are in which
directory, and that snapshots do not matter for it. -/
namespace CrisCore.RecorderRun
open RecordFile MessageRecorder

variable {codec : MessageCodec}

structure State (codec : MessageCodec) where
  recorder : MessageRecorder codec
  /-- History: the records that were put, each with the final name of its database. -/
  puts : List (Path × Written codec)

inductive Op (codec : MessageCodec)
  | record (op : MessageRecorder.Op codec)
  /-- The job of a snapshot on `record_strand_`, under `snapshot_mtx_`. -/
  | generateSnapshot (snapshotDir : List String) (answers : SnapshotAnswers)

def Op.isRecord : Op codec → Bool
  | .record _ => true
  | .generateSnapshot _ _ => false

/-- `MakeNewRecordDirName` returns `DefaultLevelDBDir()`. -/
def namedByTime : MessageRecorder.Op codec → Bool
  | .deliver _ _ answers =>
    !answers.needToRoll || hasSuffix answers.newRecordDirName kLevelDBDirSuffix
  | .registerChannel .. | .makeKey _ => true

/-- The record file that the subscription of the channel writes to. -/
def fileOf (files : List (Channel × RecordFile)) (channel : Channel) : Option RecordFile :=
  (files.find? fun g => g.1 = channel).map Prod.snd

/-- The records put by a step, with the files as they are after it. -/
def newPuts (s t : MessageRecorder codec) : List (Path × Written codec) :=
  (t.written.drop s.written.length).filterMap fun w =>
    (fileOf t.files w.channel).map fun file => (file.filepath, w)

def step (s : State codec) : Op codec → Option (State codec)
  | .record op =>
    if namedByTime op then
      (s.recorder.step op).map fun t => ⟨t, s.puts ++ newPuts s.recorder t⟩
    else none
  | .generateSnapshot snapshotDir answers =>
    (s.recorder.generateSnapshotImpl snapshotDir answers).map fun result =>
      { s with recorder := result.2 }

/-- Nothing is in the directory, and it is apart from the record directory. -/
def FreshSnapshotDir (s : MessageRecorder codec) (snapshotDir : List String) : Prop :=
  s.fs.Unused snapshotDir ∧ ¬ s.getRecordDir <+: snapshotDir ∧ ¬ snapshotDir <+: s.getRecordDir

instance (s : MessageRecorder codec) (snapshotDir : List String) :
    Decidable (FreshSnapshotDir s snapshotDir) :=
  inferInstanceAs (Decidable (_ ∧ _ ∧ _))

/-- A step in which the operations of the file system succeed, and opens unless the database is
open already. -/
def Succeeds (s : State codec) : Op codec → Prop
  | .record (.registerChannel channel linkname utcTime renames answers) =>
    renames = true ∧ Willing answers ∧
      (s.recorder.newFile channel linkname utcTime).filepath.unfinishedPath ∉ s.recorder.fs.locks
  | .record (.deliver _ _ answers) =>
    answers.needToRoll = true → answers.renames = true ∧ Willing answers.opens
  | .record (.makeKey _) => True
  | .generateSnapshot snapshotDir answers =>
    answers.Succeed ∧ FreshSnapshotDir s.recorder snapshotDir

/-- No roll takes the name of a directory that is there: what `MakeNewRecordDirName` returns is
new, or the name of a database that is open. -/
def RollsToNewName (s : State codec) : Op codec → Prop
  | .record (.deliver m _ answers) =>
    ∀ file ∈ fileOf s.recorder.files m.channel, file.rollingHelper = true →
      answers.needToRoll = true →
      (file.newFilepath answers.newRecordDirName).unfinishedPath ∈ s.recorder.fs.locks ∨
        s.recorder.fs.node (file.newFilepath answers.newRecordDirName) = none
  | _ => True

instance (s : State codec) : (op : Op codec) → Decidable (Succeeds s op)
  | .record (.registerChannel ..) => inferInstanceAs (Decidable (_ ∧ _ ∧ _))
  | .record (.deliver ..) => inferInstanceAs (Decidable (_ → _))
  | .record (.makeKey _) => inferInstanceAs (Decidable True)
  | .generateSnapshot .. => inferInstanceAs (Decidable (_ ∧ _))

instance (s : State codec) : (op : Op codec) → Decidable (RollsToNewName s op)
  | .record (.deliver m _ answers) =>
    inferInstanceAs (Decidable (∀ file ∈ fileOf s.recorder.files m.channel,
      file.rollingHelper = true → answers.needToRoll = true → _ ∨ _))
  | .record (.registerChannel ..) | .record (.makeKey _) | .generateSnapshot .. =>
    inferInstanceAs (Decidable True)

/-- The recorder without a disk: where the records of each channel go. -/
structure Ledger (codec : MessageCodec) where
  recordDir : List String
  rolling : Bool
  globalCounters : RecordFileKey.Counters
  files : List (Channel × RecordFile)
  puts : List (Path × Written codec)

def State.ledger (s : State codec) : Ledger codec :=
  ⟨s.recorder.recordDir, s.recorder.rolling, s.recorder.globalCounters, s.recorder.files, s.puts⟩

namespace Ledger

/-- The record file after the roll in a `Write`, if there is one. A roll to the name of an open
database fails, and leaves `legacy_` set. -/
def rolled (files : List (Channel × RecordFile)) (f : RecordFile) (answers : WriteAnswers) :
    RecordFile :=
  if f.rollingHelper && answers.needToRoll then
    if f.newFilepath answers.newRecordDirName ∈ paths files then { f with legacy := true }
    else f.rolledTo (f.newFilepath answers.newRecordDirName)
  else f

/-- The record steps; a snapshot is none of them. -/
def next (l : Ledger codec) : MessageRecorder.Op codec → Option (Ledger codec)
  | .registerChannel channel linkname utcTime _ _ =>
    let f := unopened ⟨l.recordDir ++ channel.dir, utcTime ++ kLevelDBDirSuffix⟩ linkname l.rolling
    some { l with files := l.files ++ [openedFile (channel, f)] }
  | .deliver m now answers =>
    (fileOf l.files m.channel).map fun f =>
      let made := RecordFileKey.make now l.globalCounters
      let file := rolled l.files f answers
      { l with
        globalCounters := made.2
        files := updateFile m.channel file l.files
        puts := if answers.put then l.puts ++ [(file.filepath, { m with key := made.1 })]
          else l.puts }
  | .makeKey now => some { l with globalCounters := (RecordFileKey.make now l.globalCounters).2 }

end Ledger

/-- The records put into the database of a final name, and what the database makes of them. -/
def recordsAt (puts : List (Path × Written codec)) (p : Path) : List (Bytes × Bytes) :=
  (puts.filter fun e => e.1 = p).map fun e => e.2.entry

def contents (puts : List (Path × Written codec)) (p : Path) : List (Bytes × Bytes) :=
  OrderedStore.ofPuts (List.compareLex compare) (recordsAt puts p)

/-- Before the first file is created: only what earlier recorders of the process have committed is
in the record directory, if anything. -/
structure Start (s : State codec) : Prop where
  files : s.recorder.files = []
  committed : ∀ p, s.recorder.getRecordDir <+: p.parent →
    s.recorder.fs.node p = committed (contents s.puts p) ∧ p ∉ s.recorder.fs.locks
  links : ∀ link ∈ s.recorder.fs.links, s.recorder.getRecordDir <+: link.1.parent →
    link.1.parent = s.recorder.recordDir
  names : ∀ e ∈ s.puts, e.1.parent = s.recorder.channelDir e.2.channel ∧
    e.1.isUnfinished = false
  written : s.puts.map Prod.snd = s.recorder.written

def system (codec : MessageCodec) : TransitionSystem (State codec) (Op codec) where
  init := Start
  step := step

/-- The record directory in terms of the ledger: an open record file has an unfinished directory
and no other, and what is finished holds the records put there. -/
structure Keeps (s : State codec) : Prop where
  parent : ∀ g ∈ s.recorder.files, g.2.filepath.parent = s.recorder.channelDir g.1
  suffix : ∀ g ∈ s.recorder.files, hasSuffix g.2.filepath.name kLevelDBDirSuffix = true
  apart : (paths s.recorder.files).Nodup
  opened : ∀ g ∈ s.recorder.files,
    HoldsOpen s.recorder.fs g.2 (contents s.puts g.2.filepath)
  finished : ∀ p, s.recorder.getRecordDir <+: p.parent → p.isUnfinished = false →
    p ∉ paths s.recorder.files → s.recorder.fs.node p = committed (contents s.puts p)
  unfinished : ∀ p, s.recorder.getRecordDir <+: p.parent → p.isUnfinished = true →
    (∀ q ∈ paths s.recorder.files, p ≠ q.unfinishedPath) →
    s.recorder.fs.node p = none ∧ p ∉ s.recorder.fs.locks
  links : ∀ link ∈ s.recorder.fs.links, s.recorder.getRecordDir <+: link.1.parent →
    link.1.parent = s.recorder.recordDir
  names : ∀ e ∈ s.puts, e.1.parent = s.recorder.channelDir e.2.channel ∧
    e.1.isUnfinished = false
  written : s.puts.map Prod.snd = s.recorder.written

section Facts
variable {s t : State codec} {puts : List (Path × Written codec)} {p : Path}

theorem isUnfinished_of_suffix (h : hasSuffix p.name kLevelDBDirSuffix = true) :
    p.isUnfinished = false := by
  by_contra hu
  have hu : hasSuffix p.name ".saving" = true := by simpa [Path.isUnfinished] using hu
  simp only [hasSuffix, List.isSuffixOf_iff_suffix] at h hu
  have hs := List.suffix_of_suffix_length_le h hu (by decide)
  revert hs
  decide

theorem readable_contents (puts : List (Path × Written codec)) (p : Path) :
    Readable (contents puts p) := by
  intro e he
  obtain ⟨w, -, rfl⟩ := List.mem_map.mp (OrderedStore.mem_of_mem_ofPuts he)
  exact RecordFileKey.isSome_fromBytes_toBytes _

theorem contents_eq_nil_of_not_mem (h : ∀ e ∈ puts, e.1 ≠ p) : contents puts p = [] := by
  have hnil : puts.filter (fun e => e.1 = p) = [] := by
    simpa [List.filter_eq_nil_iff] using h
  rw [contents, recordsAt, hnil]
  rfl

theorem contents_append (puts : List (Path × Written codec)) (e : Path × Written codec) (p : Path) :
    contents (puts ++ [e]) p =
      if e.1 = p then OrderedStore.put (List.compareLex compare) e.2.key.toBytes
        (codec.messageToStr e.2.message) (contents puts p)
      else contents puts p := by
  simp only [contents, recordsAt, List.filter_append, List.map_append]
  split_ifs with h
  · simp only [List.filter_cons, h, decide_true, if_true, List.filter_nil, List.map_cons,
      List.map_nil, OrderedStore.ofPuts_append]
    rfl
  · simp [h]

theorem under_getRecordDir (s : MessageRecorder codec) (channel : Channel) :
    s.getRecordDir <+: s.channelDir channel :=
  (List.dropLast_prefix _).trans (List.prefix_append _ _)

theorem channelDir_ne_recordDir (s : MessageRecorder codec) (channel : Channel) :
    s.channelDir channel ≠ s.recordDir := by
  intro h
  have hl := congrArg List.length h
  simp [channelDir, Channel.dir] at hl

theorem Keeps.plain (h : Keeps s) : ∀ p ∈ paths s.recorder.files, p.isUnfinished = false := by
  intro p hp
  obtain ⟨g, hg, rfl⟩ := List.mem_map.mp hp
  exact isUnfinished_of_suffix (h.suffix g hg)

theorem Keeps.under (h : Keeps s) : ∀ p ∈ paths s.recorder.files,
    s.recorder.getRecordDir <+: p.parent := by
  intro p hp
  obtain ⟨g, hg, rfl⟩ := List.mem_map.mp hp
  rw [h.parent g hg]
  exact under_getRecordDir _ _

/-- Nothing was put under an unfinished name. -/
theorem Keeps.contents_unfinished (h : Keeps s) (hp : p.isUnfinished = true) :
    contents s.puts p = [] := by
  refine contents_eq_nil_of_not_mem fun e he hep => ?_
  rw [← hep, (h.names e he).2] at hp
  cases hp

/-- A name whose unfinished path is not locked is no open record file's. -/
theorem Keeps.not_mem_paths (h : Keeps s) (hp : p.unfinishedPath ∉ s.recorder.fs.locks) :
    p ∉ paths s.recorder.files := by
  intro hmem
  obtain ⟨g, hg, rfl⟩ := List.mem_map.mp hmem
  exact hp (h.opened g hg).locked

theorem Keeps.locked_iff (h : Keeps s) (hu : s.recorder.getRecordDir <+: p.parent) :
    p.unfinishedPath ∈ s.recorder.fs.locks ↔ p ∈ paths s.recorder.files := by
  refine ⟨fun hp => ?_, fun hp => by_contra fun hl => h.not_mem_paths hl hp⟩
  by_contra hmem
  refine (h.unfinished p.unfinishedPath hu (by simp) fun q hq he => ?_).2 hp
  exact hmem (Path.unfinishedPath_injective he ▸ hq)

/-- A name that is not in use holds the records that were put there, in a closed state. -/
theorem Keeps.holdsClosed (h : Keeps s) {f : RecordFile} (hdb : f.db = none)
    (hplain : f.filepath.isUnfinished = false)
    (hu : s.recorder.getRecordDir <+: f.filepath.parent) (hmem : f.filepath ∉ paths s.recorder.files) :
    HoldsClosed s.recorder.fs f (contents s.puts f.filepath) := by
  have hown := h.unfinished f.filepath.unfinishedPath hu (by simp) fun q hq he =>
    hmem (Path.unfinishedPath_injective he ▸ hq)
  exact ⟨hdb, hown.1, h.finished f.filepath hu hplain hmem, hown.2⟩

end Facts

/-- What a step leaves to the next one: the record directory goes with the ledger, and nothing
differs outside of it. -/
structure Follows (s t : State codec) : Prop where
  keeps : Keeps t
  recordDir : t.recorder.recordDir = s.recorder.recordDir
  outside : ∀ p, ¬ s.recorder.getRecordDir <+: p.parent →
    t.recorder.fs.node p = s.recorder.fs.node p

section Steps
variable {s t u : State codec} {before after : List (Channel × RecordFile)}
  {g : Channel × RecordFile} {fs' : FileSystem}

theorem Follows.trans (h : Follows s t) (h' : Follows t u) : Follows s u := by
  have hdir : t.recorder.getRecordDir = s.recorder.getRecordDir :=
    congrArg List.dropLast h.recordDir
  refine ⟨h'.keeps, h'.recordDir.trans h.recordDir, fun p hp => ?_⟩
  exact (h'.outside p (hdir ▸ hp)).trans (h.outside p hp)

/-- Keys are made without the disk. -/
theorem Follows.withCounters (h : Follows s t) (counters : RecordFileKey.Counters) :
    Follows s { t with recorder := { t.recorder with globalCounters := counters } } where
  keeps := { h.keeps with }
  recordDir := h.recordDir
  outside := h.outside

/-- A step that touches the names of record files only leaves the rest of the disk. -/
theorem node_outside {root : List String} {fs : FileSystem} {ps : List Path}
    (hs : SameBut ps fs fs') (hps : ∀ p ∈ ps, root <+: p.parent) {p : Path}
    (hp : ¬ root <+: p.parent) : fs'.node p = fs.node p := by
  refine (hs p fun q hq => ⟨?_, ?_⟩).1
  · rintro rfl
    exact hp (hps p hq)
  · rintro rfl
    exact hp (hps q hq)

theorem mem_paths_append {p : Path} :
    p ∈ paths (before ++ g :: after) ↔
      p ∈ paths before ∨ p = g.2.filepath ∨ p ∈ paths after := by
  simp [paths, eq_comm]

/-- `CreateFile`: the new record file has a name that no other has. -/
theorem follows_registerChannel (h : Keeps s) {channel : Channel} {linkname utcTime : String}
    {renames : Bool} {answers : OpenAnswers}
    (hs : Succeeds s (.record (.registerChannel channel linkname utcTime renames answers))) :
    ∃ t, step s (.record (.registerChannel channel linkname utcTime renames answers)) = some t ∧
      s.ledger.next (.registerChannel channel linkname utcTime renames answers) = some t.ledger ∧
      Follows s t := by
  obtain ⟨rfl, hw, hlock⟩ := hs
  set f := s.recorder.newFile channel linkname utcTime with hf
  have hsuffix : hasSuffix f.filepath.name kLevelDBDirSuffix = true := hasSuffix_append _ _
  have hplain := isUnfinished_of_suffix hsuffix
  have hunder : s.recorder.getRecordDir <+: f.filepath.parent := under_getRecordDir _ channel
  have hnew := h.not_mem_paths hlock
  have hne : f.filepath.isEmpty = false := by
    simp [hf, newFile, unopened, Path.isEmpty, channelDir, Channel.dir]
  obtain ⟨fs', hopen, hholds, hsame, hlinks⟩ :=
    (h.holdsClosed (f := f) rfl hplain hunder hnew).openDB hne hw
  let t : State codec := { s with recorder := { s.recorder with
    fs := fs'
    files := s.recorder.files ++ [openedFile (channel, f)] } }
  refine ⟨t, ?_, rfl, ?_, rfl, ?_⟩
  · simp only [step, namedByTime, if_true, MessageRecorder.step, ← hf, hopen, Option.map_some]
    simp [newPuts, t, openedFile]
  · have hpaths (p : Path) : p ∈ paths t.recorder.files ↔
        p ∈ paths s.recorder.files ∨ p = f.filepath := by
      simp [t, paths, openedFile, eq_comm]
    have hsingle : ∀ q ∈ [f.filepath], q.isUnfinished = false := by simpa using hplain
    -- what holds of the other files holds still, and of the new one by the open
    refine ⟨fun g hg => ?_, fun g hg => ?_, ?_, fun g hg => ?_, fun p hp hfin hmem => ?_,
      fun p hp hunf hmem => ?_, fun link hl hp => ?_, h.names, h.written⟩
    · rcases List.mem_append.mp hg with hg | hg
      · exact h.parent g hg
      · rw [List.mem_singleton.mp hg]
        rfl
    · rcases List.mem_append.mp hg with hg | hg
      · exact h.suffix g hg
      · rw [List.mem_singleton.mp hg]
        exact hsuffix
    -- the new name is no other file's
    · have hcat : paths t.recorder.files = paths s.recorder.files ++ [f.filepath] := by
        simp [t, paths, openedFile]
      rw [hcat, List.nodup_append]
      refine ⟨h.apart, by simp, fun p hp q hq hpq => hnew ?_⟩
      rw [← List.mem_singleton.mp hq, ← hpq]
      exact hp
    · rcases List.mem_append.mp hg with hg | hg
      · have hmem : g.2.filepath ∈ paths s.recorder.files := List.mem_map_of_mem hg
        refine (h.opened g hg).congr hsame ?_ (h.plain _ hmem) hsingle
        simpa using ne_of_mem_of_not_mem hmem hnew
      · rw [List.mem_singleton.mp hg]
        exact hholds
    · rw [hpaths, not_or] at hmem
      refine ((hsame p fun q hq => ?_).1).trans (h.finished p hp hfin hmem.1)
      rw [List.mem_singleton.mp hq]
      exact ⟨hmem.2, ne_unfinishedPath hfin⟩
    · have hold := h.unfinished p hp hunf fun q hq => hmem q ((hpaths q).mpr (Or.inl hq))
      have hat := hsame p fun q hq => by
        rw [List.mem_singleton.mp hq]
        exact ⟨ne_of_isUnfinished hunf hplain, hmem _ ((hpaths _).mpr (Or.inr rfl))⟩
      exact ⟨hat.1.trans hold.1, hat.2.not.mpr hold.2⟩
    · rcases hlinks link hl with hl | hl
      · exact h.links link hl hp
      · rw [hl]
        simp [hf, newFile, unopened, channelDir, Channel.dir, List.dropLast_append_of_ne_nil, t]
  · exact fun p hp => node_outside hsame (by simpa using hunder) hp

/-- The files around one of them have other names. -/
theorem Keeps.others (h : Keeps s) (hfiles : s.recorder.files = before ++ g :: after) :
    ∀ g' ∈ before ++ after, g' ∈ s.recorder.files ∧ g'.2.filepath ≠ g.2.filepath := by
  have hnodup := h.apart
  rw [hfiles] at hnodup
  simp only [paths, List.map_append, List.map_cons] at hnodup
  have hnot := (List.nodup_cons.mp (List.nodup_middle.mp hnodup)).1
  intro g' hg'
  refine ⟨?_, fun he => hnot ?_⟩
  · rw [hfiles]
    rcases List.mem_append.mp hg' with hg' | hg'
    · exact List.mem_append_left _ hg'
    · exact List.mem_append_right _ (List.mem_cons_of_mem _ hg')
  · rw [← List.map_append, ← he]
    exact List.mem_map_of_mem hg'

theorem Keeps.mem_replaced (h : Keeps s) (hfiles : s.recorder.files = before ++ g :: after)
    {new g' : Channel × RecordFile} (hg' : g' ∈ before ++ new :: after) :
    g' = new ∨ (g' ∈ s.recorder.files ∧ g'.2.filepath ≠ g.2.filepath) := by
  rcases List.mem_append.mp hg' with hg' | hg'
  · exact Or.inr (h.others hfiles g' (List.mem_append_left _ hg'))
  · rcases List.mem_cons.mp hg' with rfl | hg'
    · exact Or.inl rfl
    · exact Or.inr (h.others hfiles g' (List.mem_append_right _ hg'))

theorem Keeps.mem_paths_replaced (h : Keeps s) (hfiles : s.recorder.files = before ++ g :: after)
    {new : Channel × RecordFile} {p : Path} :
    p ∈ paths (before ++ new :: after) ↔
      p = new.2.filepath ∨ (p ∈ paths s.recorder.files ∧ p ≠ g.2.filepath) := by
  constructor
  · intro hp
    obtain ⟨g', hg', rfl⟩ := List.mem_map.mp hp
    rcases h.mem_replaced hfiles hg' with rfl | ⟨hold, hne⟩
    · exact Or.inl rfl
    · exact Or.inr ⟨List.mem_map_of_mem hold, hne⟩
  · rintro (hp | ⟨hp, hpg⟩)
    · exact mem_paths_append.mpr (Or.inr (Or.inl hp))
    · rw [hfiles] at hp
      rcases mem_paths_append.mp hp with hp | hp | hp
      · exact mem_paths_append.mpr (Or.inl hp)
      · exact absurd hp hpg
      · exact mem_paths_append.mpr (Or.inr (Or.inr hp))

theorem Keeps.nodup_replaced (h : Keeps s) (hfiles : s.recorder.files = before ++ g :: after)
    {new : Channel × RecordFile} (hnew : new.2.filepath ∉ paths s.recorder.files) :
    (paths (before ++ new :: after)).Nodup := by
  have hnodup := h.apart
  rw [hfiles] at hnodup hnew
  simp only [paths, List.map_append, List.map_cons] at hnodup hnew ⊢
  have hrest := (List.nodup_cons.mp (List.nodup_middle.mp hnodup)).2
  refine List.nodup_middle.mpr (List.nodup_cons.mpr ⟨fun hp => hnew ?_, hrest⟩)
  rcases List.mem_append.mp hp with hp | hp
  · exact List.mem_append_left _ hp
  · exact List.mem_append_right _ (List.mem_cons_of_mem _ hp)

/-- The state in which a write has changed the file system and one file. -/
def State.withFile (s : State codec) (fs' : FileSystem)
    (files : List (Channel × RecordFile)) : State codec :=
  { s with recorder := { s.recorder with fs := fs', files := files } }

/-- A roll to a name that is not there. -/
theorem follows_rolledTo (h : Keeps s) (hfiles : s.recorder.files = before ++ g :: after)
    {path : Path} (hparent : path.parent = g.2.filepath.parent)
    (hsuffix : hasSuffix path.name kLevelDBDirSuffix = true)
    (hnew : path ∉ paths s.recorder.files) (hfin : s.recorder.fs.node path = none)
    (hlinks : fs'.links = s.recorder.fs.links) (hopen : HoldsOpen fs' (g.2.rolledTo path) [])
    (hclosed : HoldsClosed fs' { g.2 with db := none } (contents s.puts g.2.filepath))
    (hsame : SameBut [path, g.2.filepath] s.recorder.fs fs') :
    Follows s (s.withFile fs' (before ++ (g.1, g.2.rolledTo path) :: after)) := by
  have hg : g ∈ s.recorder.files := by simp [hfiles]
  have hgp : g.2.filepath ∈ paths s.recorder.files := List.mem_map_of_mem hg
  have hplain := isUnfinished_of_suffix hsuffix
  have hgplain := h.plain _ hgp
  have hgunder := h.under _ hgp
  have hunder : s.recorder.getRecordDir <+: path.parent := hparent ▸ hgunder
  have hpair : ∀ q ∈ [path, g.2.filepath], q.isUnfinished = false := by
    simpa using ⟨hplain, hgplain⟩
  -- no record was put under the new name, as it would have been committed
  have hempty : contents s.puts path = [] := by
    have hc := h.finished path hunder hplain hnew
    rw [hfin, committed] at hc
    by_contra hne
    rw [if_neg hne] at hc
    cases hc
  have hmem (p : Path) : p ∈ paths (before ++ (g.1, g.2.rolledTo path) :: after) ↔
      p = path ∨ (p ∈ paths s.recorder.files ∧ p ≠ g.2.filepath) :=
    h.mem_paths_replaced hfiles
  refine ⟨⟨fun g' hg' => ?_, fun g' hg' => ?_, ?_, fun g' hg' => ?_, fun p hp hfin' hno => ?_,
    fun p hp hunf hno => ?_, fun link hl => h.links link (hlinks ▸ hl), h.names, h.written⟩, rfl,
    fun p hp => node_outside hsame (by simpa using ⟨hunder, hgunder⟩) hp⟩
  · rcases h.mem_replaced hfiles hg' with rfl | ⟨hg', -⟩
    · exact hparent.trans (h.parent g hg)
    · exact h.parent g' hg'
  · rcases h.mem_replaced hfiles hg' with rfl | ⟨hg', -⟩
    · exact hsuffix
    · exact h.suffix g' hg'
  · exact h.nodup_replaced hfiles hnew
  · rcases h.mem_replaced hfiles hg' with rfl | ⟨hg', hne⟩
    · change HoldsOpen fs' (g.2.rolledTo path) (contents s.puts path)
      rwa [hempty]
    · have hp : g'.2.filepath ∈ paths s.recorder.files := List.mem_map_of_mem hg'
      refine (h.opened g' hg').congr hsame ?_ (h.plain _ hp) hpair
      simpa using ⟨ne_of_mem_of_not_mem hp hnew, hne⟩
  -- a finished name is the closed one or was finished before
  · change fs'.node p = committed (contents s.puts p)
    change p ∉ paths (before ++ _ :: after) at hno
    rw [hmem, not_or, not_and_not_right] at hno
    by_cases hpg : p = g.2.filepath
    · rw [hpg]
      exact hclosed.final
    · refine ((hsame p fun q hq => ?_).1).trans (h.finished p hp hfin' fun hp => hpg (hno.2 hp))
      refine ⟨?_, ne_unfinishedPath hfin'⟩
      rcases List.mem_pair.mp hq with rfl | rfl
      · exact hno.1
      · exact hpg
  · change fs'.node p = none ∧ p ∉ fs'.locks
    by_cases hpg : p = g.2.filepath.unfinishedPath
    · rw [hpg]
      exact ⟨hclosed.unfinished, hclosed.unlocked⟩
    · have hold := h.unfinished p hp hunf fun q hq => by
        by_cases hqg : q = g.2.filepath
        · exact hqg ▸ hpg
        · exact hno q ((hmem q).mpr (Or.inr ⟨hq, hqg⟩))
      have hat := hsame p fun q hq => by
        refine ⟨ne_of_isUnfinished hunf (hpair q hq), ?_⟩
        rcases List.mem_pair.mp hq with rfl | rfl
        · exact hno q ((hmem q).mpr (Or.inl rfl))
        · exact hpg
      exact ⟨hat.1.trans hold.1, hat.2.not.mpr hold.2⟩

/-- A file that only takes over `legacy_` keeps everything. -/
theorem keeps_withLegacy (h : Keeps s) (hfiles : s.recorder.files = before ++ g :: after)
    (legacy : Bool) :
    Keeps (s.withFile s.recorder.fs (before ++ (g.1, { g.2 with legacy := legacy }) :: after)) := by
  have hpaths : paths (before ++ (g.1, { g.2 with legacy := legacy }) :: after) =
      paths s.recorder.files := by
    simp [hfiles, paths]
  have heach : ∀ g' ∈ before ++ (g.1, { g.2 with legacy := legacy }) :: after,
      ∃ g'' ∈ s.recorder.files, g'.1 = g''.1 ∧ g'.2.filepath = g''.2.filepath ∧
        g'.2.db = g''.2.db := by
    intro g' hg'
    rw [hfiles]
    rcases List.mem_append.mp hg' with hg' | hg'
    · exact ⟨g', List.mem_append_left _ hg', rfl, rfl, rfl⟩
    · rcases List.mem_cons.mp hg' with rfl | hg'
      · exact ⟨g, by simp, rfl, rfl, rfl⟩
      · exact ⟨g', by simp [hg'], rfl, rfl, rfl⟩
  refine ⟨fun g' hg' => ?_, fun g' hg' => ?_, ?_, fun g' hg' => ?_, fun p hp hfin hno => ?_,
    fun p hp hunf hno => ?_, h.links, h.names, h.written⟩
  · obtain ⟨g'', hg'', hc, hf, -⟩ := heach g' hg'
    rw [hf, hc]
    exact h.parent g'' hg''
  · obtain ⟨g'', hg'', -, hf, -⟩ := heach g' hg'
    rw [hf]
    exact h.suffix g'' hg''
  · change (paths (before ++ _ :: after)).Nodup
    rw [hpaths]
    exact h.apart
  · obtain ⟨g'', hg'', -, hf, hd⟩ := heach g' hg'
    obtain ⟨h1, h2, h3, h4⟩ := h.opened g'' hg''
    rw [← hf] at h1 h2 h3 h4
    exact ⟨hd.trans h1, h2, h3, h4⟩
  · exact h.finished p hp hfin (hpaths ▸ hno)
  · exact h.unfinished p hp hunf (hpaths ▸ hno)

/-- `Put` adds a record to the open database. -/
theorem follows_put (h : Keeps s) (hg : g ∈ s.recorder.files) (w : Written codec)
    (hw : w.channel = g.1) :
    Follows s
      { recorder := { s.recorder with
          fs := s.recorder.fs.put g.2.filepath.unfinishedPath w.key.toBytes
            (codec.messageToStr w.message)
          written := s.recorder.written ++ [w] }
        puts := s.puts ++ [(g.2.filepath, w)] } := by
  have hgp : g.2.filepath ∈ paths s.recorder.files := List.mem_map_of_mem hg
  have hgplain := h.plain _ hgp
  obtain ⟨hholds, hsame⟩ := (h.opened g hg).put w.key.toBytes (codec.messageToStr w.message)
  have hkeep {p : Path} (hp : p ≠ g.2.filepath) :
      contents (s.puts ++ [(g.2.filepath, w)]) p = contents s.puts p := by
    rw [contents_append, if_neg fun he => hp he.symm]
  refine ⟨⟨h.parent, h.suffix, h.apart, fun g' hg' => ?_, fun p hp hfin hno => ?_,
    fun p hp hunf hno => ?_, ?_, fun e he => ?_, ?_⟩, rfl,
    fun p hp => node_outside hsame (by simpa using h.under _ hgp) hp⟩
  -- the record is in the one database, and in the ledger under its name
  · by_cases hpg : g'.2.filepath = g.2.filepath
    · have hgg : g' = g := List.inj_on_of_nodup_map h.apart hg' hg hpg
      rw [hgg, contents_append, if_pos rfl]
      exact hholds
    · rw [hkeep hpg]
      refine (h.opened g' hg').congr hsame (by simpa using hpg) ?_ (by simpa using hgplain)
      exact h.plain _ (List.mem_map_of_mem hg')
  · have hpg : p ≠ g.2.filepath := fun he => hno (he ▸ hgp)
    rw [hkeep hpg]
    refine ((hsame p fun q hq => ?_).1).trans (h.finished p hp hfin hno)
    rw [List.mem_singleton.mp hq]
    exact ⟨hpg, ne_unfinishedPath hfin⟩
  · have hold := h.unfinished p hp hunf hno
    have hat := hsame p fun q hq => by
      rw [List.mem_singleton.mp hq]
      exact ⟨ne_of_isUnfinished hunf hgplain, hno _ hgp⟩
    exact ⟨hat.1.trans hold.1, hat.2.not.mpr hold.2⟩
  · have hlinks : (s.recorder.fs.put g.2.filepath.unfinishedPath w.key.toBytes
        (codec.messageToStr w.message)).links = s.recorder.fs.links := by
      simp only [FileSystem.put]
      split <;> rfl
    intro link hl
    exact h.links link (hlinks ▸ hl)
  · rcases List.mem_append.mp he with he | he
    · exact h.names e he
    · rw [List.mem_singleton.mp he]
      exact ⟨(h.parent g hg).trans (congrArg s.recorder.channelDir hw.symm), hgplain⟩
  · simp [h.written]

/-- The roll of a write, if there is one. -/
theorem follows_roll (h : Keeps s) (hfiles : s.recorder.files = before ++ g :: after)
    {answers : WriteAnswers}
    (hs : answers.needToRoll = true → answers.renames = true ∧ Willing answers.opens)
    (hnamed : answers.needToRoll = true →
      hasSuffix answers.newRecordDirName kLevelDBDirSuffix = true)
    (hnew : g.2.rollingHelper = true → answers.needToRoll = true →
      (g.2.newFilepath answers.newRecordDirName).unfinishedPath ∈ s.recorder.fs.locks ∨
        s.recorder.fs.node (g.2.newFilepath answers.newRecordDirName) = none) :
    ∃ fs', (if g.2.rollingHelper && answers.needToRoll then (g.2.roll s.recorder.fs answers).2
        else (s.recorder.fs, g.2)) = (fs', Ledger.rolled s.recorder.files g.2 answers) ∧
      Follows s (s.withFile fs'
        (before ++ (g.1, Ledger.rolled s.recorder.files g.2 answers) :: after)) := by
  have hg : g ∈ s.recorder.files := by simp [hfiles]
  have hgp : g.2.filepath ∈ paths s.recorder.files := List.mem_map_of_mem hg
  have hsame : s.withFile s.recorder.fs (before ++ g :: after) = s := by
    rw [← hfiles]
    rfl
  by_cases hroll : (g.2.rollingHelper && answers.needToRoll) = true
  case neg =>
    have hstay : Ledger.rolled s.recorder.files g.2 answers = g.2 := if_neg hroll
    refine ⟨s.recorder.fs, by rw [if_neg hroll, hstay], ?_⟩
    rw [hstay, hsame]
    exact ⟨h, rfl, fun _ _ => rfl⟩
  case pos =>
    obtain ⟨hhelper, hneed⟩ := Bool.and_eq_true_iff.mp hroll
    obtain ⟨hren, hw⟩ := hs hneed
    set path := g.2.newFilepath answers.newRecordDirName with hpath
    have hgunder := h.under g.2.filepath hgp
    have hunder : s.recorder.getRecordDir <+: path.parent := hgunder
    have hsuffix : hasSuffix path.name kLevelDBDirSuffix = true := hnamed hneed
    by_cases hmem : path ∈ paths s.recorder.files
    · -- the name of an open database: the open fails, twice
      have hlock := (h.locked_iff hunder).mpr hmem
      have hfail := RecordSession.openDBAt_locked (f := g.2) hw hlock
      refine ⟨s.recorder.fs, ?_, ?_⟩
      · simp only [hroll, if_true, RecordFile.roll, ← hpath, hfail, Ledger.rolled, hmem]
      · simp only [Ledger.rolled, hroll, if_true, ← hpath, hmem]
        exact ⟨keeps_withLegacy h hfiles true, rfl, fun _ _ => rfl⟩
    -- a name that is not there: the open makes an empty database
    · have hfree : path.unfinishedPath ∉ s.recorder.fs.locks := fun hl =>
        hmem ((h.locked_iff hunder).mp hl)
      have hfin := (hnew hhelper hneed).resolve_left hfree
      have hown := (h.unfinished path.unfinishedPath hunder (by simp) fun q hq he =>
        hmem (Path.unfinishedPath_injective he ▸ hq)).1
      obtain ⟨fs', hdo, hlinks, hopen, hclosed, hbut⟩ :=
        (h.opened g hg).roll (readable_contents _ _) (h.plain _ hgp) hpath.symm
          (isUnfinished_of_suffix hsuffix) hren hw hfree hown hfin
      refine ⟨fs', ?_, ?_⟩
      · simp only [hroll, if_true, hdo, Ledger.rolled, ← hpath, hmem, if_false]
      · simp only [Ledger.rolled, hroll, if_true, ← hpath, hmem, if_false]
        exact follows_rolledTo h hfiles rfl hsuffix hmem hfin hlinks hopen hclosed hbut

/-- A record job: the roll, if there is one, and the put. -/
theorem follows_deliver (h : Keeps s) {m : Published codec} {now : Int64} {answers : WriteAnswers}
    (hs : Succeeds s (.record (.deliver m now answers)))
    (hn : RollsToNewName s (.record (.deliver m now answers)))
    (hnamed : @namedByTime codec (.deliver m now answers) = true) :
    (step s (.record (.deliver m now answers))).map State.ledger =
        s.ledger.next (.deliver m now answers) ∧
      ∀ t, step s (.record (.deliver m now answers)) = some t → Follows s t := by
  simp only [step, hnamed, if_true, MessageRecorder.step, Ledger.next, State.ledger, fileOf]
  cases hfind : s.recorder.files.find? fun g => g.1 = m.channel with
  | none => exact ⟨rfl, by simp⟩
  | some g =>
    obtain ⟨channel, f⟩ := g
    obtain ⟨hc, before, after, hfiles, hupd⟩ := updateFile_of_find? hfind
    obtain rfl : channel = m.channel := hc
    set key := (RecordFileKey.make now s.recorder.globalCounters).1 with hkey
    have hneed : answers.needToRoll = true →
        hasSuffix answers.newRecordDirName kLevelDBDirSuffix = true := by
      intro hr
      simpa [namedByTime, hr] using hnamed
    obtain ⟨fs', hroll, hfollows⟩ := follows_roll h hfiles hs hneed
      (hn f (by simp [fileOf, hfind]))
    set file := Ledger.rolled s.recorder.files f answers with hfile
    have hmem : (m.channel, file) ∈ before ++ (m.channel, file) :: after := by simp
    have hopen : file.db = some ⟨file.filepath.unfinishedPath, false⟩ :=
      (hfollows.keeps.opened _ hmem).db
    have hat : fileOf (updateFile m.channel file s.recorder.files) m.channel = some file := by
      rw [fileOf, find?_updateFile hfind]
      rfl
    rw [← hupd] at hfollows hmem
    have hput := follows_put hfollows.keeps hmem { m with key := key } rfl
    simp only [write, hroll, hopen, Option.map_some]
    cases answers.put with
    -- the put succeeded, so the record is in the ledger
    | true =>
      have hnew : newPuts s.recorder
          { s.recorder with
            fs := fs'.put file.filepath.unfinishedPath key.toBytes (codec.messageToStr m.message)
            globalCounters := (RecordFileKey.make now s.recorder.globalCounters).2
            files := updateFile m.channel file s.recorder.files
            written := s.recorder.written ++ [{ m with key := key }] } =
          [(file.filepath, { m with key := key })] := by
        simp [newPuts, hat]
      simp only [if_true, hnew]
      refine ⟨rfl, ?_⟩
      rintro t ⟨⟩
      exact (hfollows.trans hput).withCounters _
    -- the put failed after the roll
    | false =>
      have hnew : newPuts s.recorder
          { s.recorder with
            fs := fs'
            globalCounters := (RecordFileKey.make now s.recorder.globalCounters).2
            files := updateFile m.channel file s.recorder.files
            written := s.recorder.written } = [] := by
        simp [newPuts]
      simp only [Bool.false_eq_true, if_false, hnew, List.append_nil]
      refine ⟨rfl, ?_⟩
      rintro t ⟨⟩
      exact hfollows.withCounters _

/-- Every record step does on the disk what the ledger says. -/
theorem follows_record (h : Keeps s) {op : MessageRecorder.Op codec}
    (hs : Succeeds s (.record op)) (hn : RollsToNewName s (.record op))
    (hnamed : namedByTime op = true) :
    (step s (.record op)).map State.ledger = s.ledger.next op ∧
      ∀ t, step s (.record op) = some t → Follows s t := by
  cases op with
  | registerChannel channel linkname utcTime renames answers =>
    obtain ⟨t, ht, hnext, hfollows⟩ := follows_registerChannel h hs
    rw [ht, hnext]
    refine ⟨rfl, ?_⟩
    rintro u ⟨⟩
    exact hfollows
  | deliver m now answers => exact follows_deliver h hs hn hnamed
  | makeKey now =>
    have hsame : Follows s s := ⟨h, rfl, fun _ _ => rfl⟩
    simp only [step, hnamed, if_true, MessageRecorder.step, Option.map_some]
    have hnew (counters : RecordFileKey.Counters) :
        newPuts s.recorder { s.recorder with globalCounters := counters } = [] := by
      simp [newPuts]
    simp only [hnew, List.append_nil]
    refine ⟨rfl, ?_⟩
    rintro t ⟨⟩
    exact hsame.withCounters _

end Steps
end CrisCore.RecorderRun
