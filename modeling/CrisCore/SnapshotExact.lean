import CrisCore.RollingHelpers
import CrisCore.SnapshotContents

/-! A snapshot holds what was written before it, and leaves the recorder as it was. -/
namespace CrisCore.RecorderRun
open RecordFile MessageRecorder

variable {codec : MessageCodec} {s t : State codec}

/-- The state of a recorder whose file system has changed. -/
def State.withFs (s : State codec) (fs' : FileSystem) : State codec :=
  { s with recorder := { s.recorder with fs := fs' } }

theorem not_under_both {root dir l : List String} (h1 : ¬ root <+: dir) (h2 : ¬ dir <+: root)
    (hroot : root <+: l) : ¬ dir <+: l := by
  intro hdir
  rcases List.prefix_or_prefix_of_prefix hroot hdir with h | h
  · exact h1 h
  · exact h2 h

/-- When all files are closed, the record directory holds the committed records and nothing
else. -/
theorem node_of_closed (h : Keeps s) {fs' : FileSystem}
    (hclosed : ∀ g ∈ s.recorder.files,
      HoldsClosed fs' (closedFile g).2 (contents s.puts g.2.filepath))
    (hsame : SameBut (paths s.recorder.files) s.recorder.fs fs') {p : Path}
    (hp : s.recorder.getRecordDir <+: p.parent) :
    fs'.node p = committed (contents s.puts p) := by
  by_cases hunf : p.isUnfinished = true
  · rw [h.contents_unfinished hunf]
    by_cases hown : ∃ q ∈ paths s.recorder.files, p = q.unfinishedPath
    · obtain ⟨q, hq, rfl⟩ := hown
      obtain ⟨g, hg, rfl⟩ := List.mem_map.mp hq
      exact (hclosed g hg).unfinished
    · have hno : ∀ q ∈ paths s.recorder.files, p ≠ q.unfinishedPath :=
        fun q hq he => hown ⟨q, hq, he⟩
      have hat := hsame p fun q hq => ⟨fun he => ?_, hno q hq⟩
      · exact hat.1.trans (h.unfinished p hp hunf hno).1
      · exact ne_of_isUnfinished hunf (h.plain q hq) he
  · have hfin : p.isUnfinished = false := by simpa using hunf
    by_cases hmem : p ∈ paths s.recorder.files
    · obtain ⟨g, hg, rfl⟩ := List.mem_map.mp hmem
      exact (hclosed g hg).final
    · have hat := hsame p fun q hq =>
        ⟨fun he => hmem (he ▸ hq), ne_unfinishedPath hfin⟩
      exact hat.1.trans (h.finished p hp hfin hmem)

theorem contents_recordDir (h : Keeps s) {p : Path} (hp : p.parent = s.recorder.recordDir) :
    contents s.puts p = [] := by
  refine contents_eq_nil_of_not_mem fun e he hep => ?_
  have hparent := (h.names e he).1
  rw [hep, hp] at hparent
  exact channelDir_ne_recordDir _ _ hparent.symm

/-- A path is one of the two names of a file, or none of them. -/
theorem named_or_off (files : List (Channel × RecordFile)) (p : Path) :
    (∃ g ∈ files, p = g.2.filepath ∨ p = g.2.filepath.unfinishedPath) ∨
      ∀ q ∈ paths files, p ≠ q ∧ p ≠ q.unfinishedPath := by
  by_cases hmem : ∃ g ∈ files, p = g.2.filepath ∨ p = g.2.filepath.unfinishedPath
  · exact Or.inl hmem
  · right
    intro q hq
    obtain ⟨g, hg, rfl⟩ := List.mem_map.mp hq
    exact ⟨fun he => hmem ⟨g, hg, Or.inl he⟩, fun he => hmem ⟨g, hg, Or.inr he⟩⟩

theorem Keeps.off_of_apart (h : Keeps s) {p : Path} (hp : ¬ s.recorder.getRecordDir <+: p.parent) :
    ∀ q ∈ paths s.recorder.files, p ≠ q ∧ p ≠ q.unfinishedPath := by
  intro q hq
  have hu := h.under q hq
  refine ⟨?_, ?_⟩
  · rintro rfl
    exact hp hu
  · rintro rfl
    exact hp hu

theorem Keeps.path_shape (h : Keeps s) {p : Path} (hp : p ∈ paths s.recorder.files) :
    p.isEmpty = false ∧ p.parent.dropLast.dropLast = s.recorder.recordDir := by
  obtain ⟨g, hg, rfl⟩ := List.mem_map.mp hp
  constructor
  · simp [Path.isEmpty, h.parent g hg, channelDir, Channel.dir]
  · simp [h.parent g hg, channelDir, Channel.dir, List.dropLast_append_of_ne_nil]

/-- Opened again, a file is the one that was closed. -/
theorem Keeps.openedFile_eq (h : Keeps s) : ∀ g ∈ s.recorder.files, openedFile g = g := by
  rintro ⟨c, f⟩ hg
  have hdb := (h.opened _ hg).db
  simp only [openedFile, ← hdb]

/-- With every file open again and the other names untouched, all is as before. -/
theorem Keeps.reopened (h : Keeps s) {fs' : FileSystem}
    (hopened : ∀ g ∈ s.recorder.files, HoldsOpen fs' g.2 (contents s.puts g.2.filepath))
    (hoff : ∀ p, s.recorder.getRecordDir <+: p.parent →
      (∀ q ∈ paths s.recorder.files, p ≠ q ∧ p ≠ q.unfinishedPath) →
        fs'.node p = s.recorder.fs.node p ∧ (p ∈ fs'.locks ↔ p ∈ s.recorder.fs.locks))
    (hlinks : ∀ link ∈ fs'.links, s.recorder.getRecordDir <+: link.1.parent →
      link ∈ s.recorder.fs.links ∨ link.1.parent = s.recorder.recordDir) :
    (∀ p, s.recorder.getRecordDir <+: p.parent → fs'.node p = s.recorder.fs.node p) ∧
      Keeps (s.withFs fs') := by
  have hkeep (p : Path) (hp : s.recorder.getRecordDir <+: p.parent) :
      fs'.node p = s.recorder.fs.node p := by
    rcases named_or_off s.recorder.files p with ⟨g, hg, rfl | rfl⟩ | hno
    · exact (hopened g hg).final.trans (h.opened g hg).final.symm
    · exact (hopened g hg).unfinished.trans (h.opened g hg).unfinished.symm
    · exact (hoff p hp hno).1
  refine ⟨hkeep, h.parent, h.suffix, h.apart, hopened,
    fun p hp hfin hno => (hkeep p hp).trans (h.finished p hp hfin hno), fun p hp hunf hno => ?_,
    fun link hl hp => ?_, h.names, h.written⟩
  · have hold := h.unfinished p hp hunf hno
    have hat := hoff p hp fun q hq => ⟨ne_of_isUnfinished hunf (h.plain q hq), hno q hq⟩
    exact ⟨hat.1.trans hold.1, hat.2.not.mpr hold.2⟩
  · rcases hlinks link hl hp with hl | hl
    · exact h.links link hl hp
    · exact hl

/-- The snapshot job: the copy has the committed form of all records, every file is open again as
before, and no other database is opened or closed. -/
theorem generateSnapshot_effect (h : Keeps s) {dir : List String} {answers : SnapshotAnswers}
    (ha : answers.Succeed) (hf : FreshSnapshotDir s.recorder dir) :
    ∃ fs', s.recorder.generateSnapshotImpl dir answers =
        some (true, (s.withFs fs').recorder) ∧
      (∀ q, dir <+: q.parent →
        fs'.node q = committed (contents s.puts (q.rebase dir s.recorder.getRecordDir))) ∧
      (∀ p, s.recorder.getRecordDir <+: p.parent → fs'.node p = s.recorder.fs.node p) ∧
      Keeps (s.withFs fs') ∧
      (∀ p, ¬ s.recorder.getRecordDir <+: p.parent →
        (p ∈ fs'.locks ↔ p ∈ s.recorder.fs.locks)) ∧
      ∀ p, ¬ s.recorder.getRecordDir <+: p.parent → ¬ dir <+: p.parent →
        fs'.node p = s.recorder.fs.node p := by
  obtain ⟨hreopens, hcreate, hstops⟩ := ha
  obtain ⟨hfree, hself, hover⟩ := hf
  set root := s.recorder.getRecordDir with hroot
  have hapart {l : List String} (hl : root <+: l) : ¬ dir <+: l := not_under_both hself hover hl
  -- the close
  obtain ⟨hfiles, hclosed, hlinks, hsame⟩ := closeFiles_spec hreopens h.apart h.plain
    (readable_contents s.puts) h.opened
  set fs₁ := (closeFiles answers.reopens s.recorder.fs s.recorder.files).1 with hfs₁
  have hnode₁ {p : Path} (hp : root <+: p.parent) : fs₁.node p = committed (contents s.puts p) :=
    node_of_closed h hclosed hsame hp
  have hoff {p : Path} (hp : dir <+: p.parent) :
      ∀ q ∈ paths s.recorder.files, p ≠ q ∧ p ≠ q.unfinishedPath :=
    h.off_of_apart fun hl => hapart hl hp
  -- the copy
  have hfree₁ : fs₁.Unused dir := by
    refine ⟨fun p hmem hp => ?_, fun link hl => hfree.2 link (hlinks ▸ hl)⟩
    have hsome : fs₁.node p ≠ none := Option.isSome_iff_ne_none.mp (AList.lookup_isSome.mpr hmem)
    rw [(hsame p (hoff hp)).1, hfree.node hp] at hsome
    exact hsome rfl
  obtain ⟨hok, hlocks₂, hlinks₂, hnode₂⟩ := FileSystem.copy_spec hself hfree₁ fun link hl hp => by
    rw [hnode₁ hp, contents_recordDir h (h.links link (hlinks ▸ hl) hp)]
    rfl
  set fs₂ := (fs₁.copy root dir none).2 with hfs₂
  have hin {p : Path} (hp : root <+: p.parent) : fs₂.node p = fs₁.node p := by
    rw [hnode₂, if_neg (hapart hp)]
  have hclosed₂ : ∀ g ∈ s.recorder.files,
      HoldsClosed fs₂ (closedFile g).2 (contents s.puts g.2.filepath) := by
    intro g hg
    have hu : root <+: g.2.filepath.parent := h.under _ (List.mem_map_of_mem hg)
    have hown : root <+: g.2.filepath.unfinishedPath.parent := hu
    obtain ⟨h1, h2, h3, h4⟩ := hclosed g hg
    exact ⟨h1, (hin hown).trans h2, (hin hu).trans h3, by rwa [hlocks₂]⟩
  -- the reopening
  obtain ⟨fs', hopen, hopened, hlinks', hsame'⟩ :=
    openFiles_spec hreopens h.apart h.plain (fun p hp => (h.path_shape hp).1)
      (fun p hp => (h.path_shape hp).2) hclosed₂
  have hall : s.recorder.files.map openedFile = s.recorder.files :=
    (List.map_congr_left h.openedFile_eq).trans (List.map_id _)
  have hbetween {p : Path} (hp : root <+: p.parent)
      (hno : ∀ q ∈ paths s.recorder.files, p ≠ q ∧ p ≠ q.unfinishedPath) :
      fs'.node p = s.recorder.fs.node p ∧ (p ∈ fs'.locks ↔ p ∈ s.recorder.fs.locks) := by
    constructor
    · calc fs'.node p = fs₂.node p := (hsame' p hno).1
        _ = fs₁.node p := hin hp
        _ = s.recorder.fs.node p := (hsame p hno).1
    · rw [(hsame' p hno).2, hlocks₂, (hsame p hno).2]
  have hmade : ∀ link ∈ fs'.links, root <+: link.1.parent →
      link ∈ s.recorder.fs.links ∨ link.1.parent = s.recorder.recordDir := by
    intro link hl hp
    rcases hlinks' link hl with hl | hl
    · rw [hlinks₂] at hl
      rcases List.mem_append.mp hl with hl | hl
      · exact Or.inl (hlinks ▸ hl)
      · -- the copies of links are in the snapshot
        obtain ⟨link', -, rfl⟩ := List.mem_map.mp hl
        exact absurd (Path.rebase_under root dir link'.1) (hapart hp)
    · exact Or.inr hl
  obtain ⟨hkeep, hkeeps⟩ := h.reopened (fun g hg => h.openedFile_eq g hg ▸ hopened g hg)
    (fun p hp hno => hbetween hp hno) hmade
  refine ⟨fs', ?_, fun q hq => ?_, hkeep, hkeeps, fun p hp => ?_, fun p hp hpd => ?_⟩
  · simp only [generateSnapshotImpl, ← hfs₁, ← hroot, hstops, ← hfs₂, hok, hcreate, hfiles, hopen,
      hall, Option.map_some, Bool.and_true]
    rfl
  · rw [(hsame' q (hoff hq)).1, hnode₂, if_pos hq, hnode₁ (Path.rebase_under dir root q)]
  · have hno := h.off_of_apart hp
    rw [(hsame' p hno).2, hlocks₂, (hsame p hno).2]
  · have hno := h.off_of_apart hp
    rw [(hsame' p hno).1, hnode₂, if_neg hpd, (hsame p hno).1]

theorem generateSnapshot_spec (h : Keeps s) {dir : List String} {answers : SnapshotAnswers}
    (ha : answers.Succeed) (hf : FreshSnapshotDir s.recorder dir) :
    ∃ fs', s.recorder.generateSnapshotImpl dir answers =
        some (true, (s.withFs fs').recorder) ∧
      (∀ q, dir <+: q.parent →
        fs'.node q = committed (contents s.puts (q.rebase dir s.recorder.getRecordDir))) ∧
      (∀ p, s.recorder.getRecordDir <+: p.parent → fs'.node p = s.recorder.fs.node p) ∧
      Keeps (s.withFs fs') := by
  obtain ⟨fs', hdo, hcopy, hkeep, hkeeps, -⟩ := generateSnapshot_effect h ha hf
  exact ⟨fs', hdo, hcopy, hkeep, hkeeps⟩

theorem keeps_of_start (h : Start s) : Keeps s := by
  obtain ⟨hfiles, hcommitted, hlinks, hnames, hwritten⟩ := h
  have hnone {p : Path} (hunf : p.isUnfinished = true) : contents s.puts p = [] := by
    refine contents_eq_nil_of_not_mem fun e he hep => ?_
    rw [← hep, (hnames e he).2] at hunf
    cases hunf
  refine ⟨?_, ?_, ?_, ?_, fun p hp _ _ => (hcommitted p hp).1, fun p hp hunf _ => ?_, hlinks,
    hnames, hwritten⟩
  case refine_5 =>
    have hat := hcommitted p hp
    rw [hnone hunf] at hat
    exact hat
  all_goals simp [hfiles, paths]

/-- The ledger decides what is in the record directory. -/
theorem Keeps.node_eq (hs : Keeps s) (ht : Keeps t) (hl : s.ledger = t.ledger) {p : Path}
    (hp : s.recorder.getRecordDir <+: p.parent) : t.recorder.fs.node p = s.recorder.fs.node p := by
  have hdir : t.recorder.getRecordDir = s.recorder.getRecordDir :=
    congrArg List.dropLast (congrArg Ledger.recordDir hl).symm
  have hfiles : t.recorder.files = s.recorder.files := (congrArg Ledger.files hl).symm
  have hputs : t.puts = s.puts := (congrArg Ledger.puts hl).symm
  rcases named_or_off s.recorder.files p with ⟨g, hg, rfl | rfl⟩ | hno
  · exact (ht.opened g (hfiles ▸ hg)).final.trans (hs.opened g hg).final.symm
  · rw [(ht.opened g (hfiles ▸ hg)).unfinished, (hs.opened g hg).unfinished, hputs]
  · cases hunf : p.isUnfinished with
    | true =>
      rw [(ht.unfinished p (hdir ▸ hp) hunf fun q hq => (hno q (hfiles ▸ hq)).2).1,
        (hs.unfinished p hp hunf fun q hq => (hno q hq).2).1]
    | false =>
      rw [ht.finished p (hdir ▸ hp) hunf fun hq => (hno p (hfiles ▸ hq)).1 rfl,
        hs.finished p hp hunf fun hq => (hno p hq).1 rfl, hputs]

/-- Two states with the same ledger. -/
structure SameLedger (s t : State codec) : Prop where
  left : Keeps s
  right : Keeps t
  ledger : s.ledger = t.ledger

/-- What the next record step meets does not depend on the snapshots made. -/
theorem SameLedger.meets (h : SameLedger s t) {op : MessageRecorder.Op codec}
    (hs : Succeeds s (.record op)) (hn : RollsToNewName s (.record op)) :
    Succeeds t (.record op) ∧ RollsToNewName t (.record op) := by
  have hdir : t.recorder.recordDir = s.recorder.recordDir :=
    (congrArg Ledger.recordDir h.ledger).symm
  have hfiles : t.recorder.files = s.recorder.files := (congrArg Ledger.files h.ledger).symm
  -- only the open files are locked, and the ledger knows them
  have hlock {p : Path} (hp : s.recorder.getRecordDir <+: p.parent) :
      p.unfinishedPath ∈ t.recorder.fs.locks ↔ p.unfinishedPath ∈ s.recorder.fs.locks := by
    have hpt : t.recorder.getRecordDir <+: p.parent := by
      rw [getRecordDir, hdir]
      exact hp
    rw [h.right.locked_iff hpt, h.left.locked_iff hp, hfiles]
  cases op with
  | registerChannel channel linkname utcTime renames answers =>
    refine ⟨⟨hs.1, hs.2.1, ?_⟩, trivial⟩
    have hnew : (t.recorder.newFile channel linkname utcTime).filepath =
        (s.recorder.newFile channel linkname utcTime).filepath := by
      simp only [newFile, unopened, channelDir, hdir]
    rw [hnew, hlock (under_getRecordDir s.recorder channel)]
    exact hs.2.2
  | deliver m now answers =>
    refine ⟨hs, fun file hfile hhelper hneed => ?_⟩
    rw [hfiles] at hfile
    have hunder : s.recorder.getRecordDir <+:
        (file.newFilepath answers.newRecordDirName).parent := by
      obtain ⟨g, hfind, rfl⟩ := Option.map_eq_some_iff.mp hfile
      have hmem : g.2.filepath ∈ paths s.recorder.files :=
        List.mem_map_of_mem (List.mem_of_find?_eq_some hfind)
      exact h.left.under g.2.filepath hmem
    rw [hlock hunder, h.left.node_eq h.right h.ledger hunder]
    exact hn file hfile hhelper hneed
  | makeKey now => exact ⟨trivial, trivial⟩

theorem named_of_step {op : MessageRecorder.Op codec} (hst : step s (.record op) = some t) :
    namedByTime op = true := by
  simp only [step] at hst
  split at hst
  · assumption
  · cases hst

/-- Every step keeps the record directory to the ledger, and a snapshot leaves the ledger. -/
theorem keeps_step {op : Op codec} (h : Keeps s)
    (hc : Succeeds s op ∧ RollsToNewName s op) (hst : step s op = some t) :
    Keeps t ∧ (op.isRecord = false → t.ledger = s.ledger) := by
  cases op with
  | record op =>
    exact ⟨((follows_record h hc.1 hc.2 (named_of_step hst)).2 t hst).keeps, nofun⟩
  | generateSnapshot dir answers =>
    obtain ⟨fs', hdo, -, -, hkeeps⟩ := generateSnapshot_spec h hc.1.1 hc.1.2
    simp only [step, hdo, Option.map_some, Option.some.injEq] at hst
    subst hst
    exact ⟨hkeeps, fun _ => rfl⟩

theorem SameLedger.record {u : State codec} {op : MessageRecorder.Op codec} (h : SameLedger s u)
    (hc : Succeeds s (.record op) ∧ RollsToNewName s (.record op))
    (hst : step s (.record op) = some t) : ∃ v, step u (.record op) = some v ∧ SameLedger t v := by
  have hnamed := named_of_step hst
  obtain ⟨hs', hn'⟩ := h.meets hc.1 hc.2
  obtain ⟨hnext, hkeeps⟩ := follows_record h.left hc.1 hc.2 hnamed
  obtain ⟨hnext', hkeeps'⟩ := follows_record h.right hs' hn' hnamed
  rw [hst, h.ledger, ← hnext', Option.map_some] at hnext
  obtain ⟨v, hv, hl⟩ := Option.map_eq_some_iff.mp hnext.symm
  exact ⟨v, hv, (hkeeps t hst).keeps, (hkeeps' v hv).keeps, hl.symm⟩

/-- With distinct keys the committed directories hold the written records and no others. -/
theorem stored_iff (h : Keeps s) {fs' : FileSystem} {dir : List String}
    (hnode : ∀ q, dir <+: q.parent →
      fs'.node q = committed (contents s.puts (q.rebase dir s.recorder.getRecordDir)))
    (hkeys : (s.recorder.written.map fun w => w.key.toBytes).Nodup) (e : Bytes × Bytes) :
    (∃ q, dir <+: q.parent ∧ RecordSession.Stored fs' q e) ↔
      ∃ w ∈ s.recorder.written, w.entry = e := by
  -- no put of the ledger took the place of another
  have hdistinct (p : Path) : (recordsAt s.puts p).Pairwise fun e f =>
      List.compareLex compare f.1 e.1 ≠ .eq := by
    rw [← h.written, List.map_map] at hkeys
    have hpair := List.pairwise_map.mp hkeys
    refine List.pairwise_map.mpr ((hpair.sublist List.filter_sublist).imp fun hne heq => ?_)
    exact hne (Std.LawfulEqCmp.eq_of_compare heq).symm
  constructor
  · rintro ⟨q, hq, db, hdb, he⟩
    have hmem : e ∈ contents s.puts (q.rebase dir s.recorder.getRecordDir) := by
      simp only [FileSystem.database, hnode q hq, committed] at hdb
      split_ifs at hdb
      cases hdb
      exact he
    obtain ⟨e', he', rfl⟩ := List.mem_map.mp (OrderedStore.mem_of_mem_ofPuts hmem)
    refine ⟨e'.2, ?_, rfl⟩
    rw [← h.written]
    exact List.mem_map_of_mem (List.mem_of_mem_filter he')
  · rintro ⟨w, hw, rfl⟩
    rw [← h.written] at hw
    obtain ⟨⟨p, w⟩, hp, rfl⟩ := List.mem_map.mp hw
    have hunder : s.recorder.getRecordDir <+: p.parent := by
      rw [(h.names _ hp).1]
      exact under_getRecordDir _ _
    have hmem : w.entry ∈ contents s.puts p := by
      rw [contents, OrderedStore.mem_ofPuts_iff (hdistinct p)]
      exact List.mem_map.mpr ⟨(p, w), List.mem_filter.mpr ⟨hp, by simp⟩, rfl⟩
    have hback : (p.rebase s.recorder.getRecordDir dir).rebase dir s.recorder.getRecordDir = p :=
      Path.rebase_rebase hunder
    refine ⟨p.rebase s.recorder.getRecordDir dir, Path.rebase_under _ _ _,
      ⟨false, contents s.puts p⟩, ?_, hmem⟩
    have hne : contents s.puts p ≠ [] := List.ne_nil_of_mem hmem
    simp [FileSystem.database, hnode _ (Path.rebase_under _ _ _), hback, committed, hne, holding]

theorem keeps_of_run {ops : List (Op codec)} (hs : (system codec).init s)
    (hsucceeds : (system codec).StepsMeet Succeeds s ops)
    (hnames : (system codec).StepsMeet RollsToNewName s ops)
    (hrun : (system codec).exec s ops = some t) : Keeps t := by
  have hboth := hsucceeds.and hnames
  exact hboth.invariant (keeps_of_start hs) (fun _ _ _ h hc hst => (keeps_step h hc hst).1) hrun

section Runs

/-- A recorder that rolls, in a new process on an empty disk. -/
def newState : State rawCodec :=
  ⟨{ newRecorder with rolling := true }, []⟩

theorem start_newState : Start newState :=
  ⟨rfl, fun _ _ => ⟨rfl, List.not_mem_nil⟩, nofun, nofun, rfl⟩

def register (channel : Channel) (utcTime : String) : Op rawCodec :=
  .record (.registerChannel channel "" utcTime true willing)

def write (message : Bytes) (now : Int64) : Op rawCodec :=
  .record (.deliver ⟨intChannel, message⟩ now putsOnly)

def writeAfterRoll (message : Bytes) (now : Int64) (utcTime : String) : Op rawCodec :=
  .record (.deliver ⟨intChannel, message⟩ now
    ⟨true, utcTime ++ kLevelDBDirSuffix, willing, true, true⟩)

/-- Every operation of a snapshot succeeds. -/
def allSucceed : SnapshotAnswers := ⟨[], true, none⟩

/-- One channel rolls, one has no message, and a snapshot comes in between. -/
def snapshotRun : List (Op rawCodec) :=
  [register intChannel "20230316T041505", register doubleChannel "20230316T041505", write [0] 5,
    writeAfterRoll [1] 6 "20230316T041506", .generateSnapshot ["snapshots", "first"] allSucceed,
    writeAfterRoll [2] 7 "20230316T041506", write [3] 8]

def snapshotState : State rawCodec := (system rawCodec).after newState snapshotRun

/-- A second of the 16th of March 2023, in nanoseconds. -/
def march16 (hour minute second : ℤ) : ℤ :=
  fromTimeT (1678924800 + hour * 3600 + minute * 60 + second)

/-- A write to a file whose hourly helper was last set at `reset`: the clock says `time` for the
metadata, and `utcTime` when the new directory is named. -/
def writeByHour (message : Bytes) (reset time : ℤ) (utcTime : String) : Op rawCodec :=
  let helper := RollingByTime.make reset secondsPerHour 60
  .record (.deliver ⟨intChannel, message⟩ (Int64.ofInt time)
    ⟨rollingByHourHelper.needToRoll helper ⟨time, 1⟩, utcTime ++ kLevelDBDirSuffix, willing, true,
      true⟩)

/-- The second roll is due at 06:01:00. Before the directory is named the clock is set back to the
second at which the channel was registered, whose directory holds a record. -/
def clockBackRun : List (Op rawCodec) :=
  [register intChannel "20230316T041505",
    writeByHour [0] (march16 4 15 5) (march16 4 15 6) "20230316T041506",
    writeByHour [1] (march16 4 15 5) (march16 5 1 10) "20230316T050110",
    writeByHour [2] (march16 5 1 10) (march16 6 1 0) "20230316T041505"]

end Runs
end CrisCore.RecorderRun
