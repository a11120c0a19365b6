import CrisCore.RankedLists
import CrisCore.RecordKeyCodec
import CrisCore.SnapshotExact
import Mathlib.Data.String.Basic

/-! A recording that rolls is spread over several directories for each channel. In the order of
their names, one after the other, they hold the records of the channel as they were written. -/
namespace CrisCore.RecorderRun
open RecordFile MessageRecorder TransitionSystem

variable {codec : MessageCodec}

/-- `ListLevelDBDirs` -/
def listLevelDBDirs (fs : FileSystem) (dirPath : List String) (channel : Channel) : List Path :=
  fs.listSubdirsWithSuffix (dirPath ++ channel.dir) kLevelDBDirSuffix

/-- A record file is constructed for each path, and its loop over `Iterate` comes before the next
one. -/
def readFiles (answers : Path → OpenAnswers) (fs : FileSystem) :
    List Path → Option (List (RecordFileKey × Bytes))
  | [] => some []
  | path :: rest =>
    match (RecordFile.unopened path "" false).openDB fs true (answers path) with
    | (.error _, _, _) => none
    | (.ok _, fs, file) => file.db.bind fun h =>
      (readFiles answers fs rest).map fun records => (file.iterate fs h).yielded ++ records

/-- Every channel gets a directory of its own, the rolling helper gives later names, and the clock,
at or after the epoch, does not step back. -/
def Forward (s : State codec) : Op codec → Prop
  | .record (.registerChannel channel _ _ _ _) => ∀ g ∈ s.recorder.files, g.1.dir ≠ channel.dir
  | .record (.deliver m now answers) =>
    (∀ file ∈ fileOf s.recorder.files m.channel, file.rollingHelper = true →
      answers.needToRoll = true → file.filepath.name < answers.newRecordDirName) ∧
      0 ≤ now.toInt ∧ ∀ w ∈ s.recorder.written, w.key.timestampNs.toInt ≤ now.toInt
  | .record (.makeKey _) | .generateSnapshot .. => True

instance (s : State codec) : (op : Op codec) → Decidable (Forward s op)
  | .record (.registerChannel ..) => inferInstanceAs (Decidable (∀ _ ∈ _, _ ≠ _))
  | .record (.deliver m _ answers) =>
    inferInstanceAs (Decidable ((∀ file ∈ fileOf s.recorder.files m.channel,
      file.rollingHelper = true → answers.needToRoll = true → _ < _) ∧ _ ∧ _))
  | .record (.makeKey _) | .generateSnapshot .. => inferInstanceAs (Decidable True)

/-- The step succeeds and goes forward. -/
def Rolls (s : State codec) (op : Op codec) : Prop :=
  Succeeds s op ∧ Forward s op

instance (s : State codec) (op : Op codec) : Decidable (Rolls s op) :=
  inferInstanceAs (Decidable (_ ∧ _))

/-- A key is made in the step. -/
def Op.makesKey : Op codec → Bool
  | .record op => op.makesKey
  | .generateSnapshot .. => false

/-- How many keys of each slot are made, with those of the step. -/
def Op.count (made : Fin 16 → ℕ) : Op codec → Fin 16 → ℕ
  | .record (.deliver _ now _) | .record (.makeKey now) =>
    Function.update made (RecordFileKey.slot now) (made (RecordFileKey.slot now) + 1)
  | .record (.registerChannel ..) | .generateSnapshot .. => made

/-- The records of a channel went to directories with later and later names, up to the one in use,
and their keys ascend. -/
structure InOrder (s : State codec) : Prop where
  dirs : (s.recorder.files.map fun g => g.1.dir).Nodup
  channel : ∀ e ∈ s.puts, ∃ g ∈ s.recorder.files, g.1 = e.2.channel ∧
    e.1.name ≤ g.2.filepath.name
  suffix : ∀ e ∈ s.puts, hasSuffix e.1.name kLevelDBDirSuffix = true
  names : s.puts.Pairwise fun e f => e.2.channel = f.2.channel → e.1.name ≤ f.1.name
  keys : s.recorder.written.Pairwise fun v w => RecordFileKey.compare v.key w.key = .lt
  nonneg : ∀ w ∈ s.recorder.written, 0 ≤ w.key.timestampNs.toInt

section Steps
variable {s t : State codec} {made : Fin 16 → ℕ}

theorem InOrder.file_unique (h : InOrder s) {g g' : Channel × RecordFile}
    (hg : g ∈ s.recorder.files) (hg' : g' ∈ s.recorder.files) (hd : g.1.dir = g'.1.dir) : g = g' :=
  List.inj_on_of_nodup_map h.dirs hg hg' hd

/-- A later name than that of the file in use is not there. -/
theorem rollsToNewName (h : Keeps s) (ho : InOrder s) {op : MessageRecorder.Op codec}
    (hf : Forward s (.record op)) (hnamed : namedByTime op = true) :
    RollsToNewName s (.record op) := by
  cases op with
  | registerChannel channel linkname utcTime renames answers => trivial
  | makeKey now => trivial
  | deliver m now answers =>
    intro file hfile hhelper hneed
    have hlt := hf.1 file hfile hhelper hneed
    obtain ⟨⟨c, f⟩, hfind, rfl⟩ := Option.map_eq_some_iff.mp hfile
    obtain rfl : c = m.channel := by simpa using List.find?_some hfind
    have hg := List.mem_of_find?_eq_some hfind
    set path := f.newFilepath answers.newRecordDirName with hpath
    have hparent : path.parent = s.recorder.channelDir m.channel := h.parent _ hg
    have hlater : f.filepath.name < path.name := hlt
    by_cases hl : path.unfinishedPath ∈ s.recorder.fs.locks
    · exact Or.inl hl
    right
    have hnot := h.not_mem_paths hl
    have hempty : contents s.puts path = [] := by
      refine contents_eq_nil_of_not_mem fun e he hep => ?_
      obtain ⟨g, hgmem, hgc, hle⟩ := ho.channel e he
      have hdir : s.recorder.channelDir m.channel = s.recorder.channelDir e.2.channel := by
        rw [← hparent, ← hep, (h.names e he).1]
      have hgf : g = (m.channel, f) := ho.file_unique hgmem hg
        (hgc ▸ (channelDir_injective hdir).symm)
      rw [hgf, hep] at hle
      exact absurd hlater (not_lt.mpr hle)
    have hsuffix : hasSuffix answers.newRecordDirName kLevelDBDirSuffix = true := by
      simpa [namedByTime, hneed] using hnamed
    have hplain : path.isUnfinished = false := isUnfinished_of_suffix (p := path) hsuffix
    rw [h.finished path (hparent ▸ under_getRecordDir _ _) hplain hnot, hempty]
    rfl

theorem written_eq (hs : Keeps s) (ht : Keeps t) (hputs : t.puts = s.puts) :
    t.recorder.written = s.recorder.written := by
  rw [← ht.written, hputs, hs.written]

/-- Neither a new channel nor a key made elsewhere changes the order. -/
theorem InOrder.of_puts_eq (h : InOrder s) (hs : Keeps s) (ht : Keeps t) (hputs : t.puts = s.puts)
    (hdirs : (t.recorder.files.map fun g => g.1.dir).Nodup)
    (hfiles : ∀ g ∈ s.recorder.files, g ∈ t.recorder.files) : InOrder t := by
  refine ⟨hdirs, fun e he => ?_, hputs ▸ h.suffix, hputs ▸ h.names, ?_, ?_⟩
  · obtain ⟨g, hg, hge⟩ := h.channel e (hputs ▸ he)
    exact ⟨g, hfiles g hg, hge⟩
  · rw [written_eq hs ht hputs]
    exact h.keys
  · rw [written_eq hs ht hputs]
    exact h.nonneg

theorem inOrder_registerChannel {channel : Channel} {linkname utcTime : String} {renames : Bool}
    {answers : OpenAnswers} (h : InOrder s) (hs : Keeps s) (ht : Keeps t)
    (hf : Forward s (.record (.registerChannel channel linkname utcTime renames answers)))
    (hnext : s.ledger.next (.registerChannel channel linkname utcTime renames answers) =
      some t.ledger) : InOrder t := by
  obtain ⟨f, hfiles⟩ : ∃ f, t.recorder.files = s.recorder.files ++ [(channel, f)] :=
    ⟨_, (congrArg Ledger.files (Option.some.inj hnext)).symm⟩
  refine h.of_puts_eq hs ht (congrArg Ledger.puts (Option.some.inj hnext)).symm ?_ ?_
  · rw [hfiles, List.map_append]
    refine List.nodup_append.mpr ⟨h.dirs, by simp, ?_⟩
    simpa using fun _ c g hg he => he ▸ hf (c, g) hg
  · intro g hg
    rw [hfiles]
    exact List.mem_append_left _ hg

/-- The file of a channel after a write has no earlier name than before. -/
theorem le_rolled {files : List (Channel × RecordFile)} {f : RecordFile} {answers : WriteAnswers}
    (hlt : f.rollingHelper = true → answers.needToRoll = true →
      f.filepath.name < answers.newRecordDirName) :
    f.filepath.name ≤ (Ledger.rolled files f answers).filepath.name := by
  unfold Ledger.rolled
  split_ifs with hroll hmem
  · exact le_refl _
  · obtain ⟨hhelper, hneed⟩ := Bool.and_eq_true_iff.mp hroll
    exact le_of_lt (hlt hhelper hneed)
  · exact le_refl _

theorem inOrder_deliver {m : Published codec} {now : Int64} {answers : WriteAnswers}
    (h : InOrder s) (hs : Keeps s) (ht : Keeps t) (hc : Counted s.recorder made)
    (hb : made (RecordFileKey.slot now) < 2 ^ 64)
    (hf : Forward s (.record (.deliver m now answers)))
    (hnext : s.ledger.next (.deliver m now answers) = some t.ledger) :
    InOrder t ∧ Counted t.recorder
      (Function.update made (RecordFileKey.slot now) (made (RecordFileKey.slot now) + 1)) := by
  obtain ⟨hlater, hnn, hnow⟩ := hf
  obtain ⟨f, hfile, hledger⟩ := Option.map_eq_some_iff.mp hnext
  set key := (RecordFileKey.make now s.recorder.globalCounters).1 with hkey
  have hfile' : fileOf s.recorder.files m.channel = some f := hfile
  obtain ⟨⟨c, f'⟩, hfind, rfl⟩ := Option.map_eq_some_iff.mp hfile'
  obtain rfl : c = m.channel := by simpa using List.find?_some hfind
  have hg := List.mem_of_find?_eq_some hfind
  set file := Ledger.rolled s.recorder.files f' answers with hrolled
  have hle : f'.filepath.name ≤ file.filepath.name := le_rolled (hlater f' hfile')
  obtain ⟨-, before, after, hall, hupd⟩ := updateFile_of_find? hfind
  have hfiles : t.recorder.files = before ++ (m.channel, file) :: after :=
    (congrArg Ledger.files hledger).symm.trans (hupd file)
  have hmem : (m.channel, file) ∈ t.recorder.files := by simp [hfiles]
  have hdirs : (t.recorder.files.map fun g => g.1.dir).Nodup := by
    have hold := h.dirs
    rw [hall] at hold
    rw [hfiles]
    simpa using hold
  -- the file of an older record of the run
  have hchannel : ∀ e ∈ s.puts, ∃ g ∈ t.recorder.files, g.1 = e.2.channel ∧
      e.1.name ≤ g.2.filepath.name := by
    intro e he
    obtain ⟨g, hgmem, hgc, hge⟩ := h.channel e he
    rw [hall] at hgmem
    by_cases hgf : g = (m.channel, f')
    · subst hgf
      exact ⟨_, hmem, hgc, hge.trans hle⟩
    · refine ⟨g, ?_, hgc, hge⟩
      rw [hfiles]
      simp only [List.mem_append, List.mem_cons] at hgmem ⊢
      tauto
  have hcounters : t.recorder.globalCounters = (RecordFileKey.make now s.recorder.globalCounters).2 :=
    (congrArg Ledger.globalCounters hledger).symm
  have hputs := (congrArg Ledger.puts hledger).symm
  cases hput : answers.put with
  | false =>
    have hsame : t.puts = s.puts := by simpa [hput, State.ledger] using hputs
    have hwritten := written_eq hs ht hsame
    refine ⟨⟨hdirs, hsame ▸ hchannel, hsame ▸ h.suffix, hsame ▸ h.names, hwritten ▸ h.keys,
      hwritten ▸ h.nonneg⟩, ?_⟩
    exact hc.makeKey.congr (t := t.recorder) hcounters hwritten
  | true =>
    have hnew : t.puts = s.puts ++ [(file.filepath, { m with key := key })] := by
      simpa [hput, State.ledger] using hputs
    have hwritten : t.recorder.written = s.recorder.written ++ [{ m with key := key }] := by
      rw [← ht.written, hnew, List.map_append, hs.written]
      rfl
    refine ⟨⟨hdirs, fun e he => ?_, fun e he => ?_, ?_, ?_, fun w hw => ?_⟩, ?_⟩
    · rw [hnew] at he
      rcases List.mem_append.mp he with he | he
      · exact hchannel e he
      · cases List.mem_singleton.mp he
        exact ⟨_, hmem, rfl, le_refl _⟩
    · rw [hnew] at he
      rcases List.mem_append.mp he with he | he
      · exact h.suffix e he
      · cases List.mem_singleton.mp he
        exact ht.suffix _ hmem
    -- the new record goes to the last directory of its channel
    · rw [hnew]
      refine List.pairwise_append.mpr ⟨h.names, by simp, fun e he e' he' hec => ?_⟩
      cases List.mem_singleton.mp he'
      obtain ⟨g, hgmem, hgc, hge⟩ := h.channel e he
      have hgf : g = (m.channel, f') := h.file_unique hgmem hg (congrArg Channel.dir (hgc.trans hec))
      rw [hgf] at hge
      exact hge.trans hle
    · rw [hwritten]
      refine List.pairwise_append.mpr ⟨h.keys, by simp, fun v hv w hw => ?_⟩
      cases List.mem_singleton.mp hw
      exact compare_make h.nonneg hc hb hnow v hv
    · rw [hwritten] at hw
      rcases List.mem_append.mp hw with hw | hw
      · exact h.nonneg w hw
      · cases List.mem_singleton.mp hw
        exact hnn
    · exact (hc.append (w := { m with key := key }) hb rfl).congr (t := t.recorder) hcounters hwritten

/-- What a run of a recorder keeps that goes forward, while `made` counts the keys. -/
structure Ordered (made : Fin 16 → ℕ) (s : State codec) : Prop where
  inOrder : InOrder s
  keeps : Keeps s
  counted : Counted s.recorder made

/-- What a record step does to the ledger. -/
theorem next_of_rolls {op : MessageRecorder.Op codec} (h : InOrder s) (hs : Keeps s)
    (hmeet : Rolls s (.record op)) (hstep : step s (.record op) = some t) :
    s.ledger.next op = some t.ledger ∧ Keeps t := by
  have hnamed := named_of_step hstep
  obtain ⟨hnext, hfollows⟩ :=
    follows_record hs hmeet.1 (rollsToNewName hs h hmeet.2 hnamed) hnamed
  exact ⟨hnext.symm.trans (congrArg _ hstep), (hfollows t hstep).keeps⟩

theorem ordered_step {op : Op codec} {n : ℕ} (h : Ordered made s)
    (hb : ∀ i, made i + ([op].countP Op.makesKey + n) ≤ 2 ^ 64) (hmeet : Rolls s op)
    (hstep : step s op = some t) :
    Ordered (op.count made) t ∧ ∀ i, op.count made i + n ≤ 2 ^ 64 := by
  obtain ⟨ho, hs, hc⟩ := h
  obtain ⟨hsucc, hf⟩ := hmeet
  cases op with
  | generateSnapshot dir answers =>
    obtain ⟨hkt, hledger⟩ := keeps_step hs ⟨hsucc, trivial⟩ hstep
    have hl := hledger rfl
    have hfiles : t.recorder.files = s.recorder.files := congrArg Ledger.files hl
    have hputs : t.puts = s.puts := congrArg Ledger.puts hl
    refine ⟨⟨ho.of_puts_eq hs hkt hputs (hfiles ▸ ho.dirs) (by simp [hfiles]), hkt,
      hc.congr (congrArg Ledger.globalCounters hl) (written_eq hs hkt hputs)⟩, ?_⟩
    simpa [Op.count, Op.makesKey] using hb
  | record op =>
    obtain ⟨hnext, hkt⟩ := next_of_rolls ho hs ⟨hsucc, hf⟩ hstep
    cases op with
    | registerChannel channel linkname utcTime renames answers =>
      have hl := Option.some.inj hnext
      have hputs : t.puts = s.puts := (congrArg Ledger.puts hl).symm
      refine ⟨⟨inOrder_registerChannel ho hs hkt hf hnext, hkt,
        hc.congr (congrArg Ledger.globalCounters hl).symm (written_eq hs hkt hputs)⟩, ?_⟩
      simpa [Op.count, Op.makesKey, MessageRecorder.Op.makesKey] using hb
    | deliver m now answers =>
      replace hb : ∀ i, made i + (n + 1) ≤ 2 ^ 64 := fun i => Nat.add_comm 1 n ▸ hb i
      have hnow := hb (RecordFileKey.slot now)
      obtain ⟨hot, hct⟩ := inOrder_deliver ho hs hkt hc (by omega) hf hnext
      exact ⟨⟨hot, hkt, hct⟩, room_update hb⟩
    | makeKey now =>
      replace hb : ∀ i, made i + (n + 1) ≤ 2 ^ 64 := fun i => Nat.add_comm 1 n ▸ hb i
      have hl := Option.some.inj hnext
      have hfiles : t.recorder.files = s.recorder.files := (congrArg Ledger.files hl).symm
      have hputs : t.puts = s.puts := (congrArg Ledger.puts hl).symm
      have hct := hc.makeKey.congr (t := t.recorder)
        (congrArg Ledger.globalCounters hl).symm (written_eq hs hkt hputs)
      exact ⟨⟨ho.of_puts_eq hs hkt hputs (hfiles ▸ ho.dirs) (by simp [hfiles]), hkt, hct⟩,
        room_update hb⟩

/-- A run that goes forward and makes at most `2 ^ 64` keys of each slot. -/
theorem ordered_of_run {ops : List (Op codec)} (h : Ordered made s)
    (hb : ∀ i, made i + ops.countP Op.makesKey ≤ 2 ^ 64)
    (hmeet : (system codec).StepsMeet Rolls s ops) (hrun : (system codec).exec s ops = some t) :
    ∃ made, Ordered made t := by
  induction ops generalizing s made with
  -- on the run, as the counters of the keys go up
  | nil =>
    cases hrun
    exact ⟨made, h⟩
  | cons op ops ih =>
    obtain ⟨u, hu, hrest⟩ := Option.bind_eq_some_iff.mp hrun
    have hroom : ∀ i, made i + ([op].countP Op.makesKey + ops.countP Op.makesKey) ≤ 2 ^ 64 := by
      intro i
      rw [← List.countP_append]
      exact hb i
    obtain ⟨hou, hbu⟩ := ordered_step h hroom hmeet.1 hu
    exact ih hou hbu (hmeet.2 u hu) hrest

/-- Nothing has been recorded. -/
theorem ordered_of_start (hs : Start s) (hnew : s.puts = []) :
    Ordered (fun i => (s.recorder.globalCounters i).toNat) s := by
  have hwritten : s.recorder.written = [] := by rw [← hs.written, hnew, List.map_nil]
  refine ⟨?_, keeps_of_start hs, counted_init ⟨hs.files, hwritten⟩⟩
  constructor <;> simp [hs.files, hnew, hwritten]

end Steps

section Reading
variable {s t : State codec} {fs : FileSystem} {answers : Path → OpenAnswers}

theorem clearFiles_eq (fs : FileSystem) (files : List (Channel × RecordFile)) :
    clearFiles fs files = (closeFiles [] fs files).1 := by
  induction files generalizing fs with
  | nil => rfl
  | cons g files ih => exact ih _

/-- After `files_.clear()` every directory of the recording can be opened by a reader. -/
theorem holdsClosed_clearFiles (h : Keeps s) {p : Path}
    (hp : s.recorder.getRecordDir <+: p.parent) (hplain : p.isUnfinished = false) :
    HoldsClosed (clearFiles s.recorder.fs s.recorder.files) (.unopened p "" false)
      (contents s.puts p) := by
  have hnone : ∀ a ∈ ([] : List ReopenAnswers), a.Succeed := fun _ ha => absurd ha List.not_mem_nil
  obtain ⟨-, hclosed, -, hsame⟩ := closeFiles_spec hnone h.apart h.plain
    (readable_contents s.puts) h.opened
  have hnode {q : Path} (hq : s.recorder.getRecordDir <+: q.parent) :
      (closeFiles [] s.recorder.fs s.recorder.files).1.node q = committed (contents s.puts q) :=
    node_of_closed h hclosed hsame hq
  rw [clearFiles_eq]
  refine ⟨rfl, ?_, hnode hp, ?_⟩
  · change (closeFiles [] s.recorder.fs s.recorder.files).1.node p.unfinishedPath = none
    rw [hnode (q := p.unfinishedPath) hp, h.contents_unfinished (by simp)]
    rfl
  · change p.unfinishedPath ∉ _
    by_cases hmem : p ∈ paths s.recorder.files
    · obtain ⟨g, hg, rfl⟩ := List.mem_map.mp hmem
      exact (hclosed g hg).unlocked
    · have hno : ∀ q ∈ paths s.recorder.files, p.unfinishedPath ≠ q.unfinishedPath :=
        fun q hq he => hmem (Path.unfinishedPath_injective he ▸ hq)
      have hat := hsame p.unfinishedPath fun q hq =>
        ⟨ne_of_isUnfinished (by simp) (h.plain q hq), hno q hq⟩
      exact hat.2.not.mpr (h.unfinished p.unfinishedPath hp (by simp) hno).2

/-- Reading several directories that do not meet. -/
theorem readFiles_eq {held : Path → List (Bytes × Bytes)} {ps : List Path}
    (hw : ∀ p, Willing (answers p)) (hnodup : ps.Nodup)
    (hplain : ∀ p ∈ ps, p.isUnfinished = false) (hne : ∀ p ∈ ps, p.isEmpty = false)
    (hclosed : ∀ p ∈ ps, HoldsClosed fs (.unopened p "" false) (held p)) :
    readFiles answers fs ps =
      some (ps.flatMap fun p => (RecordFileIterator.start (held p) false).yielded) := by
  induction ps generalizing fs with
  | nil => rfl
  | cons p ps ih =>
    obtain ⟨hnot, hnodup⟩ := List.nodup_cons.mp hnodup
    obtain ⟨fs', hopen, hholds, hsame, -⟩ :=
      (hclosed p List.mem_cons_self).openDB (hne p List.mem_cons_self) (hw p)
    have hplain' : ∀ q ∈ ps, q.isUnfinished = false :=
      fun q hq => hplain q (List.mem_cons_of_mem _ hq)
    have hrest := @ih fs' hnodup hplain' (fun q hq => hne q (List.mem_cons_of_mem _ hq))
      fun q hq => by
        refine (hclosed q (List.mem_cons_of_mem _ hq)).congr hsame ?_ (hplain' q hq) ?_
        · intro hqp
          have hsame : q = p := List.mem_singleton.mp hqp
          exact hnot (hsame ▸ hq)
        · intro r hr
          rw [List.mem_singleton.mp hr]
          exact hplain p List.mem_cons_self
    have hentries : entries fs' ⟨p.unfinishedPath, false⟩ = held p := by
      have hdat : fs'.node p.unfinishedPath = some (holding (held p)) := hholds.unfinished
      simp [entries, FileSystem.database, hdat, holding]
    simp only [readFiles, hopen, hrest, Option.bind_some, Option.map_some, List.flatMap_cons]
    simp only [iterate, unopened, hentries]

theorem mem_listLevelDBDirs {dirPath : List String} {channel : Channel} {p : Path} :
    p ∈ listLevelDBDirs fs dirPath channel ↔ p.parent = dirPath ++ channel.dir ∧
      (∃ d, fs.node p = some (.dir d)) ∧ hasSuffix p.name kLevelDBDirSuffix = true := by
  simp only [listLevelDBDirs, FileSystem.listSubdirsWithSuffix, List.mem_insertionSort,
    List.mem_filter, Bool.and_eq_true, beq_iff_eq, FileSystem.isDirectory]
  constructor
  · rintro ⟨-, ⟨hparent, hdir⟩, hsuffix⟩
    refine ⟨hparent, ?_, hsuffix⟩
    split at hdir
    case h_1 d hd => exact ⟨d, hd⟩
    case h_2 => cases hdir
  · rintro ⟨hparent, ⟨d, hd⟩, hsuffix⟩
    refine ⟨AList.lookup_isSome.mp (Option.isSome_of_eq_some hd), ⟨hparent, ?_⟩, hsuffix⟩
    rw [hd]

/-- The names in a directory come in their order, each once. -/
theorem listLevelDBDirs_increase (fs : FileSystem) (dirPath : List String) (channel : Channel) :
    (listLevelDBDirs fs dirPath channel).Nodup ∧
      ((listLevelDBDirs fs dirPath channel).map Path.name).Pairwise (· < ·) := by
  have hnodup : (listLevelDBDirs fs dirPath channel).Nodup :=
    (List.perm_insertionSort _ _).nodup_iff.mpr (fs.nodes.keys_nodup.filter _)
  have hsorted : (listLevelDBDirs fs dirPath channel).Pairwise fun p q => p.name ≤ q.name :=
    List.pairwise_insertionSort _ _
  refine ⟨hnodup, List.pairwise_map.mpr ?_⟩
  refine (hsorted.and hnodup).imp_of_mem fun {p q} hp hq hpq => lt_of_le_of_ne hpq.1 fun hname => ?_
  refine hpq.2 ?_
  obtain ⟨hp, -⟩ := mem_listLevelDBDirs.mp hp
  obtain ⟨hq, -⟩ := mem_listLevelDBDirs.mp hq
  cases p
  cases q
  simp_all

/-- The key and the text of a record. -/
def Written.record (w : Written codec) : RecordFileKey × Bytes :=
  (w.key, codec.messageToStr w.message)

/-- What a reader of one directory gets. -/
theorem yielded_contents (h : Keeps t) (ho : InOrder t) (p : Path) :
    (RecordFileIterator.start (contents t.puts p) false).yielded =
      (t.puts.filter fun e => e.1 = p).map fun e => Written.record e.2 := by
  have hkeys : t.puts.Pairwise fun e f => RecordFileKey.compare e.2.key f.2.key = .lt := by
    have hall := ho.keys
    rw [← h.written, List.pairwise_map] at hall
    exact hall
  have hsorted : OrderedStore.Sorted (List.compareLex compare) (recordsAt t.puts p) :=
    List.pairwise_map.mpr (hkeys.sublist List.filter_sublist)
  have hrecords : recordsAt t.puts p = ((t.puts.filter fun e => e.1 = p).map fun e =>
      Written.record e.2).map (Prod.map RecordFileKey.toBytes id) := by
    rw [recordsAt, List.map_map]
    rfl
  rw [contents, hsorted.ofPuts_eq, hrecords, RecordFileKey.yielded_map_toBytes, List.map_map]
  refine List.map_congr_left fun e he => ?_
  have hmem : e.2 ∈ t.recorder.written := by
    rw [← h.written]
    exact List.mem_map_of_mem (List.mem_of_mem_filter he)
  have hclamped : e.2.key.clamped = e.2.key := by
    have hread := RecordFileKey.fromBytes_toBytes (ho.nonneg e.2 hmem)
    rw [RecordFileKey.fromBytes_toBytes_clamped] at hread
    exact Option.some.inj hread
  simp [Written.record, hclamped]

/-- The records of a channel are those in its directory. -/
theorem channel_eq_iff (h : Keeps t) (ho : InOrder t) {g : Channel × RecordFile}
    (hg : g ∈ t.recorder.files) {e : Path × Written codec} (he : e ∈ t.puts) :
    e.2.channel = g.1 ↔ e.1.parent = t.recorder.channelDir g.1 := by
  rw [(h.names e he).1]
  constructor
  · intro hc
    rw [hc]
  · intro hd
    obtain ⟨g', hg', hgc, -⟩ := ho.channel e he
    rw [← hgc] at hd ⊢
    rw [ho.file_unique hg' hg (channelDir_injective hd)]

/-- The groups of the records of a channel by directory, one after the other. -/
theorem flatMap_puts (h : Keeps t) (ho : InOrder t) {g : Channel × RecordFile}
    (hg : g ∈ t.recorder.files) {ps : List Path}
    (hparent : ∀ p ∈ ps, p.parent = t.recorder.channelDir g.1)
    (hincrease : (ps.map Path.name).Pairwise (· < ·))
    (hall : ∀ e ∈ t.puts, e.2.channel = g.1 → e.1 ∈ ps) :
    ps.flatMap (fun p => t.puts.filter fun e => e.1 = p) =
      t.puts.filter fun e => e.2.channel = g.1 := by
  have hgroup : ∀ p ∈ ps, (t.puts.filter fun e => e.1 = p) =
      (t.puts.filter fun e => e.2.channel = g.1).filter fun e => e.1.name = p.name := by
    intro p hp
    rw [List.filter_filter]
    refine List.filter_congr fun e he => ?_
    have hiff : e.1 = p ↔ e.1.name = p.name ∧ e.2.channel = g.1 := by
      rw [channel_eq_iff h ho hg he]
      constructor
      · rintro rfl
        exact ⟨rfl, hparent _ hp⟩
      · rintro ⟨hname, hd⟩
        obtain ⟨⟨parent, name⟩, w⟩ := e
        cases p
        simp only [Path.mk.injEq]
        exact ⟨hd.trans (hparent _ hp).symm, hname⟩
    simp only [hiff, Bool.decide_and]
  rw [List.flatMap_congr hgroup]
  have hnames : (t.puts.filter fun e => e.2.channel = g.1).Pairwise fun e f =>
      e.1.name ≤ f.1.name := by
    refine (ho.names.filter _).imp_of_mem fun {e f} he hf hle => hle ?_
    have hec := (List.mem_filter.mp he).2
    have hfc := (List.mem_filter.mp hf).2
    rw [decide_eq_true_eq] at hec hfc
    exact hec.trans hfc.symm
  have hgroups := RankedLists.flatMap_filter_eq hnames hincrease fun e he => by
    obtain ⟨he, hc⟩ := List.mem_filter.mp he
    exact List.mem_map_of_mem (hall e he (by simpa using hc))
  rwa [List.flatMap_map] at hgroups

/-- The directories of a channel, opened and read in the order in which `ListLevelDBDirs` lists
them. -/
theorem readFiles_channel (ho : InOrder t) (hk : Keeps t) {g : Channel × RecordFile}
    (hg : g ∈ t.recorder.files) (hw : ∀ p, Willing (answers p)) :
    readFiles answers (clearFiles t.recorder.fs t.recorder.files)
        (listLevelDBDirs (clearFiles t.recorder.fs t.recorder.files) t.recorder.recordDir g.1) =
      some ((t.recorder.written.filter fun w => w.channel = g.1).map Written.record) := by
  set fs' := clearFiles t.recorder.fs t.recorder.files with hfs'
  have hunder {p : Path} (hp : p.parent = t.recorder.channelDir g.1) :
      t.recorder.getRecordDir <+: p.parent := hp ▸ under_getRecordDir _ _
  obtain ⟨hnodup, hincrease⟩ := listLevelDBDirs_increase fs' t.recorder.recordDir g.1
  set ps := listLevelDBDirs fs' t.recorder.recordDir g.1 with hps
  have hparent : ∀ p ∈ ps, p.parent = t.recorder.channelDir g.1 :=
    fun p hp => (mem_listLevelDBDirs.mp hp).1
  have hplain : ∀ p ∈ ps, p.isUnfinished = false :=
    fun p hp => isUnfinished_of_suffix (mem_listLevelDBDirs.mp hp).2.2
  have hread := readFiles_eq hw hnodup hplain
    (fun p hp => by simp [Path.isEmpty, hparent p hp, channelDir, Channel.dir])
    fun p hp => holdsClosed_clearFiles hk (hunder (hparent p hp)) (hplain p hp)
  -- a directory that got a record is listed
  have hall : ∀ e ∈ t.puts, e.2.channel = g.1 → e.1 ∈ ps := by
    intro e he hc
    have hp := (channel_eq_iff hk ho hg he).mp hc
    have hne : contents t.puts e.1 ≠ [] := by
      refine OrderedStore.ofPuts_ne_nil (List.ne_nil_of_mem (a := e.2.entry) ?_)
      exact List.mem_map.mpr ⟨e, List.mem_filter.mpr ⟨he, by simp⟩, rfl⟩
    have hheld := (holdsClosed_clearFiles hk (hunder hp) (hk.names e he).2).final
    rw [committed, if_neg hne] at hheld
    exact mem_listLevelDBDirs.mpr ⟨hp, ⟨_, hheld⟩, ho.suffix e he⟩
  rw [hread, Option.some_inj]
  calc ps.flatMap (fun p => (RecordFileIterator.start (contents t.puts p) false).yielded)
      = ps.flatMap fun p => (t.puts.filter fun e => e.1 = p).map fun e => Written.record e.2 :=
        List.flatMap_congr fun p _ => yielded_contents hk ho p
    _ = (ps.flatMap fun p => t.puts.filter fun e => e.1 = p).map fun e => Written.record e.2 :=
        List.map_flatMap.symm
    _ = (t.puts.filter fun e => e.2.channel = g.1).map fun e => Written.record e.2 := by
        rw [flatMap_puts hk ho hg hparent hincrease hall]
    _ = (t.recorder.written.filter fun w => w.channel = g.1).map Written.record := by
        rw [← hk.written, List.filter_map, List.map_map]
        rfl

/-- A recording that rolls reads back as it was written: opened and read in the order in which
`ListLevelDBDirs` lists them, the directories of a channel give its records, each once and in the
order in which they were put, however often its file rolled and whatever snapshots were made. -/
theorem rolled_recording_reads_back {ops : List (Op codec)} (answers : Path → OpenAnswers)
    (hs : (system codec).init s)
    (hnew : s.puts = [])
    (hkeys : ∀ i, (s.recorder.globalCounters i).toNat + ops.countP Op.makesKey ≤ 2 ^ 64)
    (hmeet : (system codec).StepsMeet Rolls s ops) (hrun : (system codec).exec s ops = some t)
    {g : Channel × RecordFile} (hg : g ∈ t.recorder.files) (hw : ∀ p, Willing (answers p)) :
    readFiles answers (clearFiles t.recorder.fs t.recorder.files)
        (listLevelDBDirs (clearFiles t.recorder.fs t.recorder.files) t.recorder.recordDir g.1) =
      some ((t.recorder.written.filter fun w => w.channel = g.1).map Written.record) := by
  obtain ⟨_, h⟩ := ordered_of_run (ordered_of_start hs hnew) hkeys hmeet hrun
  exact readFiles_channel h.inOrder h.keeps hg hw

end Reading

/-- One channel rolls at every new day, the other one never does. -/
def rolledRun : List (Op rawCodec) :=
  [register intChannel "20230316T041505", register doubleChannel "20230316T041505", write [0] 5,
    writeAfterRoll [1] 6 "20230317T000100", .generateSnapshot ["snapshots", "first"] allSucceed,
    .record (.deliver ⟨doubleChannel, [2]⟩ 6 putsOnly), write [3] 7,
    writeAfterRoll [4] 7 "20230318T000100"]

def rolledState : State rawCodec := (system rawCodec).after newState rolledRun

theorem rolled_recording_reads_back_rolledState :
    let fs := clearFiles rolledState.recorder.fs rolledState.recorder.files
    readFiles (fun _ => willing) fs (listLevelDBDirs fs ["records", "host"] intChannel) =
      some [(⟨5, 0⟩, [0]), (⟨6, 0⟩, [1]), (⟨7, 0⟩, [3]), (⟨7, 1⟩, [4])] := by
  have hfind : (rolledState.recorder.files.find? fun g => g.1 = intChannel).isSome = true := by
    decide
  obtain ⟨g, hfind⟩ := Option.isSome_iff_exists.mp hfind
  have hc : g.1 = intChannel := by simpa using List.find?_some hfind
  have hread := rolled_recording_reads_back (fun _ => willing) start_newState rfl
    (by decide) (by decide) ((system rawCodec).exec_after (by decide) : _ = some rolledState)
    (List.mem_of_find?_eq_some hfind) fun _ => by decide
  rw [hc] at hread
  refine hread.trans ?_
  decide

end CrisCore.RecorderRun
