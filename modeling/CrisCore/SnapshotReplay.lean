import CrisCore.SnapshotExact

/-! A snapshot is a record of its own: a replayer that is given it publishes what had been delivered
when it was made, also when the recorder has gone on since. -/
namespace CrisCore.RecorderRun
open RecordFile MessageRecorder MessageReplayer PriorityMerge

variable {codec : MessageCodec} {s t u v : State codec} {ops : List (Op codec)}

/-- The steps of the recorder without its snapshots. -/
def recordOps : List (Op codec) → List (MessageRecorder.Op codec)
  | [] => []
  | .record op :: ops => op :: recordOps ops
  | .generateSnapshot .. :: ops => recordOps ops

/-- A record step as in an undisturbed recording. -/
def IsOrderly (s : State codec) : Op codec → Prop
  | .record op => Orderly s.recorder op
  | .generateSnapshot .. => True

instance (s : State codec) : (op : Op codec) → Decidable (IsOrderly s op)
  | .record op => inferInstanceAs (Decidable (Orderly s.recorder op))
  | .generateSnapshot .. => inferInstanceAs (Decidable True)

/-- Every operation of the file system and LevelDB succeeds, no roll is due and the clock does not
step back. -/
def Calm (s : State codec) (op : Op codec) : Prop :=
  (Succeeds s op ∧ RollsToNewName s op) ∧ IsOrderly s op

instance (s : State codec) (op : Op codec) : Decidable (Calm s op) :=
  inferInstanceAs (Decidable ((_ ∧ _) ∧ _))

theorem SameLedger.recorder_eq (h : SameLedger s v) :
    v.recorder.recordDir = s.recorder.recordDir ∧ v.recorder.rolling = s.recorder.rolling ∧
      v.recorder.files = s.recorder.files ∧ v.recorder.written = s.recorder.written ∧
      v.puts = s.puts := by
  have hputs : v.puts = s.puts := (congrArg Ledger.puts h.ledger).symm
  refine ⟨(congrArg Ledger.recordDir h.ledger).symm, (congrArg Ledger.rolling h.ledger).symm,
    (congrArg Ledger.files h.ledger).symm, ?_, hputs⟩
  rw [← h.right.written, ← h.left.written, hputs]

theorem SameLedger.orderly (h : SameLedger s v) {op : MessageRecorder.Op codec}
    (ho : Orderly s.recorder op) : Orderly v.recorder op := by
  obtain ⟨-, hrolling, hfiles, hwritten, -⟩ := h.recorder_eq
  cases op with
  | registerChannel channel linkname utcTime renames answers =>
    simpa only [Orderly, hfiles] using ho
  | deliver m now answers => simpa only [Orderly, hrolling, hwritten] using ho
  | makeKey now => trivial

/-- Beside a calm run the record steps alone make an orderly run of the recorder, which ends with the
same ledger. -/
theorem calm_run (hR : SameLedger s v) (hcalm : (system codec).StepsMeet Calm s ops)
    (hrun : (system codec).exec s ops = some t) :
    ∃ w, (MessageRecorder.system codec).exec v.recorder (recordOps ops) = some w.recorder ∧
      (MessageRecorder.system codec).StepsMeet Orderly v.recorder (recordOps ops) ∧
      SameLedger t w := by
  induction ops generalizing s v with
  | nil =>
    cases hrun
    exact ⟨v, rfl, trivial, hR⟩
  | cons op ops ih =>
    obtain ⟨u, hu, he⟩ := Option.bind_eq_some_iff.mp hrun
    obtain ⟨hc, ho⟩ := hcalm.1
    cases op with
    | record op =>
      obtain ⟨w, hw, hR'⟩ := hR.record hc hu
      obtain ⟨x, hx, hmeets, hRx⟩ := ih hR' (hcalm.2 u hu) he
      have hstep : v.recorder.step op = some w.recorder := by
        have hnamed := named_of_step hw
        simp only [step, hnamed, if_true, Option.map_eq_some_iff] at hw
        obtain ⟨r, hr, rfl⟩ := hw
        exact hr
      refine ⟨x, ?_, ⟨hR.orderly ho, fun r hr => ?_⟩, hRx⟩
      · rw [recordOps, TransitionSystem.exec_cons]
        change (v.recorder.step op).bind _ = _
        rw [hstep]
        exact hx
      · cases hstep.symm.trans hr
        exact hmeets
    | generateSnapshot dir answers =>
      obtain ⟨hkeeps, hledger⟩ := keeps_step hR.left hc hu
      have hsame : SameLedger u v := ⟨hkeeps, hR.right, (hledger rfl).trans hR.ledger⟩
      exact ih hsame (hcalm.2 u hu) he

/-- The records of a channel are in the database of its file, and no other name got a record. -/
theorem contents_of_recording (hR : SameLedger t v) (hrec : Recording v.recorder) :
    (∀ g ∈ t.recorder.files,
      contents t.puts g.2.filepath = records t.recorder.written g.1) ∧
    ∀ e ∈ t.puts, e.1 ∈ paths t.recorder.files := by
  obtain ⟨hdir, -, hfiles, hwritten, hputs⟩ := hR.recorder_eq
  constructor
  · intro g hg
    have hstored := hrec.stored g (hfiles ▸ hg)
    rw [(hR.right.opened g (hfiles ▸ hg)).unfinished, holding] at hstored
    rw [← hputs, ← hwritten]
    simpa using hstored
  · intro e he
    by_contra hnot
    obtain ⟨hparent, hplain⟩ := hR.right.names e (hputs ▸ he)
    have hunder : v.recorder.getRecordDir <+: e.1.parent := hparent ▸ under_getRecordDir _ _
    have hnode := hR.right.finished e.1 hunder hplain (by rwa [hfiles])
    have hmem : e.2.entry ∈ recordsAt v.puts e.1 :=
      List.mem_map.mpr ⟨e, List.mem_filter.mpr ⟨hputs ▸ he, by simp⟩, rfl⟩
    have hne : contents v.puts e.1 ≠ [] := OrderedStore.ofPuts_ne_nil (List.ne_nil_of_mem hmem)
    rw [committed, if_neg hne] at hnode
    have hrecord : v.recorder.recordDir <+: e.1.parent := by
      rw [hparent]
      exact List.prefix_append ..
    obtain ⟨g, hg, heq⟩ := hrec.only e.1 hrecord (.inl (by simp [hnode]))
    rw [heq] at hplain
    simp at hplain

/-- The directory of the host in a snapshot. -/
def snapshotRecordDir (s : MessageRecorder codec) (snapshotDir : List String) : List String :=
  snapshotDir ++ s.recordDir.drop s.getRecordDir.length

theorem rebase_channelDir (s : MessageRecorder codec) (dir : List String) (c : Channel) {p : Path}
    (hp : p.parent = s.channelDir c) :
    (p.rebase s.getRecordDir dir).parent = snapshotRecordDir s dir ++ c.dir := by
  have hle : s.getRecordDir.length ≤ s.recordDir.length := by simp [getRecordDir]
  simp only [Path.rebase, hp, channelDir, snapshotRecordDir, List.append_assoc]
  rw [List.drop_append_of_le_length hle]

/-- A snapshot that holds the committed contents of an orderly recording has one database for each
channel with records. -/
theorem committedAt_snapshot (hR : SameLedger t v) (hrec : Recording v.recorder) {dir : List String}
    {fs' : FileSystem} (hcopy : ∀ q, dir <+: q.parent →
      fs'.node q = committed (contents t.puts (q.rebase dir t.recorder.getRecordDir)))
    (hunlocked : ∀ p, dir <+: p.parent → p ∉ fs'.locks) {c : Channel}
    (hc : ∃ w ∈ t.recorder.written, w.channel = c) :
    ∃ p, CommittedAt fs' (snapshotRecordDir t.recorder dir ++ c.dir)
      (records t.recorder.written c) p := by
  have hsome := records_ne_nil hc
  obtain ⟨hdir, -, hfiles, hwritten, -⟩ := hR.recorder_eq
  obtain ⟨hcontents, hputs⟩ := contents_of_recording hR hrec
  obtain ⟨w, hw, rfl⟩ := hc
  obtain ⟨g, hg, hgc⟩ := hrec.channel w (hwritten ▸ hw)
  rw [hfiles] at hg
  have hparent := hR.left.parent g hg
  have hunder : t.recorder.getRecordDir <+: g.2.filepath.parent :=
    hparent ▸ under_getRecordDir _ _
  have hshared : dir <+: snapshotRecordDir t.recorder dir ++ w.channel.dir := by
    rw [snapshotRecordDir, List.append_assoc]
    exact List.prefix_append ..
  have hback : (g.2.filepath.rebase t.recorder.getRecordDir dir).rebase dir
      t.recorder.getRecordDir = g.2.filepath := Path.rebase_rebase hunder
  refine ⟨g.2.filepath.rebase t.recorder.getRecordDir dir, ?_, hR.left.suffix g hg, ?_,
    fun p hp hn => ?_, fun p hp => hunlocked p (hp ▸ hshared)⟩
  · rw [rebase_channelDir _ _ _ hparent, hgc]
  · rw [hcopy _ (Path.rebase_under _ _ _), hback, hcontents g hg, hgc, committed, if_neg hsome]
    rfl
  -- any other database there would hold a record of the same channel
  · rw [hcopy p (hp ▸ hshared)] at hn
    have hne : contents t.puts (p.rebase dir t.recorder.getRecordDir) ≠ [] := by
      intro hnil
      rw [committed, if_pos hnil] at hn
      exact hn rfl
    obtain ⟨e, he, hep⟩ : ∃ e ∈ t.puts, e.1 = p.rebase dir t.recorder.getRecordDir := by
      by_contra hnone
      exact hne (contents_eq_nil_of_not_mem fun e he heq => hnone ⟨e, he, heq⟩)
    obtain ⟨g', hg', hpath⟩ := List.mem_map.mp (hputs e he)
    rw [hep] at hpath
    have hpar : g'.2.filepath.parent = t.recorder.channelDir w.channel := by
      have hroot : t.recorder.getRecordDir ++
          t.recorder.recordDir.drop t.recorder.getRecordDir.length = t.recorder.recordDir :=
        List.prefix_iff_eq_append.mp (List.dropLast_prefix _)
      rw [hpath]
      simp only [Path.rebase, hp, snapshotRecordDir, List.append_assoc, List.drop_left]
      rw [← List.append_assoc, hroot]
      rfl
    have hgg : g' = g := by
      apply hrec.file_unique (hfiles ▸ hg') (hfiles ▸ hg)
      rw [hgc]
      exact channelDir_injective ((hR.left.parent g' hg').symm.trans hpar)
    rw [hgg] at hpath
    exact ((Path.rebase_eq_iff hunder (hp ▸ hshared)).mpr hpath.symm).symm

/-- A snapshot goes to a directory beside the given one. -/
def Beside (dir : List String) : Op codec → Prop
  | .record _ => True
  | .generateSnapshot snapshotDir _ => ¬ snapshotDir <+: dir ∧ ¬ dir <+: snapshotDir

instance (dir : List String) : (op : Op codec) → Decidable (Beside dir op)
  | .record _ => inferInstanceAs (Decidable True)
  | .generateSnapshot .. => inferInstanceAs (Decidable (_ ∧ _))

/-- What the recorder does after a snapshot: all succeeds, and no other snapshot goes into it. -/
def GoesOn (dir : List String) (s : State codec) (op : Op codec) : Prop :=
  (Succeeds s op ∧ RollsToNewName s op) ∧ Beside dir op

instance (dir : List String) (s : State codec) (op : Op codec) : Decidable (GoesOn dir s op) :=
  inferInstanceAs (Decidable ((_ ∧ _) ∧ _))

/-- The recorder does not touch what is outside of its directory, and so no older snapshot. -/
theorem node_kept {dir : List String} (h : Keeps s)
    (hapart : ¬ s.recorder.getRecordDir <+: dir ∧ ¬ dir <+: s.recorder.getRecordDir)
    (hgo : (system codec).StepsMeet (GoesOn dir) s ops)
    (hrun : (system codec).exec s ops = some t) {p : Path} (hp : dir <+: p.parent) :
    t.recorder.fs.node p = s.recorder.fs.node p := by
  induction ops generalizing s with
  | nil =>
    cases hrun
    rfl
  | cons op ops ih =>
    obtain ⟨u, hu, he⟩ := Option.bind_eq_some_iff.mp hrun
    obtain ⟨hc, hbeside⟩ := hgo.1
    have hkeeps := (keeps_step h hc hu).1
    have hout : ¬ s.recorder.getRecordDir <+: p.parent := fun hroot =>
      not_under_both hapart.1 hapart.2 hroot hp
    have hstep : u.recorder.fs.node p = s.recorder.fs.node p ∧
        u.recorder.getRecordDir = s.recorder.getRecordDir := by
      cases op with
      | record op =>
        have hfollows := (follows_record h hc.1 hc.2 (named_of_step hu)).2 u hu
        exact ⟨hfollows.outside p hout, congrArg List.dropLast hfollows.recordDir⟩
      | generateSnapshot other answers =>
        obtain ⟨fs', hdo, -, -, -, -, hkept⟩ := generateSnapshot_effect h hc.1.1 hc.1.2
        change (s.recorder.generateSnapshotImpl other answers).map _ = some u at hu
        rw [hdo, Option.map_some, Option.some_inj] at hu
        subst hu
        exact ⟨hkept p hout fun hother => not_under_both hbeside.2 hbeside.1 hp hother, rfl⟩
    rw [ih hkeeps (hstep.2.symm ▸ hapart) (hgo.2 u hu) he, hstep.1]

/-- Where the records of each channel of a recording are committed in a directory of their own, a
replayer publishes the recording. -/
theorem replay_committed (heap : TakeMax RecordReader.compare) {rec : MessageRecorder codec}
    (hrec : Recording rec) {fs : FileSystem} {dir : List String}
    (hcommitted : ∀ c, (∃ w ∈ rec.written, w.channel = c) →
      ∃ p, CommittedAt fs (dir ++ c.dir) (records rec.written c) p)
    {regs : List (Channel × OpenAnswers)} (hwilling : ∀ reg ∈ regs, Willing reg.2)
    (hnodup : (regs.map Prod.fst).Nodup)
    (hmem : ∀ c, c ∈ regs.map Prod.fst ↔ ∃ w ∈ rec.written, w.channel = c) :
    ∃ r, (MessageReplayer.create fs dir).registerChannels regs = some r ∧
      ∀ running ≥ rec.written.length, replayMessages codec heap running r.recordReaders =
        (rec.written.map Written.toPublished, []) := by
  have hregs (reg : Channel × OpenAnswers) (hr : reg ∈ regs) :
      ∃ w ∈ rec.written, w.channel = reg.1 :=
    (hmem reg.1).mp (List.mem_map_of_mem hr)
  -- every channel has a file of its own, so no two have the same directory
  have hdirs : (regs.map fun reg => reg.1.dir).Nodup := by
    have hinj : ∀ c ∈ regs.map Prod.fst, ∀ c' ∈ regs.map Prod.fst, c.dir = c'.dir → c = c' := by
      intro c hc c' hc' hd
      obtain ⟨w, hw, rfl⟩ := (hmem c).mp hc
      obtain ⟨w', hw', rfl⟩ := (hmem c').mp hc'
      obtain ⟨g, hg, hgc⟩ := hrec.channel w hw
      obtain ⟨g', hg', hgc'⟩ := hrec.channel w' hw'
      rw [← hgc, ← hgc'] at hd ⊢
      rw [hrec.file_unique hg hg' hd]
    simpa [Function.comp_def] using List.Nodup.map_on hinj hnodup
  obtain ⟨r, hr, hreaders⟩ := registerChannels_committed (r := MessageReplayer.create fs dir)
    (fun reg hr => hcommitted reg.1 (hregs reg hr)) (fun reg hr => records_ne_nil (hregs reg hr))
    hrec.readable hdirs hwilling
  refine ⟨r, hr, fun running hrunning => ?_⟩
  have hrs : r.recordReaders =
      (regs.map Prod.fst).map fun c => ⟨c, .start (records rec.written c) false⟩ := by
    rw [hreaders, List.map_map]
    rfl
  rw [hrs]
  exact replayMessages_eq (feeds_records hrec.nonneg hnodup hmem) hrec.sorted hrec.nonneg hrunning

/-- A recorder that has no record yet starts an orderly recording. -/
theorem recording_of_start (hs : Start s) (hnew : s.puts = []) :
    (MessageRecorder.system codec).init s.recorder ∧ Recording s.recorder := by
  have hinit : (MessageRecorder.system codec).init s.recorder :=
    ⟨hs.files, by rw [← hs.written, hnew, List.map_nil]⟩
  refine ⟨hinit, recording_init hinit fun p hp => ?_⟩
  have hunder : s.recorder.getRecordDir <+: p.parent := (List.dropLast_prefix _).trans hp
  obtain ⟨hnode, hlock⟩ := hs.committed p hunder
  rw [hnew, contents_eq_nil_of_not_mem (by simp)] at hnode
  exact ⟨hnode, hlock⟩

section Runs

/-- Two channels, and a snapshot between their messages. -/
def calmRun : List (Op rawCodec) :=
  [register intChannel "20230316T041505", register doubleChannel "20230316T041505", write [0] 5,
    .generateSnapshot ["snapshots", "first"] allSucceed,
    .record (.deliver ⟨doubleChannel, [1]⟩ 5 putsOnly), write [2] 6]

/-- A roll, a record and another snapshot. -/
def laterRun : List (Op rawCodec) :=
  [writeAfterRoll [3] 7 "20230316T041506", write [4] 8,
    .generateSnapshot ["snapshots", "third"] allSucceed]

def calmState : State rawCodec := (system rawCodec).after newState calmRun

def takenState : State rawCodec :=
  (system rawCodec).after calmState [.generateSnapshot ["snapshots", "second"] allSucceed]

def laterState : State rawCodec := (system rawCodec).after takenState laterRun

end Runs
end CrisCore.RecorderRun
