import CrisCore.RecorderConfig
import CrisCore.RolledReadBack
import CrisCore.RollingTimes
import CrisCore.UtcNames

/-! The recorder with its rolling helpers: when a record file rolls and what the new directory is
called is read from the clock, whose texts are a parameter. A recorder whose clock does not step
back gives later and later names. -/
namespace CrisCore.ClockedRecorder
open RecordFile MessageRecorder RecorderRun TransitionSystem RecorderConfig UtcTime

variable {codec : MessageCodec} (texts : UtcTexts)

/-- `CreateRollingHelper`; `none` where it throws. -/
def createRollingHelper (now : ℤ) : Rolling → Option (Option RollingByTime)
  | .kNone => some none
  | .kDay => some (some (.make now secondsPerDay 60))
  | .kHour => some (some (.make now secondsPerHour 60))
  | .kSize => none

/-- The class of the helpers, where there are any. -/
def helperClass : Rolling → RollingHelper RollingByTime
  | .kHour => rollingByHourHelper
  | .kNone | .kDay | .kSize => rollingByDayHelper

/-- What the clock says in a `Write` of a record file: in `RecordFileKey::Make`, for the metadata,
in `DefaultLevelDBDir` and in `Reset`. Where the last two are not read they are as before. -/
structure WriteTimes where
  key : Int64
  write : ℤ
  name : ℤ
  reset : ℤ
  deriving DecidableEq

/-- The steps of `MessageRecorder`, where the clock takes the place of the answers to `Roll`. -/
inductive Op (codec : MessageCodec)
  | registerChannel (channel : Channel) (linkname : String) (name helper : ℤ) (renames : Bool)
      (answers : OpenAnswers)
  | deliver (message : Published codec) (times : WriteTimes) (opens : OpenAnswers)
      (renames put : Bool)
  | makeKey (now : Int64)
  | generateSnapshot (snapshotDir : List String) (answers : SnapshotAnswers)

/-- A key is made in the step. -/
def Op.makesKey : Op codec → Bool
  | .deliver .. | .makeKey _ => true
  | .registerChannel .. | .generateSnapshot .. => false

structure State (codec : MessageCodec) where
  run : RecorderRun.State codec
  rolling : Rolling
  /-- `rolling_helper_` of the record file that the subscription of the channel writes to. -/
  helpers : Channel → Option RollingByTime
  /-- What the clock said last. -/
  clock : ℤ

namespace State
variable (s : State codec)

def needToRoll (m : Published codec) (times : WriteTimes) : Bool :=
  (s.helpers m.channel).any fun helper =>
    (helperClass s.rolling).needToRoll helper
      ⟨times.write, UInt64.ofNat (codec.messageToStr m.message).length⟩

def writeAnswers (m : Published codec) (times : WriteTimes) (opens : OpenAnswers)
    (renames put : Bool) : WriteAnswers :=
  ⟨s.needToRoll m times, defaultLevelDBDir texts times.name, opens, renames, put⟩

/-- The step of the recorder, once the clock has been read. -/
def opOf : Op codec → RecorderRun.Op codec
  | .registerChannel channel linkname name _ renames answers =>
    .record (.registerChannel channel linkname (texts.getCurrentUtcTime name) renames answers)
  | .deliver m times opens renames put =>
    .record (.deliver m times.key (s.writeAnswers texts m times opens renames put))
  | .makeKey now => .record (.makeKey now)
  | .generateSnapshot dir answers => .generateSnapshot dir answers

/-- `Roll` is called and returns true. -/
def rolls (m : Published codec) (answers : WriteAnswers) : Bool :=
  (fileOf s.run.recorder.files m.channel).any fun file =>
    file.rollingHelper && answers.needToRoll && (file.roll s.run.recorder.fs answers).1

/-- The helpers after a step; `none` where `CreateRollingHelper` throws. `Update` does nothing in
them. -/
def nextHelpers : Op codec → Option (Channel → Option RollingByTime)
  | .registerChannel channel _ _ helper _ _ =>
    (createRollingHelper helper s.rolling).map fun created =>
      if (fileOf s.run.recorder.files channel).isSome then s.helpers
      else Function.update s.helpers channel created
  | .deliver m times opens renames put =>
    some (if s.rolls m (s.writeAnswers texts m times opens renames put) then
      Function.update s.helpers m.channel
        ((s.helpers m.channel).map fun helper => (helperClass s.rolling).reset helper times.reset)
    else s.helpers)
  | .makeKey _ | .generateSnapshot .. => some s.helpers

def nextClock : Op codec → ℤ
  | .registerChannel _ _ _ helper _ _ => helper
  | .deliver _ times _ _ _ => times.reset
  | .makeKey _ | .generateSnapshot .. => s.clock

end State

def step (s : State codec) (op : Op codec) : Option (State codec) :=
  (s.nextHelpers texts op).bind fun helpers =>
    (RecorderRun.step s.run (s.opOf texts op)).map fun run =>
      ⟨run, s.rolling, helpers, s.nextClock op⟩

/-- A recorder that has recorded nothing. -/
def system (codec : MessageCodec) : TransitionSystem (State codec) (Op codec) where
  init s := Start s.run ∧ s.run.puts = [] ∧ 0 ≤ s.clock ∧
    s.run.recorder.rolling = (s.rolling != .kNone)
  step := step texts

/-- The clock does not step back, from one step to the next and inside of a step. -/
def ClockAdvances (s : State codec) : Op codec → Prop
  | .registerChannel _ _ name helper _ _ => s.clock ≤ name ∧ name ≤ helper ∧ helper < 2 ^ 63
  | .deliver _ times _ _ _ =>
    s.clock ≤ times.key.toInt ∧ times.key.toInt ≤ times.write ∧ times.write ≤ times.name ∧
      times.name ≤ times.reset ∧ times.reset < 2 ^ 63
  | .makeKey _ | .generateSnapshot .. => True

def NewChannel (s : State codec) : Op codec → Prop
  | .registerChannel channel .. => ∀ g ∈ s.run.recorder.files, g.1.dir ≠ channel.dir
  | .deliver .. | .makeKey _ | .generateSnapshot .. => True

/-- A step whose operations succeed, for a channel with a directory of its own. -/
structure Meets (s : State codec) (op : Op codec) : Prop where
  succeeds : Succeeds s.run (s.opOf texts op)
  newChannel : NewChannel s op
  clockAdvances : ClockAdvances s op

section Times
variable {rolling : Rolling} {helper : RollingByTime} {now t u : ℤ}

/-- The helper waits for a full second that is still to come. -/
def Ahead (now : ℤ) (helper : RollingByTime) : Prop :=
  ∃ u, helper.timeToRoll = fromTimeT u ∧ now < fromTimeT u

theorem ahead_calcNextRollingTime {interval : ℤ} (h : 0 ≤ now) (hi : 0 < interval) :
    Ahead now ⟨calcNextRollingTime now interval 60⟩ := by
  refine ⟨_, rfl, ?_⟩
  have hlt := RollingSession.lt_calcNextRollingTime 60 h hi
  have hoffset : 0 < fromTimeT 60 := by decide
  exact lt_trans (by omega) hlt

theorem ahead_of_create (h : 0 ≤ now)
    (hc : createRollingHelper now rolling = some (some helper)) : Ahead now helper := by
  cases rolling with
  | kNone => cases hc
  | kSize => cases hc
  | kDay =>
    cases hc
    exact ahead_calcNextRollingTime h (by decide)
  | kHour =>
    cases hc
    exact ahead_calcNextRollingTime h (by decide)

theorem ahead_reset (rolling : Rolling) (helper : RollingByTime) (h : 0 ≤ now) :
    Ahead now ((helperClass rolling).reset helper now) := by
  cases rolling <;> exact ahead_calcNextRollingTime h (by decide)

theorem le_of_needToRoll {metadata : RollingHelper.Metadata}
    (h : (helperClass rolling).needToRoll helper metadata = true) :
    helper.timeToRoll ≤ metadata.time := by
  cases rolling <;> exact of_decide_eq_true h

/-- A second boundary in between makes the later name greater. -/
theorem defaultLevelDBDir_lt_of_boundary (ht : 0 ≤ t) (hu : t < fromTimeT u)
    (hn : fromTimeT u ≤ now) (hr : now < 2 ^ 63) :
    defaultLevelDBDir texts t < defaultLevelDBDir texts now := by
  have hlt : t / seconds < u := Int.ediv_lt_of_lt_mul (by decide) hu
  have hle : u ≤ now / seconds := Int.le_ediv_of_mul_le (by decide) hn
  exact defaultLevelDBDir_lt texts ⟨ht, by omega⟩ ⟨by omega, hr⟩ (hlt.trans_le hle)

end Times

section Steps
variable {s t : State codec} {made : Fin 16 → ℕ} {op : Op codec}

/-- A record file is named after a time before the one at which its helper wants to roll. -/
structure OnTime (s : State codec) : Prop where
  clock : 0 ≤ s.clock
  keys : ∀ w ∈ s.run.recorder.written, w.key.timestampNs.toInt ≤ s.clock
  helper : ∀ g ∈ s.run.recorder.files, ∀ helper ∈ s.helpers g.1,
    ∃ t, g.2.filepath.name = defaultLevelDBDir texts t ∧ 0 ≤ t ∧ Ahead t helper

variable {texts}

/-- A step with its times goes forward. -/
theorem rolls_of_meets (h : OnTime texts s) (hm : Meets texts s op) :
    Rolls s.run (s.opOf texts op) := by
  refine ⟨hm.succeeds, ?_⟩
  cases op with
  | registerChannel channel linkname name helper renames answers => exact hm.newChannel
  | makeKey now => trivial
  | generateSnapshot dir answers => trivial
  | deliver m times opens renames put =>
    obtain ⟨hkey, hwrite, hname, hreset, hrange⟩ := hm.clockAdvances
    refine ⟨fun file hfile _ hneed => ?_, h.clock.trans hkey, fun w hw => (h.keys w hw).trans hkey⟩
    obtain ⟨helper, hhelper, hneed⟩ := (Option.any_eq_true _ _).mp hneed
    obtain ⟨⟨c, f⟩, hfind, rfl⟩ := Option.map_eq_some_iff.mp hfile
    obtain rfl : c = m.channel := by simpa using List.find?_some hfind
    obtain ⟨t, hfilename, ht, u, hu, hlt⟩ :=
      h.helper _ (List.mem_of_find?_eq_some hfind) helper hhelper
    have hle := le_of_needToRoll hneed
    rw [hu] at hle
    change f.filepath.name < defaultLevelDBDir texts times.name
    change f.filepath.name = _ at hfilename
    rw [hfilename]
    exact defaultLevelDBDir_lt_of_boundary texts ht hlt (hle.trans hname) (hreset.trans_lt hrange)

/-- The open of `Roll` was successful if it gave the file a new name. -/
theorem roll_of_filepath {fs : FileSystem} {f : RecordFile} {answers : WriteAnswers}
    (h : (f.roll fs answers).2.2.filepath ≠ f.filepath) : (f.roll fs answers).1 = true := by
  unfold RecordFile.roll at h ⊢
  rcases ho : f.openDBAt fs (f.newFilepath answers.newRecordDirName) answers.opens with
    ⟨newDb, fs', f'⟩
  rw [ho] at h
  cases newDb with
  | some newDb => rfl
  | none =>
    obtain ⟨hsame, -⟩ := openDBAt_none ho
    refine absurd ?_ h
    rcases hsame with rfl | rfl <;> rfl

/-- The name of a channel's file after a write. -/
theorem name_rolled (ho : InOrder s.run) (hk : Keeps s.run) {m : Published codec} {now : Int64}
    {answers : WriteAnswers} (hr : Rolls s.run (.record (.deliver m now answers)))
    (hnamed : @namedByTime codec (.deliver m now answers) = true) {f : RecordFile}
    (hfile : fileOf s.run.recorder.files m.channel = some f) :
    (Ledger.rolled s.run.recorder.files f answers).filepath.name =
      if s.rolls m answers then answers.newRecordDirName else f.filepath.name := by
  by_cases hroll : (f.rollingHelper && answers.needToRoll) = true
  case neg =>
    have hnot : s.rolls m answers = false := by simp [State.rolls, hfile, hroll]
    rw [Ledger.rolled, if_neg hroll, hnot]
    rfl
  case pos =>
    obtain ⟨hhelper, hneed⟩ := Bool.and_eq_true_iff.mp hroll
    have hlt := hr.2.1 f hfile hhelper hneed
    obtain ⟨g, hfind, rfl⟩ := Option.map_eq_some_iff.mp hfile
    obtain ⟨hc, before, after, hfiles, -⟩ := updateFile_of_find? hfind
    have hg := List.mem_of_find?_eq_some hfind
    have hnames := rollsToNewName hk ho hr.2 hnamed
    obtain ⟨fs', hdone, -⟩ := follows_roll hk hfiles hr.1
      (fun hneed => by simpa [namedByTime, hneed] using hnamed) (hnames g.2 hfile)
    rw [if_pos hroll] at hdone
    -- the directory of the channel has no other file
    have hnot : g.2.newFilepath answers.newRecordDirName ∉ paths s.run.recorder.files := by
      intro hmem
      obtain ⟨g', hg', hpath⟩ := List.mem_map.mp hmem
      have hparent : s.run.recorder.channelDir g'.1 = s.run.recorder.channelDir g.1 := by
        rw [← hk.parent g' hg', ← hk.parent g hg, hpath]
        rfl
      have hsame := ho.file_unique hg' hg (channelDir_injective hparent)
      rw [hsame] at hpath
      exact absurd (congrArg Path.name hpath) hlt.ne
    have hrolled : Ledger.rolled s.run.recorder.files g.2 answers =
        g.2.rolledTo (g.2.newFilepath answers.newRecordDirName) := by
      rw [Ledger.rolled, if_pos hroll, if_neg hnot]
    have hopen : (g.2.roll s.run.recorder.fs answers).1 = true := by
      refine roll_of_filepath fun hsame => ?_
      rw [hdone, hrolled] at hsame
      exact absurd (congrArg Path.name hsame) hlt.ne'
    have hrolls : s.rolls m answers = true := by simp [State.rolls, hfile, hroll, hopen]
    rw [hrolled, hrolls, if_pos rfl]
    rfl

/-- After a write the files of the other channels are as before. -/
theorem mem_files_deliver (ho : InOrder s.run) {m : Published codec} {now : Int64}
    {answers : WriteAnswers}
    (hnext : s.run.ledger.next (.deliver m now answers) = some t.run.ledger) :
    ∃ f, fileOf s.run.recorder.files m.channel = some f ∧ (m.channel, f) ∈ s.run.recorder.files ∧
      ∀ g ∈ t.run.recorder.files,
        g = (m.channel, Ledger.rolled s.run.recorder.files f answers) ∨
          g ∈ s.run.recorder.files ∧ g.1 ≠ m.channel := by
  obtain ⟨f, hfile, hledger⟩ := Option.map_eq_some_iff.mp hnext
  have hfile' : fileOf s.run.recorder.files m.channel = some f := hfile
  obtain ⟨⟨c, f'⟩, hfind, rfl⟩ := Option.map_eq_some_iff.mp hfile'
  obtain ⟨hc, before, after, hall, hupd⟩ := updateFile_of_find? hfind
  obtain rfl : c = m.channel := hc
  have hfiles := (congrArg Ledger.files hledger).symm.trans (hupd _)
  refine ⟨f', hfile', List.mem_of_find?_eq_some hfind, fun g hg => ?_⟩
  change g ∈ t.run.ledger.files at hg
  rw [hfiles] at hg
  have hdirs := ho.dirs
  rw [hall, List.map_append, List.map_cons] at hdirs
  obtain ⟨-, hafter, hapart⟩ := List.nodup_append.mp hdirs
  simp only [List.mem_append, List.mem_cons] at hg
  rcases hg with hg | rfl | hg
  · refine Or.inr ⟨by simp [hall, hg], fun hgc => ?_⟩
    exact hapart _ (List.mem_map_of_mem hg) _ List.mem_cons_self (congrArg Channel.dir hgc)
  · exact Or.inl rfl
  · refine Or.inr ⟨by simp [hall, hg], fun hgc => ?_⟩
    exact (List.nodup_cons.mp hafter).1 (List.mem_map.mpr ⟨g, hg, congrArg Channel.dir hgc⟩)

/-- What a write adds to the records. -/
theorem mem_written_deliver (hk : Keeps s.run) (hk' : Keeps t.run) {m : Published codec}
    {now : Int64} {answers : WriteAnswers}
    (hnext : s.run.ledger.next (.deliver m now answers) = some t.run.ledger)
    {w : Written codec} (hw : w ∈ t.run.recorder.written) :
    w ∈ s.run.recorder.written ∨ w.key.timestampNs = now := by
  obtain ⟨f, -, hledger⟩ := Option.map_eq_some_iff.mp hnext
  have hputs : t.run.puts = _ := (congrArg Ledger.puts hledger).symm
  rw [← hk'.written, hputs] at hw
  rw [← hk.written]
  split_ifs at hw with hput
  · rw [List.map_append, List.mem_append] at hw
    refine hw.imp_right fun hw => ?_
    rw [List.mem_singleton.mp hw]
    rfl
  · exact Or.inl hw

theorem step_run (hstep : step texts s op = some t) : s.nextHelpers texts op = some t.helpers ∧
    RecorderRun.step s.run (s.opOf texts op) = some t.run ∧ t.rolling = s.rolling ∧
      t.clock = s.nextClock op := by
  obtain ⟨helpers, hhelpers, h⟩ := Option.bind_eq_some_iff.mp hstep
  obtain ⟨run, hrun, rfl⟩ := Option.map_eq_some_iff.mp h
  exact ⟨hhelpers, hrun, rfl, rfl⟩

theorem clock_le (hm : ClockAdvances s op) (hstep : step texts s op = some t) :
    s.clock ≤ t.clock := by
  rw [(step_run hstep).2.2.2]
  cases op with
  | registerChannel channel linkname name helper renames answers => exact hm.1.trans hm.2.1
  | deliver m times opens renames put =>
    exact hm.1.trans (hm.2.1.trans (hm.2.2.1.trans hm.2.2.2.1))
  | makeKey now => exact le_refl _
  | generateSnapshot dir answers => exact le_refl _

/-- A step that leaves the files, the helpers and the records alone. -/
theorem OnTime.of_eq (h : OnTime texts s) (hclock : s.clock ≤ t.clock)
    (hfiles : t.run.recorder.files = s.run.recorder.files) (hhelpers : t.helpers = s.helpers)
    (hwritten : t.run.recorder.written = s.run.recorder.written) : OnTime texts t :=
  ⟨h.clock.trans hclock, fun w hw => (h.keys w (hwritten ▸ hw)).trans hclock,
    hfiles ▸ hhelpers ▸ h.helper⟩

theorem onTime_registerChannel {channel : Channel} {linkname : String} {name helper : ℤ}
    {renames : Bool} {answers : OpenAnswers} (h : OnTime texts s) (ho : Ordered made s.run)
    (hm : Meets texts s (.registerChannel channel linkname name helper renames answers))
    (hstep : step texts s (.registerChannel channel linkname name helper renames answers) =
      some t) :
    OnTime texts t := by
  obtain ⟨hname, hhelper, -⟩ := hm.clockAdvances
  have hclock := clock_le hm.clockAdvances hstep
  obtain ⟨hcreated, hrun, -, -⟩ := step_run hstep
  obtain ⟨hnext, hkt⟩ := next_of_rolls ho.inOrder ho.keeps (rolls_of_meets h hm) hrun
  have hl := Option.some.inj hnext
  have hwritten := written_eq ho.keeps hkt (congrArg Ledger.puts hl).symm
  obtain ⟨created, hcreate, hhelpers⟩ := Option.map_eq_some_iff.mp hcreated
  -- a channel with a directory of its own has no file yet, so its helper is the one just made
  have hnone : fileOf s.run.recorder.files channel = none := by
    refine Option.map_eq_none_iff.mpr (List.find?_eq_none.mpr fun g hg hgc => ?_)
    exact hm.newChannel g hg (congrArg Channel.dir (of_decide_eq_true hgc))
  rw [hnone, Option.isSome_none, if_neg Bool.false_ne_true] at hhelpers
  refine ⟨h.clock.trans hclock, fun w hw => (h.keys w (hwritten ▸ hw)).trans hclock, ?_⟩
  intro g hg k hk
  change g ∈ t.run.ledger.files at hg
  rw [← hl] at hg
  rw [← hhelpers] at hk
  rcases List.mem_append.mp hg with hg | hg
  · rw [Function.update_of_ne fun hgc => hm.newChannel g hg (congrArg Channel.dir hgc)] at hk
    exact h.helper g hg k hk
  · obtain rfl := List.mem_singleton.mp hg
    have hk : k ∈ created := by simpa [MessageRecorder.openedFile] using hk
    have hpos : 0 ≤ name := h.clock.trans hname
    cases created with
    | none => cases hk
    | some helper' =>
      cases hk
      obtain ⟨u, hu, hlt⟩ := ahead_of_create (hpos.trans hhelper) hcreate
      exact ⟨name, rfl, hpos, u, hu, hhelper.trans_lt hlt⟩

theorem onTime_deliver {m : Published codec} {times : WriteTimes} {opens : OpenAnswers}
    {renames put : Bool} (h : OnTime texts s) (ho : Ordered made s.run)
    (hm : Meets texts s (.deliver m times opens renames put))
    (hstep : step texts s (.deliver m times opens renames put) = some t) : OnTime texts t := by
  obtain ⟨hkey, hwrite, hname, hreset, -⟩ := hm.clockAdvances
  have hadvance := clock_le hm.clockAdvances hstep
  obtain ⟨hhelpers, hrun, -, hclock⟩ := step_run hstep
  have hr := rolls_of_meets h hm
  obtain ⟨hnext, hkt⟩ := next_of_rolls ho.inOrder ho.keeps hr hrun
  obtain ⟨f, hfile, hf, hothers⟩ := mem_files_deliver ho.inOrder hnext
  refine ⟨h.clock.trans hadvance, fun w hw => ?_, fun g hg k hk => ?_⟩
  · rcases mem_written_deliver ho.keeps hkt hnext hw with hw | hw
    · exact (h.keys w hw).trans hadvance
    · rw [hw, hclock]
      exact hwrite.trans (hname.trans hreset)
  have hhelpers := Option.some.inj hhelpers
  rw [← hhelpers] at hk
  rcases hothers g hg with rfl | ⟨hg, hgc⟩
  -- the file that was written to
  · have hnamed := name_rolled ho.inOrder ho.keeps hr (named_of_step hrun) hfile
    have hpos : 0 ≤ times.name := h.clock.trans (hkey.trans (hwrite.trans hname))
    rw [hnamed]
    split_ifs at hk ⊢ with hrolls
    · rw [Function.update_self] at hk
      obtain ⟨k', -, rfl⟩ := Option.map_eq_some_iff.mp hk
      obtain ⟨u, hu, hlt⟩ := ahead_reset s.rolling k' (hpos.trans hreset)
      exact ⟨times.name, rfl, hpos, u, hu, hreset.trans_lt hlt⟩
    · exact h.helper _ hf k hk
  · refine h.helper g hg k ?_
    split_ifs at hk with hrolls
    · rwa [Function.update_of_ne hgc] at hk
    · exact hk

theorem onTime_step (h : OnTime texts s) (ho : Ordered made s.run) (hm : Meets texts s op)
    (hstep : step texts s op = some t) : OnTime texts t := by
  have hclock := clock_le hm.clockAdvances hstep
  obtain ⟨hhelpers, hrun, -, -⟩ := step_run hstep
  have hr := rolls_of_meets h hm
  cases op with
  | registerChannel channel linkname name helper renames answers =>
    exact onTime_registerChannel h ho hm hstep
  | deliver m times opens renames put => exact onTime_deliver h ho hm hstep
  | makeKey now =>
    obtain ⟨hnext, hkt⟩ := next_of_rolls ho.inOrder ho.keeps hr hrun
    have hl := Option.some.inj hnext
    exact h.of_eq hclock (congrArg Ledger.files hl).symm (Option.some.inj hhelpers).symm
      (written_eq ho.keeps hkt (congrArg Ledger.puts hl).symm)
  | generateSnapshot dir answers =>
    obtain ⟨hkt, hledger⟩ := keeps_step ho.keeps ⟨hm.succeeds, trivial⟩ hrun
    have hl := hledger rfl
    exact h.of_eq hclock (congrArg Ledger.files hl) (Option.some.inj hhelpers).symm
      (written_eq ho.keeps hkt (congrArg Ledger.puts hl))

variable (texts) in
theorem countP_opOf (s : State codec) (op : Op codec) :
    [s.opOf texts op].countP RecorderRun.Op.makesKey = [op].countP Op.makesKey := by
  cases op <;> rfl

variable (texts) in
/-- What the recorder keeps while its clock does not step back. -/
structure Kept (made : Fin 16 → ℕ) (s : State codec) : Prop where
  onTime : OnTime texts s
  ordered : Ordered made s.run

theorem kept_of_init (hs : (system texts codec).init s) :
    Kept texts (fun i => (s.run.recorder.globalCounters i).toNat) s := by
  obtain ⟨hstart, hnew, hclock, -⟩ := hs
  have hwritten : s.run.recorder.written = [] := by rw [← hstart.written, hnew, List.map_nil]
  exact ⟨⟨hclock, by simp [hwritten], by simp [hstart.files]⟩, ordered_of_start hstart hnew⟩

/-- A step on time is one that goes forward, so it keeps the order. -/
theorem kept_step {n : ℕ} (h : Kept texts made s)
    (hb : ∀ i, made i + ([op].countP Op.makesKey + n) ≤ 2 ^ 64) (hm : Meets texts s op)
    (hstep : step texts s op = some t) :
    Kept texts ((s.opOf texts op).count made) t ∧
      ∀ i, (s.opOf texts op).count made i + n ≤ 2 ^ 64 := by
  rw [← countP_opOf texts s] at hb
  obtain ⟨ho, hroom⟩ := ordered_step h.ordered hb (rolls_of_meets h.onTime hm) (step_run hstep).2.1
  exact ⟨⟨onTime_step h.onTime h.ordered hm hstep, ho⟩, hroom⟩

theorem kept_of_run {ops : List (Op codec)} (h : Kept texts made s)
    (hb : ∀ i, made i + ops.countP Op.makesKey ≤ 2 ^ 64)
    (hmeet : (system texts codec).StepsMeet (Meets texts) s ops)
    (hrun : (system texts codec).exec s ops = some t) :
    ∃ made, Kept texts made t := by
  induction ops generalizing s made with
  | nil =>
    cases hrun
    exact ⟨made, h⟩
  | cons op ops ih =>
    obtain ⟨u, hu, hrest⟩ := Option.bind_eq_some_iff.mp hrun
    have hroom : ∀ i, made i + ([op].countP Op.makesKey + ops.countP Op.makesKey) ≤ 2 ^ 64 := by
      intro i
      rw [← List.countP_append]
      exact hb i
    obtain ⟨hu', hbu⟩ := kept_step h hroom hmeet.1 hu
    exact ih hu' hbu (hmeet.2 u hu) hrest

end Steps

/-- A recorder that never rolls, or rolls by day or by hour, and whose clock does not step back,
reads back as it was written: the directories of a channel, named after the times at which they
were begun, give its records in the order in which they were put. -/
theorem clocked_recording_reads_back {s t : State codec} {ops : List (Op codec)}
    (answers : Path → OpenAnswers) (hs : (system texts codec).init s)
    (hkeys : ∀ i, (s.run.recorder.globalCounters i).toNat + ops.countP Op.makesKey ≤ 2 ^ 64)
    (hmeet : (system texts codec).StepsMeet (Meets texts) s ops)
    (hrun : (system texts codec).exec s ops = some t)
    {g : Channel × RecordFile} (hg : g ∈ t.run.recorder.files) (hw : ∀ p, Willing (answers p)) :
    readFiles answers (clearFiles t.run.recorder.fs t.run.recorder.files)
        (listLevelDBDirs (clearFiles t.run.recorder.fs t.run.recorder.files)
          t.run.recorder.recordDir g.1) =
      some ((t.run.recorder.written.filter fun w => w.channel = g.1).map Written.record) := by
  obtain ⟨_, h⟩ := kept_of_run (kept_of_init hs) hkeys hmeet hrun
  exact readFiles_channel h.ordered.inOrder h.ordered.keeps hg hw

section Sample

/-- A recorder that rolls by the hour, at the epoch. -/
def hourState : State rawCodec :=
  ⟨newState, .kHour, fun _ => none, 0⟩

instance (s : State codec) : (op : Op codec) → Decidable (ClockAdvances s op)
  | .registerChannel .. => inferInstanceAs (Decidable (_ ∧ _ ∧ _))
  | .deliver .. => inferInstanceAs (Decidable (_ ∧ _ ∧ _ ∧ _ ∧ _))
  | .makeKey _ | .generateSnapshot .. => inferInstanceAs (Decidable True)

instance (s : State codec) : (op : Op codec) → Decidable (NewChannel s op)
  | .registerChannel .. => inferInstanceAs (Decidable (∀ _ ∈ _, _ ≠ _))
  | .deliver .. | .makeKey _ | .generateSnapshot .. => inferInstanceAs (Decidable True)

instance (s : State codec) (op : Op codec) : Decidable (Meets texts s op) :=
  decidable_of_iff (Succeeds s.run (s.opOf texts op) ∧ NewChannel s op ∧ ClockAdvances s op)
    ⟨fun h => ⟨h.1, h.2.1, h.2.2⟩, fun h => ⟨h.1, h.2, h.3⟩⟩

/-- A write of the int channel at a second, with all readings in it. -/
def writeAt (message : Bytes) (second : ℤ) : Op rawCodec :=
  let t := second * 1000000000
  .deliver ⟨intChannel, message⟩ ⟨Int64.ofInt t, t, t, t⟩ willing true true

/-- Two records in the first hour, one in the second hour after its first minute, one an hour
later. -/
def hourRun : List (Op rawCodec) :=
  [.registerChannel intChannel "" 1 2 true willing, writeAt [0] 5, writeAt [1] 3659,
    writeAt [2] 3660, .generateSnapshot ["snapshots", "first"] allSucceed, writeAt [3] 7261]

def hourEnd : State rawCodec := (system civilTexts rawCodec).after hourState hourRun

theorem clocked_recording_reads_back_hourEnd :
    let fs := clearFiles hourEnd.run.recorder.fs hourEnd.run.recorder.files
    (listLevelDBDirs fs ["records", "host"] intChannel).map Path.name =
        ["19700101T000000.ldb.d", "19700101T010100.ldb.d", "19700101T020101.ldb.d"] ∧
      readFiles (fun _ => willing) fs (listLevelDBDirs fs ["records", "host"] intChannel) =
        some [(⟨5000000000, 0⟩, [0]), (⟨3659000000000, 1⟩, [1]), (⟨3660000000000, 2⟩, [2]),
          (⟨7261000000000, 3⟩, [3])] := by
  have hfind : (hourEnd.run.recorder.files.find? fun g => g.1 = intChannel).isSome = true := by
    decide +kernel
  obtain ⟨g, hfind⟩ := Option.isSome_iff_exists.mp hfind
  have hc : g.1 = intChannel := by simpa using List.find?_some hfind
  have hread := clocked_recording_reads_back civilTexts (s := hourState) (fun _ => willing)
    ⟨start_newState, rfl, Int.le_refl 0, rfl⟩ (by decide) (by decide +kernel)
    ((system civilTexts rawCodec).exec_after (by decide +kernel) : _ = some hourEnd)
    (List.mem_of_find?_eq_some hfind) fun _ => by decide
  rw [hc] at hread
  refine ⟨by decide +kernel, hread.trans ?_⟩
  decide +kernel

end Sample

end CrisCore.ClockedRecorder
