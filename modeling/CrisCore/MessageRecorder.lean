import CrisCore.RecordFileContents

/-! `MessageRecorder` without snapshots: the messages of registered channels are written to record
files, one after the other, as `record_strand_` delivers them. -/
namespace CrisCore

structure Channel where
  /-- `GetTypeName` of the message type. -/
  messageType : String
  subid : UInt64
  deriving DecidableEq

/-- What is not a letter or digit becomes an underscore, byte by byte. -/
def getMessageFileName (messageType : String) : String :=
  .ofList (messageType.toList.flatMap fun c =>
    if c.isAlphanum then [c] else List.replicate c.utf8Size '_')

def kLevelDBDirSuffix : String := ".ldb.d"

/-- The directory of a channel's records under that of the recorder's host. -/
def Channel.dir (channel : Channel) : List String :=
  [getMessageFileName channel.messageType, toString channel.subid.toNat]

/-- The message types, by name, and their serialization. -/
structure MessageCodec where
  Message : String → Type
  messageToStr : {type : String} → Message type → Bytes
  messageFromStr : (type : String) → Bytes → Message type
  fromStr_toStr : ∀ {type} (message : Message type),
    messageFromStr type (messageToStr message) = message

/-- A message on its channel. -/
structure Published (codec : MessageCodec) where
  channel : Channel
  message : codec.Message channel.messageType

structure Written (codec : MessageCodec) extends Published codec where
  key : RecordFileKey

def Written.entry {codec : MessageCodec} (w : Written codec) : Bytes × Bytes :=
  (w.key.toBytes, codec.messageToStr w.message)

structure MessageRecorder (codec : MessageCodec) where
  fs : FileSystem
  globalCounters : RecordFileKey.Counters
  /-- `GetRecordDir() / hostname_`. -/
  recordDir : List String
  /-- `recorder_config_.rolling_` is not `kNone`. -/
  rolling : Bool
  /-- `files_`, each with the channel whose subscription writes to it. -/
  files : List (Channel × RecordFile)
  /-- The messages whose `Put` succeeded so far. -/
  written : List (Written codec)

namespace MessageRecorder
variable {codec : MessageCodec}

inductive Op (codec : MessageCodec)
  | registerChannel (channel : Channel) (linkname utcTime : String) (renames : Bool)
      (answers : OpenAnswers)
  | deliver (message : Published codec) (now : Int64) (answers : WriteAnswers)
  /-- `RecordFileKey::Make` in another record file of the process. -/
  | makeKey (now : Int64)

def channelDir (s : MessageRecorder codec) (channel : Channel) : List String :=
  s.recordDir ++ channel.dir

/-- The record file of `CreateFile` before its constructor calls `OpenDB`. -/
def newFile (s : MessageRecorder codec) (channel : Channel) (linkname utcTime : String) : RecordFile :=
  .unopened ⟨s.channelDir channel, utcTime ++ kLevelDBDirSuffix⟩ linkname s.rolling

/-- The first record file of a channel is the one its subscription writes to. -/
def updateFile (channel : Channel) (file : RecordFile) :
    List (Channel × RecordFile) → List (Channel × RecordFile)
  | [] => []
  | g :: rest => if g.1 = channel then (channel, file) :: rest else g :: updateFile channel file rest

/-- No step where `OpenDB` throws, where the channel of a message has no subscription and where
`Put` is called through a null `db_`. -/
def step (s : MessageRecorder codec) : Op codec → Option (MessageRecorder codec)
  | .registerChannel channel linkname utcTime renames answers =>
    match (s.newFile channel linkname utcTime).openDB s.fs renames answers with
    | (.error _, _, _) => none
    | (.ok _, fs, file) => some { s with fs := fs, files := s.files ++ [(channel, file)] }
  | .deliver m now answers =>
    match s.files.find? fun g => g.1 = m.channel with
    | none => none
    | some (_, file) =>
      let made := RecordFileKey.make now s.globalCounters
      (file.write s.fs made.1 (codec.messageToStr m.message) answers).map fun result =>
        { s with
          fs := result.2.1
          globalCounters := made.2
          files := updateFile m.channel result.2.2 s.files
          written := if result.1 then s.written ++ [{ m with key := made.1 }] else s.written }
  | .makeKey now =>
    some { s with globalCounters := (RecordFileKey.make now s.globalCounters).2 }

def system (codec : MessageCodec) : TransitionSystem (MessageRecorder codec) (Op codec) where
  init s := s.files = [] ∧ s.written = []
  step := step

/-- `files_.clear()`. -/
def clearFiles (fs : FileSystem) : List (Channel × RecordFile) → FileSystem
  | [] => fs
  | (_, file) :: rest => clearFiles (file.closeDB fs true).1 rest

/-- A step in which all operations of the file system and LevelDB succeed, no roll is due and the
clock, at or after the epoch, does not step back. Every channel has a directory of its own. -/
def Orderly (s : MessageRecorder codec) : Op codec → Prop
  | .registerChannel channel _ _ renames answers =>
    renames = true ∧ Willing answers ∧ ∀ g ∈ s.files, g.1.dir ≠ channel.dir
  | .deliver _ now answers =>
    answers.put = true ∧ (s.rolling = true → answers.needToRoll = false) ∧ 0 ≤ now.toInt ∧
      ∀ w ∈ s.written, w.key.timestampNs.toInt ≤ now.toInt
  | .makeKey _ => True

instance (s : MessageRecorder codec) : (op : Op codec) → Decidable (Orderly s op)
  | .registerChannel .. => inferInstanceAs (Decidable (_ ∧ _ ∧ _))
  | .deliver .. => inferInstanceAs (Decidable (_ ∧ (_ → _) ∧ _ ∧ _))
  | .makeKey _ => inferInstanceAs (Decidable True)

/-- The records of a channel, in the order in which they were written. -/
def records (written : List (Written codec)) (channel : Channel) : List (Bytes × Bytes) :=
  (written.filter fun w => w.channel = channel).map Written.entry

/-- Nothing is there yet under the record directory. -/
def FreshDir (fs : FileSystem) (dir : List String) : Prop :=
  ∀ p, dir <+: p.parent → fs.node p = none ∧ p ∉ fs.locks

/-- An open record file of a recorder. -/
structure IsOpenAt (dir : List String) (f : RecordFile) : Prop where
  parent : f.filepath.parent = dir
  suffix : hasSuffix f.filepath.name kLevelDBDirSuffix = true
  db : f.db = some ⟨f.filepath.unfinishedPath, false⟩
  legacy : f.legacy = false

/-- The recorder's part of the disk during an orderly run. -/
structure Recording (s : MessageRecorder codec) : Prop where
  opened : ∀ g ∈ s.files, IsOpenAt (s.channelDir g.1) g.2
  rolling : ∀ g ∈ s.files, g.2.rollingHelper = s.rolling
  dirs : (s.files.map fun g => g.1.dir).Nodup
  stored : ∀ g ∈ s.files, s.fs.node g.2.filepath.unfinishedPath =
    some (.dir ⟨some ⟨false, records s.written g.1⟩, []⟩)
  only : ∀ p, s.recordDir <+: p.parent → (s.fs.node p ≠ none ∨ p ∈ s.fs.locks) →
    ∃ g ∈ s.files, p = g.2.filepath.unfinishedPath
  channel : ∀ w ∈ s.written, ∃ g ∈ s.files, g.1 = w.channel
  sorted : s.written.Pairwise fun v w => RecordFileKey.compare v.key w.key = .lt
  nonneg : ∀ w ∈ s.written, 0 ≤ w.key.timestampNs.toInt

/-- No counter wrapped yet: each is the number of keys made in its slot, and the keys written so
far have smaller counts. -/
def Counted (s : MessageRecorder codec) (made : Fin 16 → ℕ) : Prop :=
  (∀ i, s.globalCounters i = UInt64.ofNat (made i)) ∧
    ∀ w ∈ s.written, w.key.count.toNat < made (RecordFileKey.slot w.key.timestampNs)

/-- The messages delivered in a run. -/
def delivered : List (Op codec) → List (Published codec)
  | [] => []
  | .deliver m _ _ :: ops => m :: delivered ops
  | .registerChannel .. :: ops => delivered ops
  | .makeKey _ :: ops => delivered ops

/-- A step that makes a key. -/
def Op.makesKey : Op codec → Bool
  | .registerChannel .. => false
  | .deliver .. => true
  | .makeKey _ => true

section Steps
variable {s t : MessageRecorder codec} {made : Fin 16 → ℕ} {channel : Channel}

theorem records_append (written : List (Written codec)) (w : Written codec) (channel : Channel) :
    records (written ++ [w]) channel =
      if w.channel = channel then records written channel ++ [w.entry] else records written channel := by
  simp only [records, List.filter_append, List.map_append]
  split_ifs with h <;> simp [h]

theorem Recording.file_unique (h : Recording s) {g g' : Channel × RecordFile} (hg : g ∈ s.files)
    (hg' : g' ∈ s.files) (hd : g.1.dir = g'.1.dir) : g = g' :=
  List.inj_on_of_nodup_map h.dirs hg hg' hd

theorem channelDir_injective {c c' : Channel} (h : s.channelDir c = s.channelDir c') :
    c.dir = c'.dir :=
  List.append_cancel_left h

/-- The directory of a channel that has no record file yet is not in use. -/
theorem Recording.free (h : Recording s) (hc : ∀ g ∈ s.files, g.1.dir ≠ channel.dir) {p : Path}
    (hp : p.parent = s.channelDir channel) : s.fs.node p = none ∧ p ∉ s.fs.locks := by
  have hunder : s.recordDir <+: p.parent := ⟨channel.dir, hp.symm⟩
  have hno : ¬ ∃ g ∈ s.files, p = g.2.filepath.unfinishedPath := by
    rintro ⟨g, hg, rfl⟩
    have hpar : s.channelDir g.1 = s.channelDir channel := by
      rw [← (h.opened g hg).parent]
      exact hp
    exact hc g hg (channelDir_injective hpar)
  constructor
  · by_contra hn
    exact hno (h.only p hunder (Or.inl hn))
  · intro hl
    exact hno (h.only p hunder (Or.inr hl))

theorem Recording.registerChannel (h : Recording s) {linkname utcTime : String} {renames : Bool}
    {answers : OpenAnswers} (ho : Orderly s (.registerChannel channel linkname utcTime renames answers))
    (hst : s.step (.registerChannel channel linkname utcTime renames answers) = some t) :
    Recording t ∧ t.recordDir = s.recordDir ∧ t.globalCounters = s.globalCounters ∧
      t.written = s.written := by
  obtain ⟨rfl, hw, hc⟩ := ho
  set f := s.newFile channel linkname utcTime with hf
  have hpath : f.filepath = ⟨s.channelDir channel, utcTime ++ kLevelDBDirSuffix⟩ := rfl
  have hfin := (h.free hc (p := f.filepath) rfl).1
  obtain ⟨hown, hlock⟩ := h.free hc (p := f.filepath.unfinishedPath) rfl
  have hne : f.filepath.isEmpty = false := by
    simp [hpath, Path.isEmpty, channelDir, Channel.dir]
  have hopen : f.openDB s.fs true answers = _ :=
    RecordFile.openDB_fresh rfl hne hfin hown hlock hw
  simp only [step, ← hf, hopen, Option.some.injEq] at hst
  subst hst
  -- the other open files have other names
  have hother : ∀ g ∈ s.files, g.2.filepath.unfinishedPath ≠ f.filepath.unfinishedPath := by
    intro g hg he
    refine hc g hg (channelDir_injective (s := s) ?_)
    rw [← (h.opened g hg).parent]
    exact congrArg Path.parent he
  -- nothing was written for a channel without a file
  have hnone : records s.written channel = [] := by
    simp only [records, List.map_eq_nil_iff, List.filter_eq_nil_iff, decide_eq_true_eq]
    rintro w hm rfl
    obtain ⟨g, hg, hgc⟩ := h.channel w hm
    exact hc g hg (congrArg Channel.dir hgc)
  refine ⟨⟨?_, ?_, ?_, ?_, ?_, ?_, h.sorted, h.nonneg⟩, rfl, rfl, rfl⟩
  -- how each file is open, then how it rolls
  · intro g hg
    rcases List.mem_append.mp hg with hg | hg
    · exact h.opened g hg
    · cases List.mem_singleton.mp hg
      exact ⟨rfl, hasSuffix_append _ _, rfl, rfl⟩
  · intro g hg
    rcases List.mem_append.mp hg with hg | hg
    · exact h.rolling g hg
    · cases List.mem_singleton.mp hg
      rfl
  -- no two files in one directory
  · simp only [List.map_append, List.map_cons, List.map_nil]
    refine List.nodup_append.mpr ⟨h.dirs, by simp, ?_⟩
    simpa using fun _ c f hg he => he ▸ hc (c, f) hg
  -- what each database holds
  · intro g hg
    simp only [RecordFile.makeLink_node, FileSystem.node_lock, FileSystem.node_set]
    rcases List.mem_append.mp hg with hg | hg
    · rw [if_neg (hother g hg)]
      exact h.stored g hg
    · cases List.mem_singleton.mp hg
      simp [hnone]
  -- nothing else below the record directory
  · intro p hp hn
    simp only [RecordFile.makeLink_node, RecordFile.makeLink_locks, FileSystem.node_lock,
      FileSystem.node_set] at hn
    by_cases hpf : p = f.filepath.unfinishedPath
    · exact ⟨_, List.mem_append_right _ (List.mem_singleton_self _), hpf⟩
    · have hold : s.fs.node p ≠ none ∨ p ∈ s.fs.locks := by
        simpa [FileSystem.lock, FileSystem.set, hpf] using hn
      obtain ⟨g, hg, hpg⟩ := h.only p hp hold
      exact ⟨g, List.mem_append_left _ hg, hpg⟩
  -- every record has its file
  · intro w hm
    obtain ⟨g, hg, hgc⟩ := h.channel w hm
    exact ⟨g, List.mem_append_left _ hg, hgc⟩

theorem make_count {now : Int64} (hc : Counted s made)
    (hb : made (RecordFileKey.slot now) < 2 ^ 64) :
    (RecordFileKey.make now s.globalCounters).1.count.toNat = made (RecordFileKey.slot now) := by
  simp only [RecordFileKey.make, hc.1]
  exact UInt64.toNat_ofNat_of_lt hb

/-- The counters after one more key. -/
theorem make_counters {now : Int64} (hc : ∀ i, s.globalCounters i = UInt64.ofNat (made i))
    (i : Fin 16) : (RecordFileKey.make now s.globalCounters).2 i =
      UInt64.ofNat (Function.update made (RecordFileKey.slot now)
        (made (RecordFileKey.slot now) + 1) i) := by
  simp only [RecordFileKey.make, Function.update_apply, hc]
  split_ifs
  · exact (UInt64.ofNat_add _ _).symm
  · rfl

theorem lt_update {now : Int64} {n : ℕ} {i : Fin 16} (h : n < made i) :
    n < Function.update made (RecordFileKey.slot now) (made (RecordFileKey.slot now) + 1) i := by
  rw [Function.update_apply]
  split_ifs with hi
  · rw [hi] at h
    omega
  · exact h

/-- Making a key uses up one of those that are left. -/
theorem room_update {n : ℕ} {j : Fin 16} (hb : ∀ i, made i + (n + 1) ≤ 2 ^ 64) (i : Fin 16) :
    Function.update made j (made j + 1) i + n ≤ 2 ^ 64 := by
  have hi := hb i
  have hj := hb j
  rw [Function.update_apply]
  split_ifs <;> omega

theorem Counted.makeKey {now : Int64} (hc : Counted s made) :
    Counted { s with globalCounters := (RecordFileKey.make now s.globalCounters).2 }
      (Function.update made (RecordFileKey.slot now) (made (RecordFileKey.slot now) + 1)) :=
  ⟨make_counters hc.1, fun w hw => lt_update (hc.2 w hw)⟩

theorem Counted.congr (hc : Counted s made) (hcounters : t.globalCounters = s.globalCounters)
    (hwritten : t.written = s.written) : Counted t made := by
  unfold Counted at hc ⊢
  rwa [hcounters, hwritten]

/-- The counts of the records after one more, with the key just made. -/
theorem Counted.append {now : Int64} (hc : Counted s made)
    (hb : made (RecordFileKey.slot now) < 2 ^ 64) {w : Written codec}
    (hkey : w.key = (RecordFileKey.make now s.globalCounters).1) :
    Counted { s with
        globalCounters := (RecordFileKey.make now s.globalCounters).2
        written := s.written ++ [w] }
      (Function.update made (RecordFileKey.slot now) (made (RecordFileKey.slot now) + 1)) := by
  refine ⟨make_counters hc.1, fun v hv => ?_⟩
  rcases List.mem_append.mp hv with hv | hv
  · exact lt_update (hc.2 v hv)
  · cases List.mem_singleton.mp hv
    rw [hkey, make_count hc hb]
    simp [RecordFileKey.make]

/-- The new key is greater than those of the records before it. -/
theorem compare_make {now : Int64} (hnonneg : ∀ w ∈ s.written, 0 ≤ w.key.timestampNs.toInt)
    (hc : Counted s made) (hb : made (RecordFileKey.slot now) < 2 ^ 64)
    (hnow : ∀ w ∈ s.written, w.key.timestampNs.toInt ≤ now.toInt) :
    ∀ w ∈ s.written, RecordFileKey.compare w.key (RecordFileKey.make now s.globalCounters).1 = .lt := by
  intro w hw
  apply RecordFileKey.compare_eq_lt (hnonneg w hw)
  rcases (hnow w hw).lt_or_eq with hlt | heq
  · exact Or.inl hlt
  · have hts : w.key.timestampNs = now := Int64.toInt_inj.mp heq
    refine Or.inr ⟨hts, ?_⟩
    rw [make_count hc hb, ← hts]
    exact hc.2 w hw

/-- A record with a greater key than all others goes to the end of the database of its channel. -/
theorem put_records {written : List (Written codec)} {w : Written codec}
    (hlt : ∀ v ∈ written, RecordFileKey.compare v.key w.key = .lt) :
    (Database.mk false (records written w.channel)).put w.key.toBytes
        (codec.messageToStr w.message) = ⟨false, records (written ++ [w]) w.channel⟩ := by
  have hgt : ∀ e ∈ records written w.channel,
      Database.comparator false w.key.toBytes e.1 = .gt := by
    intro e he
    obtain ⟨v, hv, rfl⟩ := List.mem_map.mp he
    change RecordFileKey.compare w.key v.key = .gt
    rw [← RecordFileKey.compare_swap, hlt v (List.mem_of_mem_filter hv)]
    rfl
  rw [records_append, if_pos rfl]
  simp only [Database.put, OrderedStore.put_eq_append hgt]
  rfl

theorem updateFile_of_find? {files : List (Channel × RecordFile)} {g : Channel × RecordFile}
    (h : files.find? (fun g => g.1 = channel) = some g) :
    g.1 = channel ∧ ∃ before after, files = before ++ g :: after ∧
      ∀ file, updateFile channel file files = before ++ (channel, file) :: after := by
  induction files with
  | nil => cases h
  | cons f rest ih =>
    simp only [List.find?_cons] at h
    split at h
    case h_1 hf =>
      cases h
      have hg : g.1 = channel := by simpa using hf
      exact ⟨hg, [], rest, rfl, fun file => by simp [updateFile, hg]⟩
    case h_2 hf =>
      have hf : f.1 ≠ channel := by simpa using hf
      obtain ⟨hg, before, after, hrest, hupd⟩ := ih h
      refine ⟨hg, f :: before, after, by rw [hrest, List.cons_append], fun file => ?_⟩
      rw [updateFile, if_neg hf, hupd, List.cons_append]

theorem find?_updateFile {files : List (Channel × RecordFile)} {g : Channel × RecordFile}
    (h : files.find? (fun g => g.1 = channel) = some g) (file : RecordFile) :
    (updateFile channel file files).find? (fun g => g.1 = channel) = some (channel, file) := by
  induction files with
  | nil => cases h
  | cons f rest ih =>
    simp only [List.find?_cons] at h
    simp only [updateFile]
    split_ifs with hf
    · simp
    · simp only [hf, decide_false] at h
      simpa [hf] using ih h

theorem Recording.deliver (h : Recording s) (hc : Counted s made) {m : Published codec}
    {now : Int64} {answers : WriteAnswers} (hb : made (RecordFileKey.slot now) < 2 ^ 64)
    (ho : Orderly s (.deliver m now answers)) (hst : s.step (.deliver m now answers) = some t) :
    Recording t ∧ t.recordDir = s.recordDir ∧ Counted t
      (Function.update made (RecordFileKey.slot now) (made (RecordFileKey.slot now) + 1)) ∧
      t.written = s.written ++ [{ m with key := (RecordFileKey.make now s.globalCounters).1 }] := by
  obtain ⟨hput, hroll, hnn, hnow⟩ := ho
  simp only [step] at hst
  split at hst
  case h_1 => cases hst
  case h_2 c f hfind =>
    obtain rfl : c = m.channel := by simpa using List.find?_some hfind
    have hg := List.mem_of_find?_eq_some hfind
    have hopen := h.opened _ hg
    set key := (RecordFileKey.make now s.globalCounters).1 with hkey
    rw [RecordFile.write_of_stays hopen.db (by rw [h.rolling _ hg]; exact hroll) hput] at hst
    -- the file object is what it was, so the table is too
    have hfiles : updateFile m.channel f s.files = s.files := by
      obtain ⟨-, before, after, hall, hupd⟩ := updateFile_of_find? hfind
      exact (hupd f).trans hall.symm
    simp only [Option.map_some, if_true, hfiles, Option.some.injEq] at hst
    subst hst
    -- the new key is behind all others
    have hlt := compare_make h.nonneg hc hb hnow
    refine ⟨⟨h.opened, h.rolling, h.dirs, ?_, ?_, ?_, ?_, ?_⟩, rfl, ?_, rfl⟩
    -- what each database holds: one record more, but in the files of other directories
    · intro g hg'
      by_cases hgc : g = (m.channel, f)
      · subst hgc
        simp only [FileSystem.node_put_self _ (h.stored _ hg'), Option.map_some,
          put_records (w := { m with key := key }) hlt]
      · have hdir : g.1.dir ≠ m.channel.dir := fun he => hgc (h.file_unique hg' hg he)
        have hne : g.2.filepath.unfinishedPath ≠ f.filepath.unfinishedPath := by
          intro he
          refine hdir (channelDir_injective (s := s) ?_)
          calc s.channelDir g.1 = g.2.filepath.parent := (h.opened g hg').parent.symm
            _ = f.filepath.parent := congrArg Path.parent (Path.unfinishedPath_injective he)
            _ = s.channelDir m.channel := hopen.parent
        rw [FileSystem.node_put_of_ne _ hne, h.stored g hg', records_append,
          if_neg fun he => hdir (congrArg Channel.dir he).symm]
    -- nothing else below the record directory
    · intro p hp hn
      apply h.only p hp
      by_cases hpf : p = f.filepath.unfinishedPath
      · refine Or.inl ?_
        rw [hpf, h.stored _ hg]
        simp
      · simpa [FileSystem.node_put_of_ne _ hpf] using hn
    -- every record has its file
    · intro w hw
      rcases List.mem_append.mp hw with hw | hw
      · exact h.channel w hw
      · cases List.mem_singleton.mp hw
        exact ⟨_, hg, rfl⟩
    -- the keys ascend
    · refine List.pairwise_append.mpr ⟨h.sorted, by simp, fun v hv w hw => ?_⟩
      cases List.mem_singleton.mp hw
      exact hlt v hv
    · intro w hw
      rcases List.mem_append.mp hw with hw | hw
      · exact h.nonneg w hw
      · cases List.mem_singleton.mp hw
        exact hnn
    -- and so does the counter of the slot
    · exact hc.append (w := { m with key := key }) hb rfl

theorem Recording.makeKey (h : Recording s) (counters : RecordFileKey.Counters) :
    Recording { s with globalCounters := counters } :=
  ⟨h.opened, h.rolling, h.dirs, h.stored, h.only, h.channel, h.sorted, h.nonneg⟩

/-- An orderly run that makes at most `2 ^ 64` keys of each slot leaves the records of every channel
in its file, in the order in which they were delivered. -/
theorem recording_of_run {ops : List (Op codec)} (h : Recording s) (hc : Counted s made)
    (hb : ∀ i, made i + ops.countP Op.makesKey ≤ 2 ^ 64)
    (ho : (system codec).StepsMeet Orderly s ops) (hrun : (system codec).exec s ops = some t) :
    Recording t ∧ t.recordDir = s.recordDir ∧ t.written.map Written.toPublished =
      s.written.map Written.toPublished ++ delivered ops := by
  induction ops generalizing s made with
  -- on the run; `made` grows with each key, and `hb` with it
  | nil =>
    cases hrun
    exact ⟨h, rfl, by simp [delivered]⟩
  | cons op ops ih =>
    obtain ⟨u, hu, hrest⟩ := Option.bind_eq_some_iff.mp hrun
    have hmeet := ho.2 u hu
    cases op with
    | registerChannel channel linkname utcTime renames answers =>
      obtain ⟨hk, hdir, hcnt, hwr⟩ := h.registerChannel ho.1 hu
      have hc' : Counted u made := hc.congr hcnt hwr
      obtain ⟨ht, hd, hpub⟩ := ih hk hc' (by simpa [Op.makesKey] using hb) hmeet hrest
      exact ⟨ht, hd.trans hdir, by rw [hpub, hwr, delivered]⟩
    | deliver m now answers =>
      rw [List.countP_cons_of_pos rfl] at hb
      have hnow := hb (RecordFileKey.slot now)
      obtain ⟨hk, hdir, hc', hwr⟩ := h.deliver hc (by omega) ho.1 hu
      obtain ⟨ht, hd, hpub⟩ := ih hk hc' (room_update hb) hmeet hrest
      exact ⟨ht, hd.trans hdir, by rw [hpub, hwr, delivered]; simp⟩
    | makeKey now =>
      rw [List.countP_cons_of_pos rfl] at hb
      cases hu
      have hk := h.makeKey (RecordFileKey.make now s.globalCounters).2
      obtain ⟨ht, hd, hpub⟩ := ih hk hc.makeKey (room_update hb) hmeet hrest
      exact ⟨ht, hd, by rw [hpub, delivered]⟩

end Steps

section Closing
variable {fs fs' : FileSystem} {dir : List String} {entries : List (Bytes × Bytes)} {f : RecordFile}
  {path : Path}

/-- In a directory of its own, the database that an open record file writes to. -/
structure OpenAt (fs : FileSystem) (dir : List String) (entries : List (Bytes × Bytes))
    (f : RecordFile) : Prop where
  isOpen : IsOpenAt dir f
  stored : fs.node f.filepath.unfinishedPath = some (.dir ⟨some ⟨false, entries⟩, []⟩)
  only : ∀ p, p.parent = dir → (fs.node p ≠ none ∨ p ∈ fs.locks) → p = f.filepath.unfinishedPath

/-- In a directory of its own, a committed database. -/
structure CommittedAt (fs : FileSystem) (dir : List String) (entries : List (Bytes × Bytes))
    (path : Path) : Prop where
  parent : path.parent = dir
  suffix : hasSuffix path.name kLevelDBDirSuffix = true
  stored : fs.node path = some (.dir ⟨some ⟨false, entries⟩, []⟩)
  only : ∀ p, p.parent = dir → fs.node p ≠ none → p = path
  unlocked : ∀ p, p.parent = dir → p ∉ fs.locks

/-- Nothing in the directory differs. -/
def SameAt (fs fs' : FileSystem) (dir : List String) : Prop :=
  ∀ p, p.parent = dir → fs'.node p = fs.node p ∧ (p ∈ fs'.locks ↔ p ∈ fs.locks)

theorem OpenAt.congr (h : OpenAt fs dir entries f) (hs : SameAt fs fs' dir) :
    OpenAt fs' dir entries f where
  isOpen := h.isOpen
  stored := (hs f.filepath.unfinishedPath h.isOpen.parent).1.trans h.stored
  only p hp hn := h.only p hp (by rwa [(hs p hp).1, (hs p hp).2] at hn)

theorem CommittedAt.congr (h : CommittedAt fs dir entries path) (hs : SameAt fs fs' dir) :
    CommittedAt fs' dir entries path where
  parent := h.parent
  suffix := h.suffix
  stored := (hs _ h.parent).1.trans h.stored
  only p hp hn := h.only p hp (by rwa [(hs p hp).1] at hn)
  unlocked p hp hl := h.unlocked p hp ((hs p hp).2.mp hl)

theorem SameAt.trans {fs'' : FileSystem} (h : SameAt fs fs' dir) (h' : SameAt fs' fs'' dir) :
    SameAt fs fs'' dir :=
  fun p hp => ⟨(h' p hp).1.trans (h p hp).1, (h' p hp).2.trans (h p hp).2⟩

/-- Closing a record file changes nothing in other directories. -/
theorem closeDB_sameAt (hdb : f.db = some ⟨f.filepath.unfinishedPath, false⟩)
    (hne : f.filepath.parent ≠ dir) : SameAt fs (f.closeDB fs true).1 dir := by
  intro p hp
  have hfin : p ≠ f.filepath := fun he => hne (he ▸ hp)
  have hown : p ≠ f.filepath.unfinishedPath := fun he => hne (he ▸ hp :)
  exact ⟨RecordFile.closeDB_node_frame hdb true hfin hown,
    by simp [RecordFile.closeDB_locks hdb, hown]⟩

theorem OpenAt.closeDB (h : OpenAt fs dir entries f) (hne : entries ≠ [])
    (hread : ∀ e ∈ entries, (RecordFileKey.fromBytes e.1).isSome = true) :
    CommittedAt (f.closeDB fs true).1 dir entries f.filepath := by
  have hfin : fs.node f.filepath = none := by
    by_contra hn
    exact f.filepath.unfinishedPath_ne (h.only _ h.isOpen.parent (Or.inl hn)).symm
  have hnode (p : Path) : (f.closeDB fs true).1.node p =
      if p = f.filepath then some (RecordFile.holding entries)
      else if p = f.filepath.unfinishedPath then none else fs.node p := by
    have hn := RecordFile.closeDB_node_of_holding h.isOpen.db h.stored hfin hread p
    rwa [RecordFile.committed, if_neg hne] at hn
  refine ⟨h.isOpen.parent, h.isOpen.suffix, ?_, fun p hp hn => ?_, fun p hp hl => ?_⟩
  · rw [hnode, if_pos rfl]
    rfl
  · rw [hnode] at hn
    by_contra hpf
    rw [if_neg hpf] at hn
    split_ifs at hn with hpo
    · exact hn rfl
    · exact hpo (h.only p hp (Or.inl hn))
  · rw [RecordFile.closeDB_locks h.isOpen.db, List.mem_filter, decide_eq_true_eq] at hl
    exact hl.2 (h.only p hp (Or.inr hl.1))

theorem clearFiles_sameAt {files : List (Channel × RecordFile)} {root : List String}
    (hopen : ∀ g ∈ files, IsOpenAt (root ++ g.1.dir) g.2)
    (hne : ∀ g ∈ files, g.2.filepath.parent ≠ dir) : SameAt fs (clearFiles fs files) dir := by
  induction files generalizing fs with
  | nil => exact fun _ _ => ⟨rfl, Iff.rfl⟩
  | cons g rest ih =>
    have hg : g ∈ g :: rest := List.mem_cons_self
    exact (closeDB_sameAt (hopen g hg).db (hne g hg)).trans
      (ih (fun g' hg' => hopen g' (List.mem_cons_of_mem g hg'))
        fun g' hg' => hne g' (List.mem_cons_of_mem g hg'))

/-- After `files_.clear()` the records of every channel that has any are committed. -/
theorem clearFiles_committed {files : List (Channel × RecordFile)} {root : List String}
    {stored : Channel → List (Bytes × Bytes)}
    (hopen : ∀ g ∈ files, OpenAt fs (root ++ g.1.dir) (stored g.1) g.2)
    (hdirs : (files.map fun g => g.1.dir).Nodup)
    (hread : ∀ c, ∀ e ∈ stored c, (RecordFileKey.fromBytes e.1).isSome = true) :
    ∀ g ∈ files, stored g.1 ≠ [] →
      CommittedAt (clearFiles fs files) (root ++ g.1.dir) (stored g.1) g.2.filepath := by
  induction files generalizing fs with
  | nil => simp
  | cons g rest ih =>
    have hg := hopen g List.mem_cons_self
    obtain ⟨hnot, hnodup⟩ := List.nodup_cons.mp hdirs
    have hother : ∀ g' ∈ rest, root ++ g.1.dir ≠ root ++ g'.1.dir := by
      intro g' hg' he
      exact hnot (List.mem_map.mpr ⟨g', hg', (List.append_cancel_left he).symm⟩)
    have hrest : ∀ g' ∈ rest, OpenAt fs (root ++ g'.1.dir) (stored g'.1) g'.2 :=
      fun g' hg' => hopen g' (List.mem_cons_of_mem g hg')
    intro g' hg' hne
    rcases List.mem_cons.mp hg' with rfl | hg'
    · refine (hg.closeDB hne (hread _)).congr (clearFiles_sameAt (fun g'' h'' => (hrest g'' h'').isOpen) ?_)
      intro g'' h'' he
      rw [(hrest g'' h'').isOpen.parent] at he
      exact hother g'' h'' he.symm
    · refine ih (fun g'' h'' => (hrest g'' h'').congr (closeDB_sameAt hg.isOpen.db ?_)) hnodup g'
        hg' hne
      rw [hg.isOpen.parent]
      exact hother g'' h''

theorem Recording.readable {s : MessageRecorder codec} (h : Recording s) (c : Channel) :
    ∀ e ∈ records s.written c, (RecordFileKey.fromBytes e.1).isSome = true := by
  intro e he
  obtain ⟨v, hv, rfl⟩ := List.mem_map.mp he
  simp [Written.entry, RecordFileKey.fromBytes_toBytes (h.nonneg v (List.mem_of_mem_filter hv))]

theorem records_ne_nil {written : List (Written codec)} {c : Channel}
    (hc : ∃ w ∈ written, w.channel = c) : records written c ≠ [] := by
  obtain ⟨w, hw, rfl⟩ := hc
  exact List.ne_nil_of_mem (List.mem_map_of_mem (List.mem_filter.mpr ⟨hw, by simp⟩))

theorem Recording.clearFiles {s : MessageRecorder codec} (h : Recording s) {c : Channel}
    (hc : ∃ w ∈ s.written, w.channel = c) :
    ∃ p, CommittedAt (clearFiles s.fs s.files) (s.channelDir c) (records s.written c) p := by
  have hsome := records_ne_nil hc
  obtain ⟨w, hw, rfl⟩ := hc
  obtain ⟨g, hg, hgc⟩ := h.channel w hw
  have hopen : ∀ g ∈ s.files, OpenAt s.fs (s.recordDir ++ g.1.dir) (records s.written g.1) g.2 := by
    intro g hg
    refine ⟨h.opened g hg, h.stored g hg, fun p hp hn => ?_⟩
    obtain ⟨g', hg', rfl⟩ := h.only p ⟨g.1.dir, hp.symm⟩ hn
    rw [h.file_unique hg' hg]
    apply channelDir_injective (s := s)
    rw [← (h.opened g' hg').parent]
    exact hp
  rw [← hgc] at hsome ⊢
  exact ⟨_, clearFiles_committed hopen h.dirs h.readable g hg hsome⟩

end Closing
end MessageRecorder
end CrisCore
