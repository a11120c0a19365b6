import CrisCore.MessageRecorder
import CrisCore.PriorityMerge
import Mathlib.Data.List.Sort

/-! `MessageReplayer`: one reader for each registered channel, and the loop that publishes the
records of all of them in the order of their keys. -/
namespace CrisCore
open PriorityMerge MessageRecorder

namespace FileSystem

def isDirectory (fs : FileSystem) (path : Path) : Bool :=
  match fs.node path with
  | some (.dir _) => true
  | _ => false

def listSubdirsWithSuffix (fs : FileSystem) (topDir : List String) (suffix : String) : List Path :=
  (fs.nodes.keys.filter fun p =>
    p.parent == topDir && fs.isDirectory p && hasSuffix p.name suffix).insertionSort
      fun p q => p.name ≤ q.name

end FileSystem

/-- A reader deserializes what it reads as messages of its channel's type. -/
structure RecordReader where
  channel : Channel
  recordItr : RecordFileIterator

namespace RecordReader

/-- `RecordReaderPQueue::Compare`. -/
def compare (lhs rhs : RecordReader) : Bool :=
  RecordFileKey.compare lhs.recordItr.currentKey rhs.recordItr.currentKey == .gt

theorem compare_iff (lhs rhs : RecordReader) : compare lhs rhs = true ↔
    RecordFileKey.compare lhs.recordItr.currentKey rhs.recordItr.currentKey = .gt := by
  rw [compare, beq_iff_eq]

theorem compare_irrefl (r : RecordReader) : compare r r = false := by
  rw [Bool.eq_false_iff, ne_eq, compare_iff, RecordFileKey.compare_eq_gt_iff]
  omega

theorem compare_asymm (r r' : RecordReader) (h : compare r r' = true) : compare r' r = false := by
  rw [compare_iff, RecordFileKey.compare_eq_gt_iff] at h
  rw [Bool.eq_false_iff, ne_eq, compare_iff, RecordFileKey.compare_eq_gt_iff]
  omega

theorem compare_trans (a b c : RecordReader) (hab : compare a b = false)
    (hbc : compare b c = false) : compare a c = false := by
  rw [Bool.eq_false_iff, ne_eq, compare_iff, RecordFileKey.compare_eq_gt_iff] at *
  omega

/-- A heap that scans its elements for the reader with the least key. -/
def scanHeap : TakeMax compare :=
  .scan compare_irrefl compare_asymm compare_trans

end RecordReader

structure MessageReplayer where
  fs : FileSystem
  recordDir : List String
  recordFiles : List RecordFile
  /-- The elements of the heap. -/
  recordReaders : List RecordReader

namespace MessageReplayer

def create (fs : FileSystem) (recordDir : List String) : MessageReplayer := ⟨fs, recordDir, [], []⟩

/-- `none` where it throws, no record directory being there or one that cannot be checked out, and
where the file it iterates did not open. -/
def getRecordItr (r : MessageReplayer) (channel : Channel) (renames : Bool)
    (answers : OpenAnswers) : Option (RecordFileIterator × MessageReplayer) :=
  match r.fs.listSubdirsWithSuffix (r.recordDir ++ channel.dir) kLevelDBDirSuffix with
  | [] => none
  | path :: _ =>
    match (RecordFile.unopened path "" false).openDB r.fs renames answers with
    | (.error _, _, _) => none
    | (.ok _, fs, file) =>
      file.db.map fun h =>
        (file.iterate fs h, { r with fs := fs, recordFiles := r.recordFiles ++ [file] })

def registerChannel (r : MessageReplayer) (channel : Channel) (renames : Bool)
    (answers : OpenAnswers) : Option (Bool × MessageReplayer) :=
  (r.getRecordItr channel renames answers).map fun (itr, r) =>
    if !itr.valid then (false, r)
    else (true, { r with recordReaders := r.recordReaders ++ [⟨channel, itr⟩] })

/-- Calls of `RegisterChannel` one after the other. -/
def registerChannels (r : MessageReplayer) : List (Channel × OpenAnswers) → Option MessageReplayer
  | [] => some r
  | (channel, answers) :: rest =>
    (r.registerChannel channel true answers).bind fun result => result.2.registerChannels rest

/-- `ReplayMessages`, where the loop finds the shutdown flag clear for the given number of times:
what it publishes and the readers it leaves. -/
def replayMessages (codec : MessageCodec) (heap : TakeMax RecordReader.compare) :
    ℕ → List RecordReader → List (Published codec) × List RecordReader
  | 0, readers => ([], readers)
  | running + 1, readers =>
    match heap.take readers with
    | none => ([], readers)
    | some (top, rest) =>
      let serialized := top.recordItr.get.2
      let top' := { top with recordItr := top.recordItr.next }
      let replayed := replayMessages codec heap running
        (if top'.recordItr.valid then rest ++ [top'] else rest)
      (⟨top.channel, codec.messageFromStr _ serialized⟩ :: replayed.1, replayed.2)

section Registration
variable {fs : FileSystem} {r : MessageReplayer} {channel : Channel} {answers : OpenAnswers}
  {entries : List (Bytes × Bytes)} {path : Path}

theorem listSubdirs_committed {dir : List String} (h : CommittedAt fs dir entries path) :
    fs.listSubdirsWithSuffix dir kLevelDBDirSuffix = [path] := by
  have hfilter : (fs.nodes.keys.filter fun p => p.parent == dir && fs.isDirectory p &&
      hasSuffix p.name kLevelDBDirSuffix) = [path] := by
    refine List.perm_singleton.mp
      ((List.perm_ext_iff_of_nodup (fs.nodes.keys_nodup.filter _) (by simp)).mpr fun p => ?_)
    simp only [List.mem_filter, Bool.and_eq_true, beq_iff_eq, List.mem_singleton]
    constructor
    · rintro ⟨-, ⟨hp, hdir⟩, -⟩
      refine h.only p hp fun hn => ?_
      simp [FileSystem.isDirectory, hn] at hdir
    · rintro rfl
      have hmem : p ∈ fs.nodes := AList.lookup_isSome.mp (Option.isSome_of_eq_some h.stored)
      exact ⟨hmem, ⟨h.parent, by simp [FileSystem.isDirectory, h.stored]⟩, h.suffix⟩
  rw [FileSystem.listSubdirsWithSuffix, hfilter]
  rfl

theorem openDB_committedAt {dir : List String} (h : CommittedAt fs dir entries path)
    (hdir : dir ≠ []) (hw : Willing answers) :
    ∃ fs' file, (RecordFile.unopened path "" false).openDB fs true answers =
        (.ok true, fs', file) ∧
      file.db = some ⟨path.unfinishedPath, false⟩ ∧ file.legacy = false ∧
      fs'.node path.unfinishedPath = some (.dir ⟨some ⟨false, entries⟩, []⟩) ∧
      ∀ dir', dir' ≠ dir → SameAt fs fs' dir' := by
  have hparent : path.unfinishedPath.parent = dir := h.parent
  have hnonempty : path.isEmpty = false := by simp [Path.isEmpty, h.parent, hdir]
  have hown : fs.node path.unfinishedPath = none := by
    by_contra hn
    exact path.unfinishedPath_ne (h.only _ hparent hn)
  refine ⟨_, _, RecordFile.openDB_committed rfl hnonempty h.stored rfl rfl hown
    (h.unlocked _ hparent) hw, rfl, rfl, ?_, fun dir' hne p hp => ⟨?_, ?_⟩⟩
  · rw [RecordFile.makeLink_node, FileSystem.node_lock, FileSystem.node_set]
    exact if_pos rfl
  -- the open writes to the two names of this file only
  · have hpp : p ≠ path := by
      rintro rfl
      exact hne (hp.symm.trans h.parent)
    have hpu : p ≠ path.unfinishedPath := by
      rintro rfl
      exact hne (hp.symm.trans hparent)
    rw [RecordFile.makeLink_node, FileSystem.node_lock, FileSystem.node_set]
    apply (if_neg hpu).trans
    rw [FileSystem.node_removeAll]
    exact if_neg hpp
  · have hpu : p ≠ path.unfinishedPath := by
      rintro rfl
      exact hne (hp.symm.trans hparent)
    rw [RecordFile.makeLink_locks]
    exact List.mem_cons.trans (or_iff_right hpu)

/-- A channel whose committed records can be read gets a reader at the first of them. -/
theorem registerChannel_committed
    (h : CommittedAt r.fs (r.recordDir ++ channel.dir) entries path) (hne : entries ≠ [])
    (hread : ∀ e ∈ entries, (RecordFileKey.fromBytes e.1).isSome = true) (hw : Willing answers) :
    ∃ r', r.registerChannel channel true answers = some (true, r') ∧
      r'.recordDir = r.recordDir ∧
      r'.recordReaders = r.recordReaders ++ [⟨channel, .start entries false⟩] ∧
      ∀ dir, dir ≠ r.recordDir ++ channel.dir → SameAt r.fs r'.fs dir := by
  obtain ⟨fs', file, hopen, hdb, hleg, hnode, hsame⟩ := openDB_committedAt h (by simp [Channel.dir]) hw
  have hvalid : (RecordFileIterator.start entries false).valid = true := by
    obtain ⟨e, he⟩ := List.exists_mem_of_ne_nil _ hne
    exact (RecordFileIterator.readNextValidKey_valid false _ entries).mpr ⟨e, he, hread e he⟩
  have hitr : RecordFile.entries fs' ⟨path.unfinishedPath, false⟩ = entries := by
    simp [RecordFile.entries, FileSystem.database, hnode]
  have hget : r.getRecordItr channel true answers = some (.start entries false,
      { r with fs := fs', recordFiles := r.recordFiles ++ [file] }) := by
    simp only [getRecordItr, listSubdirs_committed h, hopen, hdb, RecordFile.iterate,
      Option.map_some, hitr, hleg]
  refine ⟨{ r with
    fs := fs'
    recordFiles := r.recordFiles ++ [file]
    recordReaders := r.recordReaders ++ [⟨channel, .start entries false⟩] }, ?_, rfl, rfl, hsame⟩
  simp [registerChannel, hget, hvalid]

theorem registerChannels_committed {stored : Channel → List (Bytes × Bytes)}
    {regs : List (Channel × OpenAnswers)}
    (h : ∀ reg ∈ regs, ∃ p, CommittedAt r.fs (r.recordDir ++ reg.1.dir) (stored reg.1) p)
    (hne : ∀ reg ∈ regs, stored reg.1 ≠ [])
    (hread : ∀ c, ∀ e ∈ stored c, (RecordFileKey.fromBytes e.1).isSome = true)
    (hdirs : (regs.map fun reg => reg.1.dir).Nodup) (hw : ∀ reg ∈ regs, Willing reg.2) :
    ∃ r', r.registerChannels regs = some r' ∧ r'.recordReaders = r.recordReaders ++
      regs.map fun reg => ⟨reg.1, .start (stored reg.1) false⟩ := by
  induction regs generalizing r with
  | nil => exact ⟨r, rfl, by simp⟩
  | cons reg rest ih =>
    obtain ⟨hnot, hnodup⟩ := List.nodup_cons.mp hdirs
    obtain ⟨path, hpath⟩ := h reg List.mem_cons_self
    obtain ⟨r₁, hreg, hdir, hreaders, hsame⟩ := registerChannel_committed hpath
      (hne reg List.mem_cons_self) (hread _) (hw reg List.mem_cons_self)
    -- the channels have different directories, so the others stay committed
    have hrest : ∀ reg' ∈ rest,
        ∃ p, CommittedAt r₁.fs (r₁.recordDir ++ reg'.1.dir) (stored reg'.1) p := by
      intro reg' hr
      rw [hdir]
      refine (h reg' (List.mem_cons_of_mem reg hr)).imp fun p hp => ?_
      refine hp.congr (hsame _ fun he => hnot ?_)
      exact List.mem_map.mpr ⟨reg', hr, List.append_cancel_left he⟩
    obtain ⟨r', hr', hrs⟩ := ih hrest (fun reg' hr => hne reg' (List.mem_cons_of_mem reg hr)) hnodup
      fun reg' hr => hw reg' (List.mem_cons_of_mem reg hr)
    refine ⟨r', ?_, ?_⟩
    · rw [registerChannels, hreg]
      exact hr'
    · rw [hrs, hreaders, List.append_assoc]
      rfl

end Registration

section Replay
variable {codec : MessageCodec} {log : List (Written codec)} {readers : List RecordReader}

/-- The reader stands at the first of the records, all of which are still to come. -/
def StandsAt (reader : RecordReader) (log : List (Written codec)) : Prop :=
  reader.recordItr.dbItr = log.map Written.entry ∧ reader.recordItr.legacy = false ∧
    ∀ w ∈ log.head?, reader.recordItr.currentKey = w.key

theorem readNextValidKey_records (key : RecordFileKey)
    (hnn : ∀ w ∈ log, 0 ≤ w.key.timestampNs.toInt) (channel : Channel) :
    StandsAt ⟨channel, .readNextValidKey false key (log.map Written.entry)⟩ log := by
  cases log with
  | nil => exact ⟨rfl, rfl, by simp⟩
  | cons w rest =>
    have hkey : RecordFileIterator.tryReadCurrentKey false w.key.toBytes = some w.key :=
      RecordFileKey.fromBytes_toBytes (hnn w List.mem_cons_self)
    have hitr : RecordFileIterator.readNextValidKey false key ((w :: rest).map Written.entry) =
        ⟨(w :: rest).map Written.entry, false, w.key⟩ := by
      simp only [List.map_cons, Written.entry, RecordFileIterator.readNextValidKey, hkey]
    rw [hitr]
    exact ⟨rfl, rfl, by simp⟩

/-- One turn of the loop publishes the next record of the log. -/
theorem replay_turn (heap : TakeMax RecordReader.compare) {w : Written codec}
    (h : Feeds (fun w : Written codec => w.channel) RecordReader.channel StandsAt (w :: log) readers)
    (hsorted : (w :: log).Pairwise fun v w => RecordFileKey.compare v.key w.key = .lt)
    (hnn : ∀ v ∈ w :: log, 0 ≤ v.key.timestampNs.toInt) :
    ∃ top rest, heap.take readers = some (top, rest) ∧
      (⟨top.channel, codec.messageFromStr _ top.recordItr.get.2⟩ : Published codec) =
        w.toPublished ∧
      Feeds (fun w : Written codec => w.channel) RecordReader.channel StandsAt log
        (if top.recordItr.next.valid then rest ++ [{ top with recordItr := top.recordItr.next }]
          else rest) := by
  obtain ⟨r, rs, rfl⟩ := List.exists_cons_of_ne_nil h.ne_nil
  obtain ⟨top, rest, htake, hperm, hmax⟩ := heap.take_cons r rs
  refine ⟨top, rest, htake, ?_⟩
  have hfeeds := h.perm hperm
  have htop : top ∈ top :: rest := List.mem_cons_self
  -- a reader before which another one stands is not on top
  have hchannel : top.channel = w.channel := by
    refine hfeeds.tag_of_least hsorted htop fun r' hr' l l' x y hx hy hlt => ?_
    have hless := hmax r' (hperm.mem_iff.mp hr')
    rw [Bool.eq_false_iff, ne_eq, RecordReader.compare_iff, hx.2.2 x rfl, hy.2.2 y rfl,
      ← RecordFileKey.compare_swap, hlt] at hless
    exact hless rfl
  have hstands := hfeeds.holds top htop
  rw [List.filter_cons_of_pos (by simp [hchannel])] at hstands
  obtain ⟨hitr, hleg, -⟩ := hstands
  -- what is left for the channel of the reader on top
  set own := log.filter fun v => v.channel = top.channel with hown
  have hnext : StandsAt { top with recordItr := top.recordItr.next } own := by
    rw [RecordFileIterator.next, hleg, hitr]
    exact readNextValidKey_records _
      (fun v hv => hnn v (List.mem_cons_of_mem w (List.mem_of_mem_filter hv))) _
  constructor
  -- what is published
  · have hval : top.recordItr.get.2 = codec.messageToStr w.message := by
      simp [RecordFileIterator.get, hitr, Written.entry]
    obtain ⟨channel, itr⟩ := top
    subst hchannel
    rw [hval, codec.fromStr_toStr]
  -- the reader goes back while its channel has records
  · have hvalid : top.recordItr.next.valid = true ↔ own ≠ [] := by
      rw [RecordFileIterator.valid, hnext.1]
      cases own <;> simp
    by_cases hempty : own = []
    · rw [if_neg fun hv => hvalid.mp hv hempty]
      refine hfeeds.done hchannel fun v hv he => ?_
      have hmem : v ∈ own := List.mem_filter.mpr ⟨hv, by simpa using he⟩
      rw [hempty] at hmem
      cases hmem
    · rw [if_pos (hvalid.mpr hempty)]
      obtain ⟨v, hv⟩ := List.exists_mem_of_ne_nil _ hempty
      have hmore : ∃ x ∈ log, x.channel = top.channel :=
        ⟨v, List.mem_of_mem_filter hv, by simpa using List.of_mem_filter hv⟩
      have hback : Feeds (fun w : Written codec => w.channel) RecordReader.channel StandsAt log
          ({ top with recordItr := top.recordItr.next } :: rest) :=
        hfeeds.next hchannel rfl hnext hmore
      exact hback.perm (List.perm_append_singleton _ _)

/-- The loop publishes the records of the log in their order and then ends. -/
theorem replayMessages_eq {heap : TakeMax RecordReader.compare}
    (h : Feeds (fun w : Written codec => w.channel) RecordReader.channel StandsAt log readers)
    (hsorted : log.Pairwise fun v w => RecordFileKey.compare v.key w.key = .lt)
    (hnn : ∀ w ∈ log, 0 ≤ w.key.timestampNs.toInt) {running : ℕ} (hrunning : log.length ≤ running) :
    replayMessages codec heap running readers = (log.map Written.toPublished, []) := by
  induction log generalizing running readers with
  -- on the log, as each turn takes its first record off
  | nil =>
    rw [h.queue_eq_nil]
    cases running with
    | zero => rfl
    | succ running => simp [replayMessages, heap.take_nil]
  | cons w log ih =>
    obtain ⟨running, rfl⟩ : ∃ n, running = n + 1 := Nat.exists_eq_add_one_of_ne_zero (by
      rintro rfl
      cases hrunning)
    obtain ⟨top, rest, htake, hpub, hfeeds⟩ := replay_turn heap h hsorted hnn
    have hrest := ih hfeeds (List.pairwise_cons.mp hsorted).2
      (fun v hv => hnn v (List.mem_cons_of_mem w hv)) (Nat.le_of_succ_le_succ hrunning)
    simp only [replayMessages, htake, hrest, List.map_cons]
    rw [hpub]

end Replay

end MessageReplayer
end CrisCore
