import CrisCore.RecordReplay

/-! Replaying any family of readers: the loop of `ReplayMessages` merges what their iterators yield,
in the order of the keys. -/
namespace CrisCore
open PriorityMerge

namespace RecordFileIterator

/-- The records from the position of the iterator on: the entries whose keys can be read. -/
def records (itr : RecordFileIterator) : List (RecordFileKey × Bytes) :=
  itr.dbItr.filterMap fun e => (tryReadCurrentKey itr.legacy e.1).map fun key => (key, e.2)

/-- The iterator stands at an entry that it can read, or at the end. -/
def Standing (itr : RecordFileIterator) : Prop :=
  ∀ e ∈ itr.dbItr.head?, tryReadCurrentKey itr.legacy e.1 = some itr.currentKey

section
variable {itr : RecordFileIterator} (legacy : Bool) (currentKey : RecordFileKey)
  (entries : List (Bytes × Bytes))

theorem standing_readNextValidKey : (readNextValidKey legacy currentKey entries).Standing := by
  induction entries with
  | nil => exact fun e he => nomatch he
  | cons e rest ih =>
    unfold readNextValidKey
    cases hkey : tryReadCurrentKey legacy e.1 with
    | none => exact ih
    | some key =>
      intro e' he'
      cases he'
      exact hkey

theorem records_readNextValidKey :
    (readNextValidKey legacy currentKey entries).records = entries.filterMap fun e =>
      (tryReadCurrentKey legacy e.1).map fun key => (key, e.2) := by
  induction entries with
  | nil => rfl
  | cons e rest ih =>
    unfold readNextValidKey
    rw [List.filterMap_cons]
    cases hkey : tryReadCurrentKey legacy e.1 with
    | none => exact ih
    | some key => simp only [records, List.filterMap_cons, hkey, Option.map_some]

theorem standing_next (itr : RecordFileIterator) : itr.next.Standing :=
  standing_readNextValidKey _ _ _

/-- `Get` answers the first record and `Next` goes on to the others. -/
theorem records_eq_cons (h : itr.Standing) (hv : itr.valid = true) :
    itr.records = itr.get :: itr.next.records := by
  obtain ⟨dbItr, leg, key⟩ := itr
  cases dbItr with
  | nil => cases hv
  | cons e rest =>
    have hkey : tryReadCurrentKey leg e.1 = some key := h e rfl
    rw [next, records_readNextValidKey]
    simp only [records, List.filterMap_cons, hkey, Option.map_some]
    rfl

theorem records_eq_nil (hv : ¬ itr.valid = true) : itr.records = [] := by
  obtain ⟨dbItr, leg, key⟩ := itr
  cases dbItr with
  | nil => rfl
  | cons e rest => exact absurd rfl hv

theorem legacy_readNextValidKey : (readNextValidKey legacy currentKey entries).legacy = legacy := by
  induction entries with
  | nil => rfl
  | cons e rest ih =>
    unfold readNextValidKey
    cases tryReadCurrentKey legacy e.1 with
    | none => exact ih
    | some key => rfl

theorem length_readNextValidKey :
    (readNextValidKey legacy currentKey entries).dbItr.length ≤ entries.length := by
  induction entries with
  | nil => exact Nat.le_refl 0
  | cons e rest ih =>
    unfold readNextValidKey
    cases tryReadCurrentKey legacy e.1 with
    | none => exact ih.trans (Nat.le_succ _)
    | some key => exact Nat.le_refl _

end

/-- What `Get` answers in the turns of a loop `for (; itr.Valid(); itr.Next())`. -/
def turns : ℕ → RecordFileIterator → List (RecordFileKey × Bytes)
  | 0, _ => []
  | n + 1, itr => if itr.valid then itr.get :: turns n itr.next else []

/-- Every turn leaves an entry behind, so the loop has no more turns than there are entries. -/
def yielded (itr : RecordFileIterator) : List (RecordFileKey × Bytes) :=
  turns itr.dbItr.length itr

theorem turns_eq_records {n : ℕ} {itr : RecordFileIterator} (h : itr.Standing)
    (hn : itr.dbItr.length ≤ n) : turns n itr = itr.records := by
  induction n generalizing itr with
  | zero =>
    refine (records_eq_nil ?_).symm
    simp [valid, List.length_eq_zero_iff.mp (Nat.le_zero.mp hn)]
  | succ n ih =>
    by_cases hv : itr.valid = true
    · have hlen : itr.next.dbItr.length ≤ itr.dbItr.tail.length :=
        length_readNextValidKey _ _ _
      rw [List.length_tail] at hlen
      rw [turns, if_pos hv, ih (standing_next itr) (by omega), records_eq_cons h hv]
    · rw [turns, if_neg hv, records_eq_nil hv]

/-- The loop sees the entries that have a readable key, each once. -/
theorem yielded_start (entries : List (Bytes × Bytes)) (legacy : Bool) :
    (start entries legacy).yielded = entries.filterMap fun e =>
      (tryReadCurrentKey legacy e.1).map fun key => (key, e.2) := by
  have hstanding : (start entries legacy).Standing := standing_readNextValidKey _ _ _
  rw [yielded, turns_eq_records hstanding (Nat.le_refl _), start, records_readNextValidKey]

end RecordFileIterator

theorem RecordFileKey.compare_self_ne_gt (a : RecordFileKey) : compare a a ≠ .gt := by
  rw [ne_eq, compare_eq_gt_iff]
  omega

theorem RecordFileKey.compare_ne_gt_trans {a b c : RecordFileKey} (hab : compare a b ≠ .gt)
    (hbc : compare b c ≠ .gt) : compare a c ≠ .gt := by
  rw [ne_eq, compare_eq_gt_iff] at *
  omega

/-- A record with the channel of the reader it was read by. -/
structure Replayed where
  channel : Channel
  key : RecordFileKey
  value : Bytes
  deriving DecidableEq

/-- Publishing a record: the subid and the deserializer are those of the reader. -/
def Replayed.publish (codec : MessageCodec) (e : Replayed) : Published codec :=
  ⟨e.channel, codec.messageFromStr _ e.value⟩

/-- No later record has a smaller key. -/
def InKeyOrder (records : List Replayed) : Prop :=
  records.Pairwise fun e e' => RecordFileKey.compare e.key e'.key ≠ .gt

namespace RecordReader
variable {r : RecordReader}

def records (r : RecordReader) : List Replayed :=
  r.recordItr.records.map fun e => ⟨r.channel, e.1, e.2⟩

/-- What `RegisterChannel` puts into the queue: an iterator just made, with a record to read. -/
def Registered (r : RecordReader) : Prop :=
  ∃ entries legacy, r.recordItr = .start entries legacy ∧ r.recordItr.valid = true

/-- A reader in the queue. -/
structure Ready (r : RecordReader) : Prop where
  standing : r.recordItr.Standing
  valid : r.recordItr.valid = true
  ordered : InKeyOrder r.records

theorem Registered.ready (h : r.Registered) (ho : InKeyOrder r.records) : r.Ready := by
  obtain ⟨entries, legacy, hitr, hv⟩ := h
  refine ⟨?_, hv, ho⟩
  rw [hitr]
  exact RecordFileIterator.standing_readNextValidKey _ _ _

/-- The reader after `Next`. -/
def next (r : RecordReader) : RecordReader :=
  { r with recordItr := r.recordItr.next }

theorem Ready.records_eq (h : r.Ready) :
    r.records = ⟨r.channel, r.recordItr.currentKey, r.recordItr.get.2⟩ :: r.next.records := by
  rw [records, RecordFileIterator.records_eq_cons h.standing h.valid]
  rfl

theorem Ready.next (h : r.Ready) (hv : r.next.recordItr.valid = true) : r.next.Ready := by
  refine ⟨RecordFileIterator.standing_next _, hv, ?_⟩
  have ho := h.ordered
  rw [h.records_eq] at ho
  exact (List.pairwise_cons.mp ho).2

/-- The key that orders the heap is the least of the reader's keys. -/
theorem Ready.least (h : r.Ready) {e : Replayed} (he : e ∈ r.records) :
    RecordFileKey.compare r.recordItr.currentKey e.key ≠ .gt := by
  have ho := h.ordered
  rw [h.records_eq] at ho he
  rcases List.mem_cons.mp he with rfl | he
  · exact RecordFileKey.compare_self_ne_gt _
  · exact (List.pairwise_cons.mp ho).1 e he

end RecordReader

namespace MessageReplayer
variable {codec : MessageCodec} {heap : TakeMax RecordReader.compare} {readers : List RecordReader}

/-- The readers after one turn that took `top`. -/
def putBack (top : RecordReader) (rest : List RecordReader) : List RecordReader :=
  if top.next.recordItr.valid then rest ++ [top.next] else rest

theorem replayMessages_turn {top : RecordReader} {rest : List RecordReader}
    (htake : heap.take readers = some (top, rest)) (running : ℕ) :
    replayMessages codec heap (running + 1) readers =
      (⟨top.channel, codec.messageFromStr _ top.recordItr.get.2⟩ ::
          (replayMessages codec heap running (putBack top rest)).1,
        (replayMessages codec heap running (putBack top rest)).2) := by
  simp only [replayMessages, htake]
  rfl

theorem ready_putBack {top : RecordReader} {rest : List RecordReader} (htop : top.Ready)
    (hrest : ∀ r ∈ rest, r.Ready) : ∀ r ∈ putBack top rest, r.Ready := by
  intro r hr
  unfold putBack at hr
  split_ifs at hr with hv
  · rcases List.mem_append.mp hr with hr | hr
    · exact hrest r hr
    · cases List.mem_singleton.mp hr
      exact htop.next hv
  · exact hrest r hr

/-- A reader that is not put back has no records left. -/
theorem interleaves_putBack {top : RecordReader} {rest : List RecordReader} {out : List Replayed}
    (h : Interleaves ((putBack top rest).map RecordReader.records) out) :
    Interleaves (top.next.records :: rest.map RecordReader.records) out := by
  unfold putBack at h
  split_ifs at h with hv
  · rw [List.map_append, List.map_cons, List.map_nil] at h
    exact h.of_perm (List.perm_append_singleton _ _).symm
  · have hnil : top.next.records = [] := by
      rw [RecordReader.records, RecordFileIterator.records_eq_nil hv, List.map_nil]
    rw [hnil]
    exact h.cons_nil

def recordsLeft (readers : List RecordReader) : ℕ :=
  (readers.flatMap RecordReader.records).length

theorem recordsLeft_putBack {top : RecordReader} {rest : List RecordReader} (htop : top.Ready)
    (hperm : (top :: rest).Perm readers) :
    recordsLeft readers = recordsLeft (putBack top rest) + 1 := by
  have hsum : recordsLeft readers = recordsLeft (top :: rest) :=
    (hperm.flatMap_right RecordReader.records).length_eq.symm
  have hcons : recordsLeft (top :: rest) = top.next.records.length + 1 + recordsLeft rest := by
    simp only [recordsLeft, List.flatMap_cons, List.length_append, htop.records_eq,
      List.length_cons]
  have hback : recordsLeft (putBack top rest) = top.next.records.length + recordsLeft rest := by
    unfold putBack
    split_ifs with hv
    · simp only [recordsLeft, List.flatMap_append, List.flatMap_singleton, List.length_append]
      omega
    · rw [RecordReader.records, RecordFileIterator.records_eq_nil hv]
      simp
  omega

/-- The record published in a turn comes before all that are left. -/
theorem top_le {top : RecordReader} {rest : List RecordReader} (htop : top.Ready)
    (hrest : ∀ r ∈ rest, r.Ready) (hmax : ∀ r ∈ rest, RecordReader.compare top r = false)
    {e : Replayed} (he : e ∈ (top.next.records :: rest.map RecordReader.records).flatten) :
    RecordFileKey.compare top.recordItr.currentKey e.key ≠ .gt := by
  rw [List.flatten_cons, List.mem_append] at he
  rcases he with he | he
  · apply htop.least
    rw [htop.records_eq]
    exact List.mem_cons_of_mem _ he
  · obtain ⟨l, hl, he⟩ := List.mem_flatten.mp he
    obtain ⟨r, hr, rfl⟩ := List.mem_map.mp hl
    have hle : RecordFileKey.compare top.recordItr.currentKey r.recordItr.currentKey ≠ .gt := by
      have hless := hmax r hr
      rwa [Bool.eq_false_iff, ne_eq, RecordReader.compare_iff] at hless
    exact RecordFileKey.compare_ne_gt_trans hle ((hrest r hr).least he)

/-- The whole replay and what is published of it in any number of turns. -/
theorem replay_merges (codec : MessageCodec) (heap : TakeMax RecordReader.compare)
    (hready : ∀ r ∈ readers, r.Ready) :
    ∃ out, Interleaves (readers.map RecordReader.records) out ∧ InKeyOrder out ∧
      ∀ running, (replayMessages codec heap running readers).1 =
          (out.take running).map (Replayed.publish codec) ∧
        (out.length ≤ running → (replayMessages codec heap running readers).2 = []) := by
  induction hn : recordsLeft readers generalizing readers with
  -- on the records left: each turn publishes one of them
  | zero =>
    have hnil : readers = [] := by
      cases readers with
      | nil => rfl
      | cons r rs =>
        rw [recordsLeft, List.flatMap_cons, List.length_append,
          (hready r List.mem_cons_self).records_eq, List.length_cons] at hn
        omega
    subst hnil
    refine ⟨[], Interleaves.nil (by simp), List.Pairwise.nil, fun running => ?_⟩
    cases running with
    | zero => exact ⟨rfl, fun _ => rfl⟩
    | succ running => simp [replayMessages, heap.take_nil]
  | succ n ih =>
    obtain ⟨r, rs, rfl⟩ : ∃ r rs, readers = r :: rs := by
      apply List.exists_cons_of_ne_nil
      rintro rfl
      cases hn
    obtain ⟨top, rest, htake, hperm, hmax⟩ := heap.take_cons r rs
    have hmem (q : RecordReader) (hq : q ∈ top :: rest) : q.Ready :=
      hready q (hperm.mem_iff.mp hq)
    have htop := hmem top List.mem_cons_self
    have hrest (q : RecordReader) (hq : q ∈ rest) : q.Ready := hmem q (List.mem_cons_of_mem top hq)
    have hleft := recordsLeft_putBack htop hperm
    -- what the readers have left once the top one went on
    obtain ⟨out, hinter, horder, hrun⟩ := ih (ready_putBack htop hrest) (by omega)
    -- which is a rest of what they had, behind the record of this turn
    have hinter' := interleaves_putBack hinter
    refine ⟨⟨top.channel, top.recordItr.currentKey, top.recordItr.get.2⟩ :: out, ?_, ?_, ?_⟩
    · refine .cons ?_ hinter'
      rw [← htop.records_eq]
      exact (hperm.map RecordReader.records).symm
    · refine List.pairwise_cons.mpr ⟨fun e he => ?_, horder⟩
      have hmaxrest (q : RecordReader) (hq : q ∈ rest) : RecordReader.compare top q = false :=
        hmax q (hperm.mem_iff.mp (List.mem_cons_of_mem top hq))
      exact top_le htop hrest hmaxrest (hinter'.flatten_eq.mem_iff.mp he)
    · intro running
      cases running with
      | zero => exact ⟨rfl, fun hle => by cases hle⟩
      | succ running =>
        obtain ⟨hpub, hend⟩ := hrun running
        rw [replayMessages_turn htake]
        refine ⟨?_, fun hle => hend (Nat.le_of_succ_le_succ hle)⟩
        simp only [hpub, List.take_succ_cons, List.map_cons]
        rfl

/-- `RegisterChannel` puts only such readers into the queue. -/
theorem registered_registerChannel {r r' : MessageReplayer} {channel : Channel} {renames : Bool}
    {answers : OpenAnswers} {registered : Bool} (h : ∀ q ∈ r.recordReaders, q.Registered)
    (hreg : r.registerChannel channel renames answers = some (registered, r')) :
    ∀ q ∈ r'.recordReaders, q.Registered := by
  obtain ⟨⟨itr, r₁⟩, hget, hres⟩ := Option.map_eq_some_iff.mp hreg
  obtain ⟨hreaders, entries, legacy, hitr⟩ : r₁.recordReaders = r.recordReaders ∧
      ∃ entries legacy, itr = .start entries legacy := by
    unfold getRecordItr at hget
    split at hget
    · cases hget
    · split at hget
      · cases hget
      · obtain ⟨handle, -, hget⟩ := Option.map_eq_some_iff.mp hget
        cases hget
        exact ⟨rfl, _, _, rfl⟩
  simp only at hres
  split_ifs at hres with hv
  · cases hres
    rw [hreaders]
    exact h
  · cases hres
    intro q hq
    rcases List.mem_append.mp hq with hq | hq
    · rw [hreaders] at hq
      exact h q hq
    · cases List.mem_singleton.mp hq
      exact ⟨entries, legacy, hitr, by simpa using hv⟩

/-- Replay is a complete ordered merge of what the readers' iterators yield; what is published
until the loop finds the shutdown flag set is a prefix of it. -/
theorem replay_is_ordered_merge (codec : MessageCodec) (heap : TakeMax RecordReader.compare)
    (hreg : ∀ r ∈ readers, r.Registered) (horder : ∀ r ∈ readers, InKeyOrder r.records) :
    ∃ out, InKeyOrder out ∧ Interleaves (readers.map RecordReader.records) out ∧
      out.Perm (readers.flatMap RecordReader.records) ∧
      (∀ r ∈ readers, r.records.Sublist out) ∧
      (∀ running ≥ out.length, replayMessages codec heap running readers =
        (out.map (Replayed.publish codec), [])) ∧
      ∀ running, (replayMessages codec heap running readers).1 <+:
        out.map (Replayed.publish codec) := by
  obtain ⟨out, hinter, hkeys, hrun⟩ :=
    replay_merges codec heap fun r hr => (hreg r hr).ready (horder r hr)
  refine ⟨out, hkeys, hinter, ?_, fun r hr => hinter.sublist (List.mem_map_of_mem hr),
    fun running hrunning => ?_, fun running => ?_⟩
  · rw [List.flatMap_def]
    exact hinter.flatten_eq
  · obtain ⟨hpub, hend⟩ := hrun running
    rw [List.take_of_length_le hrunning] at hpub
    exact Prod.ext hpub (hend hrunning)
  · rw [(hrun running).1]
    exact (List.take_prefix running out).map _

/-- Two channels with records of one time, two with the same key, and an entry whose key cannot
be read. -/
def intReader : RecordReader :=
  ⟨⟨"TestMessage<int>", 1⟩,
    .start [(RecordFileKey.toBytes ⟨5, 0⟩, [0]), ([7], [9]), (RecordFileKey.toBytes ⟨6, 0⟩, [1])]
      false⟩

def doubleReader : RecordReader :=
  ⟨⟨"TestMessage<double>", 1⟩,
    .start [(RecordFileKey.toBytes ⟨5, 0⟩, [2]), (RecordFileKey.toBytes ⟨5, 1⟩, [3])] false⟩

theorem replay_is_ordered_merge_equalKeys :
    ∃ out, InKeyOrder out ∧
      Interleaves ([intReader, doubleReader].map RecordReader.records) out ∧
      out.Perm ([intReader, doubleReader].flatMap RecordReader.records) ∧
      (∀ r ∈ [intReader, doubleReader], r.records.Sublist out) ∧
      (∀ running ≥ out.length,
        replayMessages MessageRecorder.rawCodec RecordReader.scanHeap running
          [intReader, doubleReader] = (out.map (Replayed.publish _), [])) ∧
      ∀ running, (replayMessages MessageRecorder.rawCodec RecordReader.scanHeap running
        [intReader, doubleReader]).1 <+: out.map (Replayed.publish _) := by
  apply replay_is_ordered_merge
  · intro r hr
    rcases List.mem_pair.mp hr with rfl | rfl
    · exact ⟨_, _, rfl, by decide⟩
    · exact ⟨_, _, rfl, by decide⟩
  · intro r hr
    unfold InKeyOrder
    rcases List.mem_pair.mp hr with rfl | rfl <;> decide

end MessageReplayer
end CrisCore
