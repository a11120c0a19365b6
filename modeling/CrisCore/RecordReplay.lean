import CrisCore.MessageReplayer

/-! Recording and replaying: what a replayer publishes is what the recorder was given. -/
namespace CrisCore.MessageRecorder
open PriorityMerge MessageReplayer

variable {codec : MessageCodec} {s t : MessageRecorder codec} {ops : List (Op codec)}

/-- At the start there is nothing under the record directory and nothing is registered. -/
theorem recording_init (hs : (system codec).init s) (hfresh : FreshDir s.fs s.recordDir) :
    Recording s := by
  obtain ⟨hfiles, hwritten⟩ := hs
  constructor <;> simp only [hfiles, hwritten]
  case only =>
    rintro p hp (hn | hl)
    · exact absurd (hfresh p hp).1 hn
    · exact absurd hl (hfresh p hp).2
  all_goals simp

theorem counted_init (hs : (system codec).init s) :
    Counted s fun i => (s.globalCounters i).toNat :=
  ⟨fun i => UInt64.ofNat_toNat.symm, by simp [hs.2]⟩

/-- The readers that stand at the first records of all channels feed the whole recording. -/
theorem feeds_records {written : List (Written codec)} {channels : List Channel}
    (hnn : ∀ w ∈ written, 0 ≤ w.key.timestampNs.toInt) (hnodup : channels.Nodup)
    (hmem : ∀ c, c ∈ channels ↔ ∃ w ∈ written, w.channel = c) :
    Feeds (fun w : Written codec => w.channel) RecordReader.channel StandsAt written
      (channels.map fun c => ⟨c, .start (records written c) false⟩) := by
  refine ⟨?_, ?_, ?_, fun w hw => ?_⟩
  · simpa [Function.comp_def] using hnodup
  · intro r hr
    obtain ⟨c, hc, rfl⟩ := List.mem_map.mp hr
    exact readNextValidKey_records _ (fun v hv => hnn v (List.mem_of_mem_filter hv)) c
  · intro r hr
    obtain ⟨c, hc, rfl⟩ := List.mem_map.mp hr
    exact (hmem c).mp hc
  · exact ⟨_, List.mem_map_of_mem ((hmem w.channel).mpr ⟨w, hw, rfl⟩), rfl⟩

/-- Record, then replay: with every operation succeeding, no roll and a clock that never steps back,
and as long as no counter of the keys wraps, a replayer that registers the channels with messages
publishes the delivered messages, each once and on its channel, in the order of their delivery. -/
theorem record_then_replay (heap : TakeMax RecordReader.compare) (hs : (system codec).init s)
    (hfresh : FreshDir s.fs s.recordDir)
    (hkeys : ∀ i, (s.globalCounters i).toNat + ops.countP Op.makesKey ≤ 2 ^ 64)
    (horderly : (system codec).StepsMeet Orderly s ops)
    (hrun : (system codec).exec s ops = some t) {regs : List (Channel × OpenAnswers)}
    (hwilling : ∀ reg ∈ regs, Willing reg.2) (hnodup : (regs.map Prod.fst).Nodup)
    (hmem : ∀ c, c ∈ regs.map Prod.fst ↔ ∃ m ∈ delivered ops, m.channel = c) :
    ∃ r, (MessageReplayer.create (clearFiles t.fs t.files) t.recordDir).registerChannels regs =
        some r ∧
      ∀ running ≥ (delivered ops).length,
        replayMessages codec heap running r.recordReaders = (delivered ops, []) := by
  obtain ⟨hrec, -, hpub⟩ :=
    recording_of_run (recording_init hs hfresh) (counted_init hs) hkeys horderly hrun
  rw [hs.2, List.map_nil, List.nil_append] at hpub
  -- the channels with messages are the channels with records
  have hmem' : ∀ c, c ∈ regs.map Prod.fst ↔ ∃ w ∈ t.written, w.channel = c := by
    intro c
    rw [hmem, ← hpub]
    simp
  have hregs : ∀ reg ∈ regs, ∃ w ∈ t.written, w.channel = reg.1 :=
    fun reg hr => (hmem' reg.1).mp (List.mem_map_of_mem hr)
  -- one file for each of them, so they have different directories
  have hdirs : (regs.map fun reg => reg.1.dir).Nodup := by
    have hinj : ∀ c ∈ regs.map Prod.fst, ∀ c' ∈ regs.map Prod.fst, c.dir = c'.dir → c = c' := by
      intro c hc c' hc' hd
      obtain ⟨w, hw, rfl⟩ := (hmem' c).mp hc
      obtain ⟨w', hw', rfl⟩ := (hmem' c').mp hc'
      obtain ⟨g, hg, hgc⟩ := hrec.channel w hw
      obtain ⟨g', hg', hgc'⟩ := hrec.channel w' hw'
      rw [← hgc, ← hgc'] at hd ⊢
      rw [hrec.file_unique hg hg' hd]
    simpa [Function.comp_def] using List.Nodup.map_on hinj hnodup
  obtain ⟨r, hr, hreaders⟩ := registerChannels_committed
    (r := MessageReplayer.create (clearFiles t.fs t.files) t.recordDir)
    (fun reg hr => hrec.clearFiles (hregs reg hr)) (fun reg hr => records_ne_nil (hregs reg hr))
    hrec.readable hdirs hwilling
  refine ⟨r, hr, fun running hrunning => ?_⟩
  -- every reader stands at the first record of its channel
  have hfeeds := feeds_records hrec.nonneg hnodup hmem'
  have hrs : r.recordReaders =
      (regs.map Prod.fst).map fun c => ⟨c, .start (records t.written c) false⟩ := by
    rw [hreaders, List.map_map]
    rfl
  rw [hrs, ← hpub]
  apply replayMessages_eq hfeeds hrec.sorted hrec.nonneg
  simpa [← hpub] using hrunning

section Runs

/-- Messages that are their own serialization. -/
def rawCodec : MessageCodec where
  Message _ := Bytes
  messageToStr message := message
  messageFromStr _ bytes := bytes
  fromStr_toStr _ := rfl

/-- A recorder in a new process, on an empty disk. -/
def newRecorder : MessageRecorder rawCodec where
  fs := ⟨∅, [], []⟩
  globalCounters := fun _ => 0
  recordDir := ["records", "host"]
  rolling := false
  files := []
  written := []

def intChannel : Channel := ⟨"TestMessage<int>", 1⟩

def doubleChannel : Channel := ⟨"TestMessage<double>", 1⟩

def willing : OpenAnswers := ⟨true, .proceeds, .proceeds, true⟩

def putsOnly : WriteAnswers := ⟨false, "", willing, true, true⟩

def deliverAt (channel : Channel) (message : Bytes) (now : Int64) : Op rawCodec :=
  .deliver ⟨channel, message⟩ now putsOnly

theorem freshDir_newRecorder : FreshDir newRecorder.fs newRecorder.recordDir :=
  fun _ _ => ⟨rfl, List.not_mem_nil⟩

/-- Two channels whose messages come at the same times. -/
def interleavedRun : List (Op rawCodec) :=
  [.registerChannel intChannel "int" "20230316T041531" true willing,
    .registerChannel doubleChannel "" "20230316T041532" true willing,
    deliverAt intChannel [0] 5, deliverAt doubleChannel [1] 5, deliverAt intChannel [2] 5,
    .makeKey 5, deliverAt doubleChannel [3] 6]

theorem record_then_replay_interleavedRun :
    let t := (system rawCodec).after newRecorder interleavedRun
    ∃ r, (MessageReplayer.create (clearFiles t.fs t.files) t.recordDir).registerChannels
        [(doubleChannel, willing), (intChannel, willing)] = some r ∧
      ∀ running ≥ (delivered interleavedRun).length,
        replayMessages rawCodec RecordReader.scanHeap running r.recordReaders =
          (delivered interleavedRun, []) := by
  refine record_then_replay _ ⟨rfl, rfl⟩ freshDir_newRecorder (by decide) (by decide)
    ((system rawCodec).exec_after (by decide)) (by decide) (by decide) fun c => ?_
  simp only [interleavedRun, deliverAt, delivered, List.map_cons, List.map_nil, List.mem_cons,
    List.not_mem_nil, or_false, exists_eq_or_imp, exists_eq_left]
  tauto

def makeKeys (n : ℕ) : List (Op rawCodec) := List.replicate n (.makeKey 0)

theorem exec_makeKeys (s : MessageRecorder rawCodec) (n : ℕ) :
    (system rawCodec).exec s (makeKeys n) = some { s with
      globalCounters := Function.update s.globalCounters (RecordFileKey.slot 0)
        (s.globalCounters (RecordFileKey.slot 0) + UInt64.ofNat n) } := by
  induction n generalizing s with
  | zero =>
    have hzero : s.globalCounters (RecordFileKey.slot 0) + UInt64.ofNat 0 =
        s.globalCounters (RecordFileKey.slot 0) := UInt64.add_zero _
    rw [hzero, Function.update_eq_self]
    rfl
  | succ n ih =>
    change ((system rawCodec).step s (.makeKey 0)).bind _ = _
    simp only [system, step, Option.bind_some]
    apply (ih _).trans
    simp only [RecordFileKey.make, Function.update_self, Function.update_idem,
      UInt64.ofNat_add, UInt64.add_assoc, UInt64.add_comm (UInt64.ofNat n)]
    rfl

theorem stepsMeet_makeKeys (s : MessageRecorder rawCodec) (n : ℕ) :
    (system rawCodec).StepsMeet Orderly s (makeKeys n) := by
  induction n generalizing s with
  | zero => trivial
  | succ n ih => exact ⟨trivial, fun t _ => ih t⟩

theorem delivered_makeKeys (n : ℕ) (ops : List (Op rawCodec)) :
    delivered (makeKeys n ++ ops) = delivered ops := by
  induction n with
  | zero => rfl
  | succ n ih => exact ih

def lastKeyRun : List (Op rawCodec) :=
  [.registerChannel intChannel "" "20230316T041531" true willing, deliverAt intChannel [0] 0,
    deliverAt intChannel [1] 0]

/-- The recorder after `2 ^ 64 - 1` keys of one slot. -/
def lastKeyRecorder : MessageRecorder rawCodec :=
  { newRecorder with
    globalCounters := Function.update newRecorder.globalCounters (RecordFileKey.slot 0)
      (newRecorder.globalCounters (RecordFileKey.slot 0) + UInt64.ofNat (2 ^ 64 - 1)) }

def lastKeyReplayer : Option MessageReplayer :=
  let t := (system rawCodec).after lastKeyRecorder lastKeyRun
  (MessageReplayer.create (clearFiles t.fs t.files) t.recordDir).registerChannels
    [(intChannel, willing)]

/-- When other record files made `2 ^ 64 - 1` keys of the same slot, the second of two messages of
one time gets a smaller key than the first, and is replayed before it. -/
theorem wrapped_counter_reorders : ∃ ops t r,
    (system rawCodec).StepsMeet Orderly newRecorder ops ∧
    (system rawCodec).exec newRecorder ops = some t ∧
    (MessageReplayer.create (clearFiles t.fs t.files) t.recordDir).registerChannels
      [(intChannel, willing)] = some r ∧
    (replayMessages rawCodec RecordReader.scanHeap 2 r.recordReaders).1.map Published.message =
      [[1], [0]] ∧
    (delivered ops).map Published.message = [[0], [1]] := by
  have hmade : (system rawCodec).exec newRecorder (makeKeys (2 ^ 64 - 1)) = some lastKeyRecorder :=
    exec_makeKeys newRecorder (2 ^ 64 - 1)
  have hlast : (system rawCodec).exec lastKeyRecorder lastKeyRun =
      some ((system rawCodec).after lastKeyRecorder lastKeyRun) :=
    (system rawCodec).exec_after (by decide)
  have hregister : lastKeyReplayer.isSome = true := by decide
  refine ⟨makeKeys (2 ^ 64 - 1) ++ lastKeyRun, _, lastKeyReplayer.get hregister,
    (stepsMeet_makeKeys _ _).append hmade (by decide), ?_, (Option.some_get hregister).symm, ?_, ?_⟩
  · rw [TransitionSystem.exec_append, hmade]
    exact hlast
  · rfl
  · rw [delivered_makeKeys]
    rfl

end Runs

end CrisCore.MessageRecorder
