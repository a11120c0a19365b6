import CrisCore.ClockedRecorder
import CrisCore.RecorderJobs
import CrisCore.SubscriptionDelivery

/-! From `Publish` to the record directory: the recorder is the node that subscribes to a channel
with `record_strand_`, and its callback writes the message to the record file of the channel. Each
message object is published once, so that it keeps its channel. -/
namespace CrisCore.PublishedReadBack
open MessageRecorder RecordFile RecorderRun TransitionSystem
open SubscriptionRegistry (ThreadId MessageId)
open SubscriptionDelivery (Subscription)
open Strand (JobId)
open UtcTime (UtcTexts civilTexts)

variable {codec : MessageCodec} (texts : UtcTexts)

/-- The subscription that `RegisterChannel` makes. -/
structure RecordedChannel (codec : MessageCodec) where
  subscription : Subscription
  channel : Channel
  message : MessageId → codec.Message channel.messageType

structure State (codec : MessageCodec) where
  delivery : SubscriptionDelivery.State
  recorder : ClockedRecorder.State codec
  /-- The jobs whose callback has called `Write`, in that order. -/
  wrote : List JobId
  /-- History: the message objects that have been published, on any channel. -/
  objects : List MessageId

inductive Action (codec : MessageCodec)
  | delivery (a : SubscriptionDelivery.Action)
  /-- The callback that a worker executes as job `j` writes its message. -/
  | write (j : JobId) (times : ClockedRecorder.WriteTimes) (opens : OpenAnswers) (renames : Bool)
  /-- A step of the recorder that is no write to the channel. -/
  | recorder (op : ClockedRecorder.Op codec)

variable (ch : RecordedChannel codec)

def RecordedChannel.published (m : MessageId) : Published codec :=
  ⟨ch.channel, ch.message m⟩

/-- The step of the recorder in a `Write` whose `Put` succeeds. -/
def RecordedChannel.deliver (m : MessageId) (times : ClockedRecorder.WriteTimes)
    (opens : OpenAnswers) (renames : Bool) : ClockedRecorder.Op codec :=
  .deliver (ch.published m) times opens renames true

/-- The message object that a step publishes. -/
def publishes : SubscriptionDelivery.Action → List MessageId
  | .registry (.publish _ _ m) => [m]
  | _ => []

def writesElsewhere : ClockedRecorder.Op codec → Bool
  | .deliver m _ _ _ _ => m.channel != ch.channel
  | .registerChannel .. | .makeKey _ | .generateSnapshot .. => true

namespace State

/-- The callbacks of the subscription that workers have started. -/
def callbacks (s : State codec) : List JobId :=
  s.delivery.started.filter fun j => (s.delivery.message j).isSome

/-- No job of `record_strand_` takes its token, and a callback ends after its `Write`. -/
def allows (s : State codec) : SubscriptionDelivery.Action → Bool
  | .strand (.handOverToken _) | .strand (.shareToken _) => false
  | .strand (.finishJob j) => (s.delivery.message j).isNone || s.wrote.contains j
  | _ => true

/-- A worker is in the callback, before `Write`. -/
def inCallback (s : State codec) (j : JobId) : Bool :=
  s.delivery.strand.phase j = .running && s.callbacks.contains j && !s.wrote.contains j

/-- The messages with their publishers that have been written. -/
def written (s : State codec) : List (ThreadId × MessageId) :=
  s.wrote.filterMap s.delivery.message

/-- Those of one publisher. -/
def writtenBy (s : State codec) (t : ThreadId) : List MessageId :=
  s.delivery.messagesOf t s.wrote

end State

def step (s : State codec) : Action codec → Option (State codec)
  | .delivery a =>
    if s.allows a then
      ((SubscriptionDelivery.system ch.subscription).step s.delivery a).map fun d =>
        { s with delivery := d, objects := s.objects ++ publishes a }
    else none
  | .write j times opens renames =>
    if s.inCallback j then
      (s.delivery.message j).bind fun p =>
        (ClockedRecorder.step texts s.recorder (ch.deliver p.2 times opens renames)).map fun r =>
          { s with recorder := r, wrote := s.wrote ++ [j] }
    else none
  | .recorder op =>
    if writesElsewhere ch op then
      (ClockedRecorder.step texts s.recorder op).map fun r => { s with recorder := r }
    else none

def system : TransitionSystem (State codec) (Action codec) where
  init s := s.delivery = SubscriptionDelivery.initial ∧
    (ClockedRecorder.system texts codec).init s.recorder ∧ s.wrote = [] ∧ s.objects = []
  step := step texts ch

def Action.makesKey : Action codec → Bool
  | .delivery _ => false
  | .write .. => true
  | .recorder op => op.makesKey

/-- No message object is published again; the recorder's steps succeed, for channels with a
directory of their own, and its clock does not step back. -/
def Meets (s : State codec) : Action codec → Prop
  | .delivery a => ∀ m ∈ publishes a, m ∉ s.objects
  | .write j times opens renames =>
    ∀ p ∈ s.delivery.message j,
      ClockedRecorder.Meets texts s.recorder (ch.deliver p.2 times opens renames)
  | .recorder op => ClockedRecorder.Meets texts s.recorder op

instance (s : State codec) : (a : Action codec) → Decidable (Meets texts ch s a)
  | .delivery a => inferInstanceAs (Decidable (∀ m ∈ publishes a, m ∉ s.objects))
  | .write .. => inferInstanceAs (Decidable (∀ p ∈ s.delivery.message _, _))
  | .recorder _ => inferInstanceAs (Decidable (ClockedRecorder.Meets ..))

section Strand
variable {s : Strand.State} {e : Strand.Action}

theorem handedOver_next (h : ∀ j, e ≠ .handOverToken j) :
    (Strand.next s e).handedOver = s.handedOver := by
  cases e <;> simp only [Strand.next, Strand.State.destroyJob_eq, Strand.State.releaseToken_eq] <;>
    (repeat' split) <;> simp_all [Strand.State.setPc, Strand.State.setPhase]

/-- Where no token is handed over, no job runs while another one is about to be started. -/
theorem not_running_of_queued (h : Strand.system.Reachable s) (hno : ∀ j, s.handedOver j = false)
    {w : ℕ} {j k : JobId} (hj : s.phase j = .queued w) : s.phase k ≠ .running := by
  intro hk
  obtain ⟨hs, b, hb⟩ := Strand.reachable_refines h
  have hactive : Strand.Active s k := by
    rcases Strand.active_of_running hs hk with ha | ha
    · exact ha
    · rw [hno] at ha
      cases ha.1
  have hjk := hb.active_unique (Strand.active_of_waiting hs (Or.inl ⟨w, hj⟩)) hactive
  rw [hjk, hk] at hj
  cases hj

theorem pushed_nodup (h : Strand.system.Reachable s) : s.pushed.Nodup := by
  refine List.nodup_iff_count_le_one.mpr fun j => ?_
  rw [(Strand.reachable_recorded h).counted.pushed j]
  split_ifs <;> omega

end Strand

variable {texts ch}

/-- The callbacks have written in the order in which they were started, but for one that has not
come to its `Write`. -/
structure Inv (ch : RecordedChannel codec) (s : State codec) : Prop where
  delivery : SubscriptionDelivery.Inv ch.subscription s.delivery
  tokens : ∀ j, s.delivery.strand.handedOver j = false
  order : ∃ w : Option JobId, s.callbacks = s.wrote ++ w.toList ∧
    ∀ j ∈ w, s.delivery.strand.phase j = .running

section Steps
variable {s t : State codec}

theorem started_in_push_order (h : SubscriptionDelivery.Inv ch.subscription s.delivery) :
    s.delivery.started <+: s.delivery.strand.pushed :=
  h.started.started_prefix_handed.trans
    (Strand.handed_prefix (Strand.reachable_recorded h.strand) h.strandAlive h.runnerAlive)

theorem callbacks_nodup (h : SubscriptionDelivery.Inv ch.subscription s.delivery) :
    s.callbacks.Nodup :=
  ((pushed_nodup h.strand).sublist (started_in_push_order h).sublist).filter _

/-- A call of `AddJob` is made for a job that is not in the history. -/
theorem callbacks_add {d : SubscriptionDelivery.State} (h : Inv ch s) {j : JobId}
    (hidle : s.delivery.strand.pc (.addJob, j) = .idle)
    (hstarted : d.started = s.delivery.started)
    (hmessage : ∀ k, k ≠ j → d.message k = s.delivery.message k) :
    State.callbacks { s with delivery := d } = s.callbacks := by
  unfold State.callbacks
  rw [hstarted]
  apply List.filter_congr
  intro k hk
  have hkj : k ≠ j := by
    rintro rfl
    exact SubscriptionDelivery.not_mem_pushed h.delivery.strand hidle
      ((started_in_push_order h.delivery).subset hk)
  rw [hmessage k hkj]

theorem inv_strand {e : Strand.Action} (h : Inv ch s) (hallows : s.allows (.strand e) = true)
    (he : SubscriptionDelivery.Enabled ch.subscription s.delivery (.strand e)) :
    Inv ch
      { s with delivery := SubscriptionDelivery.next ch.subscription s.delivery (.strand e) } := by
  have hr := h.delivery.strand
  obtain ⟨hs, -⟩ := Strand.reachable_refines hr
  have hdelivery := SubscriptionDelivery.inv_strand he h.delivery
  have hno : ∀ j, e ≠ .handOverToken j := by
    rintro j rfl
    cases hallows
  have htokens : ∀ j, (Strand.next s.delivery.strand e).handedOver j = false := by
    rw [handedOver_next hno]
    exact h.tokens
  refine ⟨hdelivery, htokens, ?_⟩
  obtain ⟨w, hw, hrunning⟩ := h.order
  have hcallbacks : State.callbacks { s with
      delivery := SubscriptionDelivery.next ch.subscription s.delivery (.strand e) } =
      s.callbacks ++ e.started.filter fun j => (s.delivery.message j).isSome :=
    List.filter_append ..
  rw [hcallbacks, hw]
  -- a callback that is running goes on until its job is finished
  have hkeeps : ∀ j ∈ w, e ≠ .finishJob j →
      (Strand.next s.delivery.strand e).phase j = .running := fun j hj hne =>
    Strand.running_step he.2 hs (hrunning j hj) hne
  cases e with
  | startJob worker k =>
    have hmem : k ∈ s.delivery.strand.jobQueue worker := List.mem_of_head? he.2
    have hqueued := (hs.place.mem_queue worker k).mp hmem
    have hnone : w = none := by
      cases w with
      | none => rfl
      | some j => exact absurd (hrunning j rfl) (not_running_of_queued hr h.tokens hqueued)
    subst hnone
    cases hk : (s.delivery.message k).isSome with
    | false => exact ⟨none, by simp [Strand.Action.started, hk], by simp⟩
    | true =>
      refine ⟨some k, by simp [Strand.Action.started, hk], ?_⟩
      rintro j ⟨⟩
      exact Function.update_self ..
  | finishJob k =>
    refine ⟨w, by simp [Strand.Action.started], fun j hj => hkeeps j hj ?_⟩
    rintro ⟨⟩
    -- its own `Write` has been made, so it cannot be the one that waits
    obtain rfl : w = some k := hj
    have hdup := callbacks_nodup h.delivery
    have hmem : k ∈ s.callbacks := by simp [hw]
    have hsome := (List.mem_filter.mp hmem).2
    rw [hw, Option.toList_some, List.nodup_append] at hdup
    have hnot : k ∉ s.wrote := fun hk => hdup.2.2 k hk k (List.mem_singleton_self k) rfl
    have hdone : (s.delivery.message k).isNone = true ∨ s.wrote.contains k = true := by
      simpa [State.allows] using hallows
    rcases hdone with hnone | hdone
    · rw [Option.isNone_iff_eq_none.mp hnone] at hsome
      cases hsome
    · exact hnot (List.contains_iff_mem.mp hdone)
  | _ =>
    refine ⟨w, by simp [Strand.Action.started], fun j hj => hkeeps j hj ?_⟩
    intro heq
    cases heq

theorem inv_delivery {a : SubscriptionDelivery.Action} (h : Inv ch s) (hallows : s.allows a = true)
    (he : SubscriptionDelivery.Enabled ch.subscription s.delivery a) :
    Inv ch { s with delivery := SubscriptionDelivery.next ch.subscription s.delivery a } := by
  cases a with
  | strand e => exact inv_strand h hallows he
  | registry a => exact ⟨SubscriptionDelivery.inv_registry he.1 he.2 h.delivery, h.tokens, h.order⟩
  | addToStrand u c m i n j =>
    have hidle : s.delivery.strand.pc (.addJob, j) = .idle := he.2.2
    let d := SubscriptionDelivery.next ch.subscription s.delivery (.addToStrand u c m i n j)
    have hsame : State.callbacks { s with delivery := d } = s.callbacks := by
      apply callbacks_add (d := d) h hidle rfl
      intro k hk
      simp only [d, SubscriptionDelivery.next]
      split_ifs
      · exact Function.update_of_ne hk ..
      · rfl
    refine ⟨SubscriptionDelivery.inv_add he h.delivery, h.tokens, ?_⟩
    change ∃ w, State.callbacks { s with delivery := d } = _ ∧ _
    rw [hsame]
    exact h.order

theorem step_delivery {a : SubscriptionDelivery.Action}
    (hstep : step texts ch s (.delivery a) = some t) :
    s.allows a = true ∧ SubscriptionDelivery.Enabled ch.subscription s.delivery a ∧
      t = { s with
        delivery := SubscriptionDelivery.next ch.subscription s.delivery a
        objects := s.objects ++ publishes a } := by
  simp only [step] at hstep
  split_ifs at hstep with hallows
  obtain ⟨d, hd, rfl⟩ := Option.map_eq_some_iff.mp hstep
  obtain ⟨he, rfl⟩ := SubscriptionDelivery.step_eq_some.mp hd
  exact ⟨hallows, he, rfl⟩

theorem step_write {j : JobId} {times : ClockedRecorder.WriteTimes} {opens : OpenAnswers}
    {renames : Bool} (hstep : step texts ch s (.write j times opens renames) = some t) :
    s.inCallback j = true ∧ ∃ p r, s.delivery.message j = some p ∧
      ClockedRecorder.step texts s.recorder (ch.deliver p.2 times opens renames) = some r ∧
      t = { s with recorder := r, wrote := s.wrote ++ [j] } := by
  simp only [step] at hstep
  split_ifs at hstep with hin
  obtain ⟨p, hp, hstep⟩ := Option.bind_eq_some_iff.mp hstep
  obtain ⟨r, hr, rfl⟩ := Option.map_eq_some_iff.mp hstep
  exact ⟨hin, p, r, hp, hr, rfl⟩

theorem step_recorder {op : ClockedRecorder.Op codec}
    (hstep : step texts ch s (.recorder op) = some t) : writesElsewhere ch op = true ∧
      ∃ r, ClockedRecorder.step texts s.recorder op = some r ∧ t = { s with recorder := r } := by
  simp only [step] at hstep
  split_ifs at hstep with helse
  obtain ⟨r, hr, rfl⟩ := Option.map_eq_some_iff.mp hstep
  exact ⟨helse, r, hr, rfl⟩

theorem inv_step {a : Action codec} (h : Inv ch s) (hstep : step texts ch s a = some t) :
    Inv ch t := by
  cases a with
  | delivery a =>
    obtain ⟨hallows, he, rfl⟩ := step_delivery hstep
    obtain ⟨hdelivery, htokens, horder⟩ := inv_delivery h hallows he
    exact ⟨hdelivery, htokens, horder⟩
  | write j times opens renames =>
    obtain ⟨hin, p, r, hp, hr, rfl⟩ := step_write hstep
    refine ⟨h.delivery, h.tokens, none, ?_, by simp⟩
    obtain ⟨w, hw, -⟩ := h.order
    -- the callback is the one that had not written
    simp only [State.inCallback, Bool.and_eq_true, Bool.not_eq_true', List.contains_iff_mem] at hin
    have hmem := hin.1.2
    rw [hw, List.mem_append] at hmem
    have hnot : j ∉ s.wrote := by simpa using hin.2
    have hwj : w = some j := by simpa using hmem.resolve_left hnot
    change s.callbacks = s.wrote ++ [j] ++ []
    rw [hw, hwj, List.append_nil]
    rfl
  | recorder op =>
    obtain ⟨-, r, -, rfl⟩ := step_recorder hstep
    exact ⟨h.delivery, h.tokens, h.order⟩

end Steps

section Recorder
variable {s t : ClockedRecorder.State codec} {op : ClockedRecorder.Op codec}

/-- What a step of the recorder puts. -/
def puts : ClockedRecorder.Op codec → List (Published codec)
  | .deliver m _ _ _ put => if put then [m] else []
  | .registerChannel .. | .makeKey _ | .generateSnapshot .. => []

theorem write_fst {fs : FileSystem} {f : RecordFile} {key : RecordFileKey} {value : Bytes}
    {answers : WriteAnswers} {r : Bool × FileSystem × RecordFile}
    (h : f.write fs key value answers = some r) : r.1 = answers.put := by
  unfold RecordFile.write at h
  generalize (if f.rollingHelper && answers.needToRoll then (f.roll fs answers).2 else (fs, f)) =
    rolled at h
  cases hdb : rolled.2.db with
  | none => simp [hdb] at h
  | some handle =>
    simp only [hdb, Option.some.injEq] at h
    rw [← h]

/-- The records are the messages whose `Put` succeeded, with their keys. -/
theorem written_step (hstep : ClockedRecorder.step texts s op = some t) :
    t.run.recorder.written.map Written.toPublished =
      s.run.recorder.written.map Written.toPublished ++ puts op := by
  obtain ⟨-, hrun, -, -⟩ := ClockedRecorder.step_run hstep
  cases op with
  | generateSnapshot dir answers =>
    obtain ⟨result, hresult, ht⟩ := Option.map_eq_some_iff.mp hrun
    obtain ⟨opened, -, rfl⟩ := Option.map_eq_some_iff.mp hresult
    rw [← ht, puts, List.append_nil]
  | registerChannel channel linkname name helper renames answers =>
    simp only [ClockedRecorder.State.opOf, RecorderRun.step, MessageRecorder.step] at hrun
    split_ifs at hrun
    obtain ⟨r, hr, ht⟩ := Option.map_eq_some_iff.mp hrun
    rw [← ht, puts, List.append_nil]
    split at hr
    · cases hr
    · cases hr
      rfl
  | makeKey now =>
    simp only [ClockedRecorder.State.opOf, RecorderRun.step, MessageRecorder.step] at hrun
    split_ifs at hrun
    obtain ⟨r, hr, ht⟩ := Option.map_eq_some_iff.mp hrun
    rw [← ht, puts, List.append_nil]
    cases hr
    rfl
  | deliver m times opens renames put =>
    simp only [ClockedRecorder.State.opOf, RecorderRun.step, MessageRecorder.step] at hrun
    split_ifs at hrun
    obtain ⟨r, hr, ht⟩ := Option.map_eq_some_iff.mp hrun
    rw [← ht]
    split at hr
    · cases hr
    · obtain ⟨result, hwrite, rfl⟩ := Option.map_eq_some_iff.mp hr
      have hput : result.1 = put := write_fst hwrite
      cases put with
      | true => simp [puts, hput]
      | false => simp [puts, hput]

end Recorder

section Runs
variable {s t : State codec} {a : Action codec} {made : Fin 16 → ℕ}

/-- The records of the channel are the messages of the callbacks that have written. -/
structure Holds (texts : UtcTexts) (ch : RecordedChannel codec) (made : Fin 16 → ℕ)
    (s : State codec) : Prop where
  inv : Inv ch s
  kept : ClockedRecorder.Kept texts made s.recorder
  records : (s.recorder.run.recorder.written.map Written.toPublished).filter
      (fun m => m.channel = ch.channel) = s.written.map fun p => ch.published p.2

theorem mem_callbacks_of_wrote (h : Inv ch s) {j : JobId} (hj : j ∈ s.wrote) :
    j ∈ s.callbacks := by
  obtain ⟨w, hw, -⟩ := h.order
  rw [hw]
  exact List.mem_append_left _ hj

/-- A step of the delivery does not touch what has been written. -/
theorem written_delivery {a : SubscriptionDelivery.Action} (h : Inv ch s)
    (he : SubscriptionDelivery.Enabled ch.subscription s.delivery a) :
    State.written { s with delivery := SubscriptionDelivery.next ch.subscription s.delivery a } =
      s.written := by
  cases a with
  | registry a => rfl
  | strand e => rfl
  | addToStrand u c m i n j =>
    apply List.filterMap_congr
    intro k hk
    have hidle : s.delivery.strand.pc (.addJob, j) = .idle := he.2.2
    have hkj : k ≠ j := by
      rintro rfl
      have hmem := (List.mem_filter.mp (mem_callbacks_of_wrote h hk)).1
      exact SubscriptionDelivery.not_mem_pushed h.delivery.strand hidle
        ((started_in_push_order h.delivery).subset hmem)
    simp only [SubscriptionDelivery.next]
    split_ifs
    · exact Function.update_of_ne hkj ..
    · rfl

/-- How many keys of each slot are made, with those of the step. -/
def count (texts : UtcTexts) (ch : RecordedChannel codec) (s : State codec) (made : Fin 16 → ℕ) :
    Action codec → Fin 16 → ℕ
  | .delivery _ => made
  | .write j times opens renames =>
    match s.delivery.message j with
    | none => made
    | some p => (s.recorder.opOf texts (ch.deliver p.2 times opens renames)).count made
  | .recorder op => (s.recorder.opOf texts op).count made

theorem holds_step {n : ℕ} (h : Holds texts ch made s)
    (hb : ∀ i, made i + ([a].countP Action.makesKey + n) ≤ 2 ^ 64) (hm : Meets texts ch s a)
    (hstep : step texts ch s a = some t) :
    Holds texts ch (count texts ch s made a) t ∧ ∀ i, count texts ch s made a i + n ≤ 2 ^ 64 := by
  have hinv := inv_step h.inv hstep
  cases a with
  | delivery a =>
    obtain ⟨-, he, rfl⟩ := step_delivery hstep
    refine ⟨⟨hinv, h.kept, ?_⟩, fun i => ?_⟩
    · exact h.records.trans
        (congrArg (List.map fun p => ch.published p.2) (written_delivery h.inv he).symm)
    · have hi := hb i
      rw [List.countP_cons_of_neg (by simp [Action.makesKey]), List.countP_nil] at hi
      simp only [count]
      omega
  | write j times opens renames =>
    obtain ⟨-, p, r, hp, hr, rfl⟩ := step_write hstep
    have hcount : count texts ch s made (.write j times opens renames) =
        (s.recorder.opOf texts (ch.deliver p.2 times opens renames)).count made := by
      simp only [count, hp]
    obtain ⟨hkept, hroom⟩ := ClockedRecorder.kept_step h.kept hb (hm p hp) hr
    rw [hcount]
    refine ⟨⟨hinv, hkept, ?_⟩, hroom⟩
    have hwritten : State.written { s with recorder := r, wrote := s.wrote ++ [j] } =
        s.written ++ [p] := by
      simp [State.written, List.filterMap_append, hp]
    rw [hwritten, List.map_append, ← h.records, written_step hr, List.filter_append]
    simp [puts, RecordedChannel.deliver, RecordedChannel.published]
  | recorder op =>
    obtain ⟨helse, r, hr, rfl⟩ := step_recorder hstep
    have hroom' : ∀ i, made i + ([op].countP ClockedRecorder.Op.makesKey + n) ≤ 2 ^ 64 := hb
    obtain ⟨hkept, hroom⟩ := ClockedRecorder.kept_step h.kept hroom' hm hr
    refine ⟨⟨hinv, hkept, ?_⟩, hroom⟩
    have hother : (puts op).filter (fun m => m.channel = ch.channel) = [] := by
      cases op with
      | deliver m times opens renames put =>
        have hne : m.channel ≠ ch.channel := by simpa [writesElsewhere] using helse
        cases put <;> simp [puts, hne]
      | _ => rfl
    have hwritten : State.written { s with recorder := r } = s.written := rfl
    rw [hwritten, written_step hr, List.filter_append, hother, List.append_nil]
    exact h.records

theorem holds_of_run {as : List (Action codec)} (h : Holds texts ch made s)
    (hb : ∀ i, made i + as.countP Action.makesKey ≤ 2 ^ 64)
    (hmeet : (system texts ch).StepsMeet (Meets texts ch) s as)
    (hrun : (system texts ch).exec s as = some t) :
    ∃ made, Holds texts ch made t := by
  induction as generalizing s made with
  | nil =>
    cases hrun
    exact ⟨made, h⟩
  | cons a as ih =>
    obtain ⟨u, hu, hrest⟩ := Option.bind_eq_some_iff.mp hrun
    have hroom : ∀ i, made i + ([a].countP Action.makesKey + as.countP Action.makesKey) ≤
        2 ^ 64 := by
      intro i
      rw [← List.countP_append]
      exact hb i
    obtain ⟨hu', hbu⟩ := holds_step h hroom hmeet.1 hu
    exact ih hu' hbu (hmeet.2 u hu) hrest

theorem holds_of_init (hs : (system texts ch).init s) :
    Holds texts ch (fun i => (s.recorder.run.recorder.globalCounters i).toNat) s := by
  obtain ⟨hdelivery, hrecorder, hwrote, -⟩ := hs
  have hcallbacks : s.callbacks = [] := by
    rw [State.callbacks, hdelivery]
    rfl
  refine ⟨⟨hdelivery ▸ SubscriptionDelivery.inv_initial ch.subscription, ?_, none, ?_, by simp⟩,
    ClockedRecorder.kept_of_init hrecorder, ?_⟩
  · intro j
    rw [hdelivery]
    rfl
  · rw [hcallbacks, hwrote]
    rfl
  · obtain ⟨hstart, hnew, -⟩ := hrecorder
    have hnone : s.recorder.run.recorder.written = [] := by
      rw [← hstart.written, hnew, List.map_nil]
    rw [hnone, State.written, hwrote]
    rfl

/-- The texts of the records of the channel. -/
theorem texts_of_holds (h : Holds texts ch made s) :
    ((s.recorder.run.recorder.written.filter fun w => w.channel = ch.channel).map
      Written.record).map Prod.snd =
        s.written.map fun p => codec.messageToStr (ch.message p.2) := by
  have hrecords := congrArg (List.map fun m : Published codec => codec.messageToStr m.message)
    h.records
  rw [List.filter_map, List.map_map, List.map_map] at hrecords
  rw [List.map_map]
  exact hrecords

theorem messagesOf_callbacks (s : State codec) (u : ThreadId) :
    s.delivery.messagesOf u s.callbacks = s.delivery.processed u := by
  unfold State.callbacks SubscriptionDelivery.State.processed SubscriptionDelivery.State.messagesOf
  rw [List.filterMap_filter]
  apply List.filterMap_congr
  intro j _
  cases hm : s.delivery.message j with
  | none => rfl
  | some p => rfl

/-- What a publisher's callbacks have written is the beginning of what it has published. -/
theorem writtenBy_isPrefix (h : Inv ch s) (u : ThreadId) :
    s.writtenBy u <+: (s.delivery.published u).drop (s.delivery.missed u) := by
  refine List.IsPrefix.trans ?_ (SubscriptionDelivery.processed_isPrefix h.delivery u)
  obtain ⟨w, hw, -⟩ := h.order
  rw [← messagesOf_callbacks, hw, SubscriptionDelivery.messagesOf_append]
  exact List.prefix_append _ _

/-- The node has subscribed, the publisher is in no call, and the jobs of the subscription have
ended. -/
structure AtRest (ch : RecordedChannel codec) (s : State codec) (u : ThreadId) : Prop where
  subscribed : ch.subscription.node ∈ s.delivery.registry.subList ch.subscription.channel
  returned : s.delivery.busy u = false ∧ (s.delivery.registry.pc u).reads = false
  ended : ∀ j, s.delivery.message j ≠ none → s.delivery.strand.phase j = .finished

theorem writtenBy_atRest (h : Inv ch s) {u : ThreadId} (hrest : AtRest ch s u) :
    s.writtenBy u = (s.delivery.published u).drop (s.delivery.missed u) := by
  obtain ⟨hs, -⟩ := Strand.reachable_refines h.delivery.strand
  have horder := h.delivery.order hrest.subscribed u
  rw [SubscriptionDelivery.notPushed_of_not_busy hrest.returned.1,
    SubscriptionDelivery.notHanded_of_not_reads hrest.returned.2, List.append_nil,
    List.append_nil] at horder
  rw [← horder]
  -- a job that has not been started is none of the subscription's
  have hnone (l : List JobId) (hl : ∀ j ∈ l, s.delivery.strand.phase j ≠ .finished) :
      s.delivery.messagesOf u l = [] := by
    apply SubscriptionDelivery.messagesOf_eq_nil
    intro j hj
    by_contra hm
    exact hl j hj (hrest.ended j hm)
  obtain ⟨flight, hpushed, hflight⟩ := (Strand.reachable_recorded h.delivery.strand).inOrder
    h.delivery.strandAlive h.delivery.runnerAlive
  obtain ⟨waiting, hhanded, hwaiting⟩ := h.delivery.started
  obtain ⟨w, hw, hrunning⟩ := h.order
  have hw' : s.delivery.messagesOf u w.toList = [] := by
    apply hnone
    intro j hj
    rw [hrunning j (by simpa using hj)]
    exact Strand.Phase.noConfusion
  have hwaiting' : s.delivery.messagesOf u waiting.toList = [] := by
    apply hnone
    intro j hj
    obtain ⟨i, hi⟩ := (hwaiting j).mp (by simpa using hj)
    rw [(hs.place.mem_queue i j).mp hi]
    exact Strand.Phase.noConfusion
  have hflight' : s.delivery.messagesOf u flight.toList = [] := by
    apply hnone
    intro j hj
    obtain ⟨b, hb⟩ := (hflight j).mp (by simpa using hj)
    rw [hb]
    exact Strand.Phase.noConfusion
  have hpending : s.delivery.messagesOf u s.delivery.strand.pendingJobs = [] := by
    apply hnone
    intro j hj
    rw [(hs.place.mem_pending j).mp hj]
    exact Strand.Phase.noConfusion
  calc s.writtenBy u = s.delivery.messagesOf u (s.wrote ++ w.toList) := by
        rw [SubscriptionDelivery.messagesOf_append, hw', List.append_nil]
        rfl
    _ = s.delivery.messagesOf u s.delivery.started := by
        rw [← hw, messagesOf_callbacks]
        rfl
    _ = s.delivery.messagesOf u s.delivery.strand.pushed := by
        rw [hpushed, hhanded]
        simp only [SubscriptionDelivery.messagesOf_append, hwaiting', hflight', hpending,
          List.append_nil]

end Runs

/-- What is published on a recorded channel is read back from the record directory. In every
interleaving of publishers, workers and the recorder's other steps in which no message object is
published twice, the records of the channel, read in the order in which its directories are listed,
are the messages whose callbacks have written; those of each publisher are the beginning of what it
has published since the subscription, in its order and without gaps, and all of it when the
publisher and the workers are at rest. -/
theorem published_messages_read_back {s t : State codec} {as : List (Action codec)}
    (answers : Path → OpenAnswers) (hs : (system texts ch).init s)
    (hkeys : ∀ i, (s.recorder.run.recorder.globalCounters i).toNat +
      as.countP Action.makesKey ≤ 2 ^ 64)
    (hmeet : (system texts ch).StepsMeet (Meets texts ch) s as)
    (hrun : (system texts ch).exec s as = some t)
    {f : RecordFile} (hf : (ch.channel, f) ∈ t.recorder.run.recorder.files)
    (hw : ∀ p, Willing (answers p)) :
    let recorder := t.recorder.run.recorder
    let fs := clearFiles recorder.fs recorder.files
    (∃ records, readFiles answers fs (listLevelDBDirs fs recorder.recordDir ch.channel) =
        some records ∧
      records.map Prod.snd = t.written.map fun p => codec.messageToStr (ch.message p.2)) ∧
    ∀ u, t.writtenBy u <+: (t.delivery.published u).drop (t.delivery.missed u) ∧
      (AtRest ch t u → t.writtenBy u = (t.delivery.published u).drop (t.delivery.missed u)) := by
  obtain ⟨_, h⟩ := holds_of_run (holds_of_init hs) hkeys hmeet hrun
  have hread := readFiles_channel h.kept.ordered.inOrder h.kept.ordered.keeps hf hw
  refine ⟨⟨_, hread, ?_⟩, fun u => ⟨writtenBy_isPrefix h.inv u, writtenBy_atRest h.inv⟩⟩
  exact texts_of_holds h

section Sample
open SubscriptionDelivery (testSubscription subscribeRun publishRun)

def intRecorded : RecordedChannel rawCodec :=
  ⟨testSubscription, intChannel, fun m => [UInt8.ofNat m]⟩

def startState : State rawCodec :=
  ⟨SubscriptionDelivery.initial, ClockedRecorder.hourState, [], []⟩

/-- Job `j` writes at a second, ends and releases its token. -/
def callbackRun (j : JobId) (second : ℤ) : List (Action rawCodec) :=
  let t := second * 1000000000
  .write j ⟨Int64.ofInt t, t, t, t⟩ willing true ::
    [.finishJob j, .lock (.aliveToken, j), .testReady (.aliveToken, j),
      .consumeOne (.aliveToken, j), .storeReady (.aliveToken, j) none,
      .unlock (.aliveToken, j) none].map fun e => .delivery (.strand e)

/-- Two messages of one publisher, with a roll and a snapshot between them. -/
def publishedRun : List (Action rawCodec) :=
  .recorder (.registerChannel intChannel "" 1 2 true willing) ::
    (subscribeRun ++ publishRun 10 0).map .delivery ++ callbackRun 0 5 ++
    .recorder (.generateSnapshot ["snapshots", "first"] allSucceed) ::
    (publishRun 11 1).map .delivery ++ callbackRun 1 3660

def publishedState : State rawCodec := (system civilTexts intRecorded).after startState publishedRun

theorem published_messages_read_back_publishedState :
    let recorder := publishedState.recorder.run.recorder
    let fs := clearFiles recorder.fs recorder.files
    (listLevelDBDirs fs ["records", "host"] intChannel).length = 2 ∧
      ∃ records, readFiles (fun _ => willing) fs
          (listLevelDBDirs fs ["records", "host"] intChannel) = some records ∧
        records.map Prod.snd = [[10], [11]] ∧ publishedState.delivery.published 1 = [10, 11] := by
  have hfind : (publishedState.recorder.run.recorder.files.find? fun g =>
      g.1 = intChannel).isSome = true := by
    decide +kernel
  obtain ⟨g, hfind⟩ := Option.isSome_iff_exists.mp hfind
  have hc : g.1 = intChannel := by simpa using List.find?_some hfind
  have hg : (intRecorded.channel, g.2) ∈ publishedState.recorder.run.recorder.files := by
    have hmem := List.mem_of_find?_eq_some hfind
    rwa [← Prod.eta g, hc] at hmem
  have hinit : (system civilTexts intRecorded).init startState :=
    ⟨rfl, ⟨start_newState, rfl, Int.le_refl 0, rfl⟩, rfl, rfl⟩
  obtain ⟨⟨records, hread, htexts⟩, -⟩ := published_messages_read_back (fun _ => willing) hinit
    (by decide) (by decide +kernel)
    ((system civilTexts intRecorded).exec_after (by decide +kernel) : _ = some publishedState) hg
    fun _ => by decide
  refine ⟨by decide +kernel, records, hread, htexts.trans ?_, by decide +kernel⟩
  decide +kernel

end Sample

end CrisCore.PublishedReadBack
