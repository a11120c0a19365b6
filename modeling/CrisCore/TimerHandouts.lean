import CrisCore.TimerConservation

/-! What the clearing reports hand out is what they have collected, and with it the statistics of
every section add up to its accepted samples. -/
namespace CrisCore.Timer

/-- The accepted samples are what there is, at indexes that there are; until the counter of the
indexes wraps, every section has an index of its own. -/
structure Sound (s : State) : Prop where
  accounted : Accounted s
  shape : s.sections.Shape
  sections : s.sections.NoWrap → s.sections.Inv
  sampled : ∀ x ∈ s.accepted, s.HasIndex x.index

/-- Every report that was handed out has the data of the copy it was made from, and no walk that is
going on will miss any of it. -/
structure Inv (s : State) : Prop where
  walks : ∀ phase ∈ s.calls, ∀ walk ∈ phase.walks, walk.Inv s.sections
  complete : ∀ walk ∈ s.handedOut, ∀ i : Fin kCollectorSize, i.val ≠ kEmptyCollectorIndex →
    ReportWalk.entryAt walk.report i = walk.collected i
  noneEmpty : ∀ walk ∈ s.handedOut, ∀ n ∈ walk.report,
    n.timerSection.collectorIndex ≠ kEmptyCollectorIndex

theorem initial_sound : Sound initial where
  accounted := initial_accounted
  shape := Sections.initial_shape
  sections _ := Sections.initial_inv
  sampled _ hx := nomatch hx

theorem initial_inv : Inv initial where
  walks _ hp := nomatch hp
  complete _ hw := nomatch hw
  noneEmpty _ hw := nomatch hw

/-- Nothing was accepted at an index that no section has, and so no call has collected any data
there. -/
theorem held_eq_zero {s : State} (h : Sound s) {i : Fin kCollectorSize} (hi : ¬ s.HasIndex i.val)
    {phase : Phase} (hp : phase ∈ s.calls) : phase.held i = 0 := by
  have hzero : (s.accepted.map Sample.entries).sum i = 0 := by
    rw [Pi.list_sum_apply, List.map_map]
    apply List.sum_eq_zero
    intro e he
    obtain ⟨x, hx, rfl⟩ := List.mem_map.mp he
    have hne : i.val ≠ x.index := fun heq => hi (heq ▸ h.sampled x hx)
    exact if_neg hne
  have hcalls : ((s.calls.map Phase.held).sum) i = 0 := by
    rw [← h.accounted.conserved] at hzero
    have hsplit : ((s.calls.map Phase.held).sum) i + (s.total i +
        (s.collectors.map Collector.held).sum i + (s.handedOut.map (·.collected)).sum i) = 0 := by
      rw [← hzero]
      simp only [State.held, Pi.add_apply]
      abel
    exact CollectorEntry.eq_zero_of_add_eq_zero _ _ hsplit
  rw [Pi.list_sum_apply, List.map_map] at hcalls
  exact ListSums.eq_zero_of_sum_map_eq_zero (fun p : Phase => p.held i)
    CollectorEntry.eq_zero_of_add_eq_zero hcalls hp

section Steps
variable {s s' : State} {k : ℕ}

theorem hasIndex_step {a : Action} (hs : Step s a s') {index : ℕ} (h : s.HasIndex index) :
    s'.HasIndex index :=
  h.imp_right (List.map_subset _ (sections_step hs).kept ·)

theorem sampled_step {a : Action} (h : Sound s) (hs : Step s a s') :
    ∀ x ∈ s'.accepted, s'.HasIndex x.index := by
  have hold (x : Sample) (hx : x ∈ s.accepted) : s'.HasIndex x.index :=
    hasIndex_step hs (h.sampled x hx)
  cases hs with
  | reported hk hindex hin he =>
    intro x hx
    rcases List.mem_append.mp hx with hx | hx
    · exact hold x hx
    · rw [List.mem_singleton.mp hx]
      exact hindex
  | newCollector | skipped | exitCollect | exitMerge | exitErase | getMainSection | subSection
  | fetchAdd | emplace | flushCollectedStats | request | flushBegin | flushCollect | flushMerge
  | flushDone | flushEnd | collectReport | collectAll | mainSection | visit | finish => exact hold

theorem sound_step {a : Action} (h : Sound s) (hs : Step s a s') : Sound s' where
  accounted := accounted_step h.accounted hs
  shape := (sections_step hs).shape h.shape
  sections hw := ((sections_step hs).inv (h.sections ((sections_step hs).noWrap hw)) hw).1
  sampled := sampled_step h hs

/-- A step that hands out no report, on the same sections. -/
theorem Inv.frame (h : Inv s) (hsections : s'.sections = s.sections)
    (hout : s'.handedOut = s.handedOut)
    (hcalls : ∀ phase ∈ s'.calls, phase ∈ s.calls ∨
      ∀ walk ∈ phase.walks, walk.Inv s.sections) : Inv s' where
  walks phase hp walk hw := by
    rw [hsections]
    rcases hcalls phase hp with hold | hnew
    · exact h.walks phase hold walk hw
    · exact hnew walk hw
  complete walk hw := h.complete walk (hout ▸ hw)
  noneEmpty walk hw := h.noneEmpty walk (hout ▸ hw)

theorem Inv.setSections {r : Sections} (h : Inv s) (hsound : Sound s) (hg : s.sections.Grows r) :
    Inv { s with sections := r } where
  walks phase hp walk hw := by
    refine (h.walks phase hp walk hw).grow hg fun x hx hnew i hi => ?_
    apply Phase.held_eq_zero hw
    refine held_eq_zero hsound (fun hindex => ?_) hp
    -- the index of a new section is neither the empty one nor that of another section
    obtain ⟨hpos, hfresh⟩ := (hg.fresh x hx).resolve_left hnew
    rcases hindex with hzero | hmem
    · rw [← hi, hzero] at hpos
      exact Nat.lt_irrefl _ hpos
    · obtain ⟨y, hy, heq⟩ := List.mem_map.mp hmem
      exact hfresh y hy (heq.trans hi)
  complete := h.complete
  noneEmpty := h.noneEmpty

theorem mem_set_or {phase phase' : Phase} (hp : phase ∈ s.calls.set k phase')
    (hwalks : ∀ walk ∈ phase'.walks, walk.Inv s.sections) :
    phase ∈ s.calls ∨ ∀ walk ∈ phase.walks, walk.Inv s.sections := by
  rcases List.mem_or_eq_of_mem_set hp with hold | rfl
  · exact .inl hold
  · exact .inr hwalks

/-- A clearing report returns: its walk has read every section with data. -/
theorem inv_finish {walk : ReportWalk} (h : Inv s) (hsound : Sound s) (hr : s.sections.Inv)
    (hk : s.calls[k]? = some (.reporting true walk)) (hdone : walk.toVisit = []) :
    Inv { s with
      calls := s.calls.eraseIdx k
      handedOut := s.handedOut ++ [walk] } := by
  have hp : Phase.reporting true walk ∈ s.calls := List.mem_of_getElem? hk
  have hwalk : walk.Inv s.sections := h.walks _ hp walk (List.mem_singleton_self _)
  refine ⟨fun phase hp => h.walks phase (List.mem_of_mem_eraseIdx hp), ?_, ?_⟩
  · intro w hw i hi
    rcases List.mem_append.mp hw with hw | hw
    · exact h.complete w hw i hi
    · rw [List.mem_singleton.mp hw]
      refine hwalk.entryAt_eq hr hdone i fun hdata => ?_
      -- data at an index comes from samples, and those from a section
      by_contra hnone
      refine hdata (Phase.held_eq_zero (List.mem_singleton_self _)
        (held_eq_zero hsound (fun hindex => ?_) hp))
      rcases hindex with hzero | hmem
      · exact hi hzero
      · obtain ⟨y, hy, heq⟩ := List.mem_map.mp hmem
        exact hnone ⟨y, hy, heq⟩
  · intro w hw n hn
    rcases List.mem_append.mp hw with hw | hw
    · exact h.noneEmpty w hw n hn
    · rw [List.mem_singleton.mp hw] at hn
      have htree : n.timerSection ∈ s.sections.tree :=
        hwalk.inTree _ (List.mem_append_left _ (List.mem_map_of_mem hn))
      exact Nat.ne_of_gt (hr.bound _ (List.mem_append_left _ htree)).1

theorem inv_step {a : Action} (h : Inv s) (hsound : Sound s) (hstep : Step s a s')
    (hw : s'.sections.NoWrap) : Inv s' := by
  have hr := hsound.sections ((sections_step hstep).noWrap hw)
  obtain ⟨hr', hg⟩ := (sections_step hstep).inv hr hw
  have hold (phase : Phase) (hp : phase ∈ s.calls) :
      phase ∈ s.calls ∨ ∀ walk ∈ phase.walks, walk.Inv s.sections := .inl hp
  have hnew {next : Then} (hnone : next.walks = []) {r : Sections} (phase : Phase)
      (hp : phase ∈ s.calls ++ [.flush next]) :
      phase ∈ s.calls ∨ ∀ walk ∈ phase.walks, walk.Inv r := by
    rcases List.mem_append.mp hp with hp | hp
    · exact .inl hp
    · rw [List.mem_singleton.mp hp]
      change _ ∨ ∀ walk ∈ next.walks, _
      rw [hnone]
      exact .inr fun walk hw => nomatch hw
  have hwalks {k : ℕ} {phase : Phase} (hk : s.calls[k]? = some phase) :
      ∀ walk ∈ phase.walks, walk.Inv s.sections := h.walks phase (List.mem_of_getElem? hk)
  -- a call goes on with its walk, if it has one
  have hsame {k : ℕ} {phase phase' : Phase} (hk : s.calls[k]? = some phase)
      (heq : phase'.walks = phase.walks) (p : Phase) (hp : p ∈ s.calls.set k phase') :
      p ∈ s.calls ∨ ∀ walk ∈ p.walks, walk.Inv s.sections := by
    apply mem_set_or hp
    rw [heq]
    exact hwalks hk
  cases hstep with
  | newCollector | exitCollect | exitMerge | exitErase | reported => exact h.frame rfl rfl hold
  | skipped => exact h
  | getMainSection => exact (h.setSections hsound hg).frame rfl rfl (hnew rfl)
  | subSection | fetchAdd | emplace => exact h.setSections hsound hg
  | flushCollectedStats | request => exact h.frame rfl rfl (hnew rfl)
  | flushBegin hfree hk => exact h.frame rfl rfl (hsame hk rfl)
  | flushCollect hk | flushMerge hk => exact h.frame rfl rfl (hsame hk rfl)
  | flushDone hk => exact h.frame rfl rfl fun phase hp => .inl (List.mem_of_mem_eraseIdx hp)
  | flushEnd hk hend hphase =>
    refine h.frame rfl rfl (hsame hk ?_)
    rcases hphase with ⟨request, rfl, rfl⟩ | ⟨clear, walk, rfl, rfl⟩
    · rfl
    · cases clear <;> rfl
  | collectReport hk | collectAll hk =>
    refine h.frame rfl rfl fun phase hp => mem_set_or hp ?_
    exact fun walk hw => nomatch hw
  | @mainSection k clear collected hk =>
    -- the main section may be new, and the walk is going to begin there
    obtain ⟨-, hmem, hpath⟩ := Sections.getMainSection_shape hsound.shape
    refine (h.setSections hsound hg).frame rfl rfl fun phase hp => mem_set_or hp ?_
    intro walk hw
    cases clear
    · cases hw
    · rw [List.mem_singleton.mp hw]
      exact ReportWalk.start_inv hr' collected hmem hpath
  | @visit k clear walk walk' hk hv =>
    refine h.frame rfl rfl fun phase hp => mem_set_or hp ?_
    intro w hw
    cases clear
    · cases hw
    · rw [List.mem_singleton.mp hw]
      exact (hwalks hk walk (List.mem_singleton_self _)).visit hr hv
  | @finish k clear walk hk hdone =>
    cases clear
    · exact h.frame rfl rfl fun phase hp => .inl (List.mem_of_mem_eraseIdx hp)
    · exact inv_finish h hsound hr hk hdone

end Steps

theorem reachable_sound {s : State} (h : system.Reachable s) : Sound s :=
  h.invariant (fun s hs => by
    cases hs
    exact initial_sound) fun _ _ _ h hs => sound_step h (step_of_next hs)

theorem reachable_inv {s : State} (h : system.Reachable s) (hw : s.sections.NoWrap) : Inv s := by
  refine h.invariant_of_reachable (P := fun s => s.sections.NoWrap → Inv s) ?_ ?_ hw
  · intro s hs _
    cases hs
    exact initial_inv
  · intro s a s' hreach hinv hs hw
    have hstep := step_of_next hs
    exact inv_step (hinv ((sections_step hstep).noWrap hw)) (reachable_sound hreach) hstep hw

namespace State

/-- The durations of the samples that were accepted at an index. -/
def durationsAt (s : State) (i : Fin kCollectorSize) : List ℕ :=
  (s.accepted.filter fun x => x.index = i.val).map (·.duration)

/-- What has been collected and is neither merged nor in a report yet. -/
def collected (s : State) : List Entries :=
  s.collectors.flatMap (fun c => c.deleter.copies) ++ s.calls.flatMap Phase.copies

/-- The nodes of a section in the reports that clearing calls have handed out. -/
def handedOutAt (s : State) (i : Fin kCollectorSize) : List CollectorEntry :=
  s.handedOut.flatMap fun walk => (walk.report.filter fun n =>
    n.timerSection.collectorIndex = i.val).map (·.entry)

/-- Where the statistics of an index are. -/
def parts (s : State) (i : Fin kCollectorSize) : List CollectorEntry :=
  s.total i :: s.collectors.map (fun c => c.entries i) ++ s.collected.map (fun e => e i) ++
    s.handedOutAt i

/-- What clearing reports have taken out of the total at an index. -/
def cleared (s : State) (i : Fin kCollectorSize) : List CollectorEntry :=
  s.handedOut.map fun walk => walk.collected i

/-- The entries account for the samples accepted at an index: in every bucket the hits and the sums
of durations, and the maximum. -/
def Accounts (s : State) (i : Fin kCollectorSize) (entries : List CollectorEntry) : Prop :=
  (∀ b : Bucket,
    (entries.map fun e => (e.durationBuckets b).hits).sum =
      ((s.durationsAt i).filter fun d : ℕ => bucketIdx d = b).length ∧
    (entries.map fun e => (e.durationBuckets b).totalDurationNs).sum =
      ((s.durationsAt i).filter fun d : ℕ => bucketIdx d = b).sum) ∧
  (entries.map (·.maxDurationNs)).foldr max 0 = (s.durationsAt i).foldr max 0

end State

theorem sum_flatMap {ι M : Type*} [AddCommMonoid M] (l : List ι) (f : ι → List M) :
    (l.flatMap f).sum = (l.map fun x => (f x).sum).sum := by
  rw [List.flatMap_def, List.sum_flatten, List.map_map]
  rfl

theorem entryAt_eq_sum_filter (report : List ReportNode) (index : ℕ) :
    ReportWalk.entryAt report index =
      ((report.filter fun n => n.timerSection.collectorIndex = index).map (·.entry)).sum := by
  rw [ReportWalk.entryAt, List.sum_map_ite]
  simp

/-- The parts of an index add up to what is held there, with what the reports have of it instead of
what was collected for them. -/
theorem parts_sum (s : State) (i : Fin kCollectorSize) :
    (s.parts i).sum = s.total i + (s.collectors.map Collector.held).sum i +
      (s.calls.map Phase.held).sum i +
      (s.handedOut.map fun walk => ReportWalk.entryAt walk.report i).sum := by
  have hcollectors : (s.collectors.map Collector.held).sum i =
      (s.collectors.map fun c => c.entries i).sum +
        (s.collectors.flatMap fun c => c.deleter.copies).sum i := by
    rw [sum_flatMap, Pi.list_sum_apply, Pi.list_sum_apply, List.map_map, List.map_map,
      ← List.sum_map_add]
    rfl
  have hcalls : (s.calls.map Phase.held).sum i = (s.calls.flatMap Phase.copies).sum i := by
    rw [sum_flatMap]
    rfl
  have hout : (s.handedOutAt i).sum =
      (s.handedOut.map fun walk => ReportWalk.entryAt walk.report i).sum := by
    simp only [entryAt_eq_sum_filter]
    exact sum_flatMap ..
  rw [State.parts, List.sum_append, List.sum_append, List.sum_cons, hout, hcollectors, hcalls,
    State.collected, ← Pi.list_sum_apply, List.sum_append, Pi.add_apply]
  abel

/-- What samples add up to at an index. -/
theorem sum_entries_at (samples : List Sample) (i : Fin kCollectorSize) :
    (samples.map Sample.entries).sum i =
      (((samples.filter fun x => x.index = i.val).map (·.duration)).map
        CollectorEntry.single).sum := by
  have hite := List.sum_map_ite (fun x : Sample => x.index = i.val)
    (fun x => CollectorEntry.single x.duration) (fun _ => 0) samples
  rw [List.map_const', List.sum_replicate, nsmul_zero, add_zero] at hite
  rw [Pi.list_sum_apply, List.map_map, List.map_map]
  refine Eq.trans ?_ hite
  congr 1
  exact List.map_congr_left fun x _ => by
    simp only [Function.comp_apply, Sample.entries, Entries.sample, eq_comm]

/-- Entries that add up to what is held at an index account for its samples. -/
theorem accounts_of_sum {s : State} (h : Accounted s) {i : Fin kCollectorSize}
    {entries : List CollectorEntry} (hsum : entries.sum = s.held i) : s.Accounts i entries := by
  have hsamples : s.held i = ((s.durationsAt i).map CollectorEntry.single).sum := by
    rw [h.conserved]
    exact sum_entries_at s.accepted i
  refine ⟨fun b => ?_, ?_⟩
  · have hbucket := CollectorEntry.sum_single_bucket (s.durationsAt i) b
    rw [← hsamples, ← hsum] at hbucket
    rw [← CollectorEntry.hits_sum, ← CollectorEntry.totalDurationNs_sum, hbucket]
    exact ⟨rfl, rfl⟩
  · rw [← CollectorEntry.maxDurationNs_sum, hsum, hsamples]
    exact CollectorEntry.sum_single_maxDurationNs _

theorem held_eq_cleared (s : State) (i : Fin kCollectorSize) : s.held i = s.total i +
    (s.collectors.map Collector.held).sum i + (s.calls.map Phase.held).sum i +
    (s.cleared i).sum := by
  have hcleared : (s.handedOut.map (·.collected)).sum i = (s.cleared i).sum := by
    rw [Pi.list_sum_apply, List.map_map]
    rfl
  rw [← hcleared]
  rfl

theorem accounts_parts {s : State} (h : Inv s) (hsound : Sound s) {i : Fin kCollectorSize}
    (hne : i.val ≠ kEmptyCollectorIndex) : s.Accounts i (s.parts i) := by
  apply accounts_of_sum hsound.accounted
  have hsame : s.cleared i = s.handedOut.map fun walk => ReportWalk.entryAt walk.report i :=
    List.map_congr_left fun walk hw => (h.complete walk hw i hne).symm
  rw [parts_sum, held_eq_cleared, hsame]

/-- In every state up to a wrap of the index counter, the statistics of every section, wherever they
are, account for the accepted samples. At the empty index, which has no section, what clearing reports
collect is in no report. -/
theorem statistics_conserved {s : State} (h : system.Reachable s) (hw : s.sections.NoWrap) :
    (∀ i : Fin kCollectorSize, i.val ≠ kEmptyCollectorIndex → s.Accounts i (s.parts i)) ∧
    ∀ i : Fin kCollectorSize, i.val = kEmptyCollectorIndex →
      s.Accounts i (s.parts i ++ s.cleared i) := by
  have hi := reachable_inv h hw
  have hsound := reachable_sound h
  refine ⟨fun i hne => accounts_parts hi hsound hne,
    fun i hempty => accounts_of_sum hsound.accounted ?_⟩
  have hnone : (s.handedOut.map fun walk => ReportWalk.entryAt walk.report i).sum = 0 := by
    apply List.sum_eq_zero
    intro e he
    obtain ⟨walk, hw, rfl⟩ := List.mem_map.mp he
    apply List.sum_eq_zero
    intro e he
    obtain ⟨n, hn, rfl⟩ := List.mem_map.mp he
    exact if_neg (hempty ▸ hi.noneEmpty walk hw n hn)
  rw [List.sum_append, parts_sum, held_eq_cleared, hnone, add_zero]

/-- Two threads report to the main section. The collector of the first is collected as it exits and
merged while a clearing report flushes the list; a sample comes after the total was collected. -/
def sharedRun : List Action :=
  [.getMainSection, .step 0, .step 0, .getCollector, .getCollector, .report 0 1 5 true,
    .report 1 1 20000 true, .exit 0, .request (.getAllReports true), .step 0, .step 0, .exit 0,
    .step 0, .step 0, .step 0, .step 0, .step 0, .report 1 1 7 true, .step 0, .step 0, .step 0,
    .step 0, .step 0, .step 0, .step 0, .step 0, .step 0, .exit 0]

def mainIndex : Fin kCollectorSize := ⟨1, by decide⟩

theorem statistics_conserved_sharedRun :
    (system.after initial sharedRun).durationsAt mainIndex = [5, 20000, 7] ∧
    ((system.after initial sharedRun).handedOutAt mainIndex).map (·.maxDurationNs) = [20000] ∧
    (system.after initial sharedRun).Accounts mainIndex
      ((system.after initial sharedRun).parts mainIndex) :=
  ⟨by decide, by decide,
    (statistics_conserved (.after init_initial sharedRun) (by decide)).1 mainIndex (by decide)⟩

def emptyIndex : Fin kCollectorSize := ⟨kEmptyCollectorIndex, by decide⟩

/-- A sample at the empty index that a clearing report collects. -/
def clearedRun : List Action :=
  [.getCollector, .report 0 kEmptyCollectorIndex 5 true, .request (.getAllReports true)] ++
    List.replicate 12 (.step 0)

theorem empty_index_statistics_lost :
    ¬ ∀ s, system.Reachable s → ∀ i : Fin kCollectorSize, s.Accounts i (s.parts i) := by
  intro h
  have hmax := (h _ (.after init_initial clearedRun) emptyIndex).2
  exact absurd hmax (by decide)

end CrisCore.Timer
