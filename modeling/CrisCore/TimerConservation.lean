import CrisCore.TimerSteps

/-! Where the accepted samples are: in the total, in the collectors of threads, collected on the way
to the total or to a report, or in a report that a clearing call has handed out. -/
namespace CrisCore.Timer

namespace Deleter

def copies : Deleter → List Entries
  | .collected copy => [copy]
  | .notRunning | .merged => []

end Deleter

/-- The walk of a clearing report, before it has begun. -/
def Then.walks : Then → List ReportWalk
  | .report true walk => [walk]
  | _ => []

/-- The walk of a clearing report. -/
def Phase.walks : Phase → List ReportWalk
  | .flush next | .flushing next _ _ => next.walks
  | .reporting true walk => [walk]
  | _ => []

/-- What a call has collected with `clear`. -/
def Phase.copies : Phase → List Entries
  | .flush next => next.walks.map (·.collected)
  | .flushing next _ collected => collected.toList ++ next.walks.map (·.collected)
  | .getMainSection true collected => [collected]
  | .reporting true walk => [walk.collected]
  | _ => []

def Collector.held (c : Collector) : Entries := c.entries + c.deleter.copies.sum

def Phase.held (phase : Phase) : Entries := phase.copies.sum

theorem Phase.held_eq_zero {phase : Phase} {walk : ReportWalk} {i : Fin kCollectorSize}
    (hw : walk ∈ phase.walks) (h : phase.held i = 0) : walk.collected i = 0 := by
  have hmem : walk.collected ∈ phase.copies := by
    have hnext {next : Then} (hw : walk ∈ next.walks) :
        walk.collected ∈ next.walks.map (·.collected) := List.mem_map_of_mem hw
    unfold walks at hw
    split at hw
    · exact hnext hw
    · exact List.mem_append_right _ (hnext hw)
    · rw [List.mem_singleton.mp hw]
      exact List.mem_singleton_self _
    · cases hw
  have hsum : (phase.copies.map fun e => e i).sum = 0 := by
    rw [← h, held, Pi.list_sum_apply]
  exact ListSums.eq_zero_of_sum_map_eq_zero (fun e : Entries => e i)
    CollectorEntry.eq_zero_of_add_eq_zero hsum hmem

def Sample.entries (x : Sample) : Entries := .sample x.index x.duration

namespace State

/-- All the statistics there are of a state. -/
def held (s : State) : Entries :=
  s.total + (s.collectors.map Collector.held).sum + (s.calls.map Phase.held).sum +
    (s.handedOut.map (·.collected)).sum

end State

/-- The deleter leaves nothing behind in the collector, and the samples that were accepted are what
there is. -/
structure Accounted (s : State) : Prop where
  exiting : ∀ c ∈ s.collectors, c.deleter ≠ .notRunning → c.entries = 0
  conserved : s.held = (s.accepted.map Sample.entries).sum

theorem initial_accounted : Accounted initial where
  exiting _ hc := nomatch hc
  conserved := rfl

section Steps
variable {s s' : State} {k : ℕ}

/-- A collector is left with nothing once its deleter runs. -/
theorem Accounted.exiting_set {c' : Collector} (h : Accounted s)
    (hc' : c'.deleter ≠ .notRunning → c'.entries = 0) :
    ∀ c ∈ s.collectors.set k c', c.deleter ≠ .notRunning → c.entries = 0 := by
  intro c hc hrun
  rcases List.mem_or_eq_of_mem_set hc with hc | rfl
  · exact h.exiting c hc hrun
  · exact hc' hrun

/-- A call begins with nothing. -/
theorem Accounted.newCall {r : Sections} {next : Then} (h : Accounted s) (hnone : next.walks = []) :
    Accounted { s with sections := r, calls := s.calls ++ [.flush next] } := by
  refine ⟨h.exiting, Eq.trans ?_ h.conserved⟩
  simp only [State.held, ListSums.sum_map_concat, Phase.held, Phase.copies, hnone, List.map_nil,
    List.sum_nil, add_zero]

/-- A call goes on with what it has collected. -/
theorem Accounted.setCall {phase phase' : Phase} (h : Accounted s) (hk : s.calls[k]? = some phase)
    (hcalls : s'.calls = s.calls.set k phase') (htotal : s'.total = s.total)
    (hcollectors : s'.collectors = s.collectors) (haccepted : s'.accepted = s.accepted)
    (hout : s'.handedOut = s.handedOut) (hheld : phase'.held = phase.held) : Accounted s' := by
  constructor
  · rw [hcollectors]
    exact h.exiting
  · rw [haccepted, ← h.conserved]
    simp only [State.held, hcalls, htotal, hcollectors, hout, ListSums.sum_map_set _ hk,
      ← ListSums.sum_map_eraseIdx _ hk, hheld]

/-- A call that has nothing left ends. -/
theorem Accounted.endCall {phase : Phase} (h : Accounted s) (hk : s.calls[k]? = some phase)
    (hcalls : s'.calls = s.calls.eraseIdx k) (htotal : s'.total = s.total)
    (hcollectors : s'.collectors = s.collectors) (haccepted : s'.accepted = s.accepted)
    (hout : s'.handedOut = s.handedOut) (hzero : phase.held = 0) : Accounted s' := by
  constructor
  · rw [hcollectors]
    exact h.exiting
  · rw [haccepted, ← h.conserved]
    simp only [State.held, hcalls, htotal, hcollectors, hout, ← ListSums.sum_map_eraseIdx _ hk,
      hzero, add_zero]

/-- What a step takes out of one place it puts into another one. -/
theorem accounted_step {a : Action} (h : Accounted s) (hs : Step s a s') : Accounted s' := by
  have hold := h.conserved
  cases hs with
  | newCollector =>
    constructor
    · intro c hc hrun
      rcases List.mem_append.mp hc with hc | hc
      · exact h.exiting c hc hrun
      · rw [List.mem_singleton.mp hc]
    · rw [← hold]
      simp only [State.held, ListSums.sum_map_concat, Collector.held, Deleter.copies, List.sum_nil,
        add_zero]
  | skipped => exact h
  | reported hk hindex hin he =>
    refine ⟨h.exiting_set fun hrun => absurd rfl hrun, ?_⟩
    rw [ListSums.sum_map_concat, ← hold]
    simp only [State.held, ListSums.sum_map_set _ hk, ← ListSums.sum_map_eraseIdx _ hk,
      Collector.held, Deleter.copies, List.sum_nil, he, Sample.entries]
    abel
  | exitCollect hk =>
    refine ⟨h.exiting_set fun _ => rfl, ?_⟩
    rw [← hold]
    simp only [State.held, ListSums.sum_map_set _ hk, ← ListSums.sum_map_eraseIdx _ hk,
      Collector.held, Deleter.copies, List.sum_nil, List.sum_singleton, Entries.cleared]
    abel
  | @exitMerge k entries copy hk =>
    have hempty : entries = 0 := h.exiting _ (List.mem_of_getElem? hk) (fun hrun => nomatch hrun)
    refine ⟨h.exiting_set fun _ => hempty, ?_⟩
    rw [← hold]
    simp only [State.held, ListSums.sum_map_set _ hk, ← ListSums.sum_map_eraseIdx _ hk,
      Collector.held, Deleter.copies, List.sum_nil, List.sum_singleton, Entries.merge_eq_add]
    abel
  | @exitErase k entries hfree hk =>
    -- nothing goes with the collector that is erased
    have hempty : entries = 0 := h.exiting _ (List.mem_of_getElem? hk) (fun hrun => nomatch hrun)
    refine ⟨fun c hc => h.exiting c (List.mem_of_mem_eraseIdx hc), ?_⟩
    rw [← hold]
    simp only [State.held, ← ListSums.sum_map_eraseIdx _ hk, Collector.held, Deleter.copies,
      List.sum_nil, hempty, add_zero]
  | getMainSection | flushCollectedStats | request => exact h.newCall rfl
  | subSection | fetchAdd | emplace => exact ⟨h.exiting, hold⟩
  | flushBegin hfree hk => exact h.setCall hk rfl rfl rfl rfl rfl rfl
  | flushCollect hk hpos =>
    constructor
    · intro c hc hrun
      rcases List.mem_or_eq_of_mem_set hc with hc | rfl
      · exact h.exiting c hc hrun
      · rfl
    · rw [← hold]
      -- the entries of the collector are with the call now
      simp only [State.held, ListSums.sum_map_set _ hk, ← ListSums.sum_map_eraseIdx _ hk,
        ListSums.sum_map_set _ hpos, ← ListSums.sum_map_eraseIdx _ hpos, Phase.held,
        Phase.copies, Collector.held, Option.toList_none, Option.toList_some, List.nil_append,
        List.sum_append, List.sum_singleton, Entries.cleared]
      abel
  | flushMerge hk =>
    refine ⟨h.exiting, ?_⟩
    rw [← hold]
    -- the copy goes from the call into the total
    simp only [State.held, ListSums.sum_map_set _ hk, ← ListSums.sum_map_eraseIdx _ hk, Phase.held,
      Phase.copies, Option.toList_none, Option.toList_some, List.nil_append, List.sum_append,
      List.sum_singleton, Entries.merge_eq_add]
    abel
  | flushDone hk => exact h.endCall hk rfl rfl rfl rfl rfl rfl
  | flushEnd hk hend hphase =>
    refine h.setCall hk rfl rfl rfl rfl rfl ?_
    rcases hphase with ⟨request, rfl, rfl⟩ | ⟨clear, walk, rfl, rfl⟩
    · rfl
    · cases clear <;> rfl
  | collectReport hk => exact h.setCall hk rfl rfl rfl rfl rfl rfl
  | @collectAll k clear hk =>
    cases clear
    · exact h.setCall hk rfl rfl rfl rfl rfl rfl
    · refine ⟨h.exiting, ?_⟩
      rw [← hold]
      -- the total goes to the call
      simp only [State.held, ListSums.sum_map_set _ hk, ← ListSums.sum_map_eraseIdx _ hk,
        Phase.held, Phase.copies, if_true, Entries.cleared, List.sum_nil, List.sum_singleton]
      abel
  | @mainSection k clear collected hk =>
    refine h.setCall hk rfl rfl rfl rfl rfl ?_
    cases clear <;> rfl
  | @visit k clear walk walk' hk hv =>
    refine h.setCall hk rfl rfl rfl rfl rfl ?_
    cases clear
    · rfl
    · simp only [Phase.held, Phase.copies, ReportWalk.visit_collected hv]
  | @finish k clear walk hk hdone =>
    cases clear
    · exact h.endCall hk rfl rfl rfl rfl rfl rfl
    · refine ⟨h.exiting, ?_⟩
      rw [← hold]
      -- the copy goes from the call to the reports that were handed out
      simp only [State.held, ← ListSums.sum_map_eraseIdx _ hk, Phase.held, Phase.copies,
        List.sum_singleton, if_true, ListSums.sum_map_concat]
      abel

end Steps

end CrisCore.Timer
