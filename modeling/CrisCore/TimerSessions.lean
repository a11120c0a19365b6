import CrisCore.TimerCapacity
import Mathlib.Algebra.Order.Group.Multiset

/-! The sessions of the sections. One thread at a time has a `TimerSession` object, which may be moved
from, ended and destroyed, while other threads do the same with theirs and the collectors go on. -/
namespace CrisCore.TimerSessions
open Timer (Sample kCollectorSize kEmptyCollectorIndex)

/-- `number` is history: which session it is, however often it was moved. -/
structure TimerSession where
  isEnded : Bool
  startedTimestamp : ℤ
  collectorIndex : ℕ
  number : ℕ
  deriving DecidableEq

/-- What `EndSession` has for the collector of its thread once it has read the clock. -/
structure Report where
  number : ℕ
  startedTimestamp : ℤ
  collectorIndex : ℕ
  now : ℤ
  deriving DecidableEq

namespace Report

def duration (r : Report) : ℤ := r.now - r.startedTimestamp

def sample (r : Report) : Sample := ⟨r.collectorIndex, r.duration.toNat⟩

end Report

/-- History: what a session was constructed with. -/
structure Started where
  timestamp : ℤ
  collectorIndex : ℕ
  deriving DecidableEq

/-- `reported` and `direct` are history: the reports of the sessions, each with whether its `try_lock`
had the mutex, and the samples that came from `ReportDuration`. -/
structure State where
  timer : Timer.State
  sessions : List TimerSession
  reporting : List Report
  started : List Started
  reported : List (Report × Bool)
  direct : List Sample

def initial : State where
  timer := Timer.initial
  sessions := []
  reporting := []
  started := []
  reported := []
  direct := []

/-- `report` names the collector of the thread that ended the session. A time is what
`GetSystemTimestampNsec` returns there. -/
inductive Action
  | timer (a : Timer.Action)
  | startTimerSession (collectorIndex : ℕ) (now : ℤ)
  | defaultSession
  | moveSession (k : ℕ)
  | endSession (k : ℕ) (now : ℤ)
  | destroy (k : ℕ) (now : ℤ)
  | report (p k : ℕ) (tryLock : Bool)

namespace State
variable (s : State)

def construct (startedTimestamp : ℤ) (collectorIndex : ℕ) : State :=
  { s with
    sessions := s.sessions ++ [⟨false, startedTimestamp, collectorIndex, s.started.length⟩]
    started := s.started ++ [⟨startedTimestamp, collectorIndex⟩] }

/-- `TimerSession(TimerSession&&)`: the session that is moved from has ended. -/
def moveSession (k : ℕ) : Option State :=
  s.sessions[k]?.map fun session => { s with
    sessions := s.sessions.set k { session with isEnded := true } ++ [session] }

def endSession (k : ℕ) (now : ℤ) : Option State :=
  s.sessions[k]?.map fun session =>
    if session.isEnded then s
    else { s with
      sessions := s.sessions.set k { session with isEnded := true }
      reporting := s.reporting ++
        [⟨session.number, session.startedTimestamp, session.collectorIndex, now⟩] }

/-- `~TimerSession` -/
def destroy (k : ℕ) (now : ℤ) : Option State :=
  (s.endSession k now).map fun t => { t with sessions := t.sessions.eraseIdx k }

/-- A step of the collectors, of a report or of `ReportDuration`. -/
def timerStep (a : Timer.Action) : Option State :=
  (s.timer.next a).map fun timer => { s with
    timer := timer
    direct := s.direct ++ timer.accepted.drop s.timer.accepted.length }

/-- `Report`, at the end of `EndSession`. -/
def report (p k : ℕ) (tryLock : Bool) : Option State :=
  s.reporting[p]?.bind fun r =>
    (s.timer.next (.report k r.collectorIndex r.duration tryLock)).map fun timer => { s with
      timer := timer
      reporting := s.reporting.eraseIdx p
      reported := s.reported ++ [(r, tryLock)] }

def next : Action → Option State
  | .timer a => s.timerStep a
  | .startTimerSession collectorIndex now =>
    if s.timer.HasIndex collectorIndex then some (s.construct now collectorIndex) else none
  | .defaultSession => some (s.construct 0 0)
  | .moveSession k => s.moveSession k
  | .endSession k now => s.endSession k now
  | .destroy k now => s.destroy k now
  | .report p k tryLock => s.report p k tryLock

end State

def system : TransitionSystem State Action where
  init s := s = initial
  step := State.next

/-- The session that an object is still to report. -/
def TimerSession.toReport (session : TimerSession) : Multiset ℕ :=
  if session.isEnded then 0 else {session.number}

/-- The sessions that are still to be reported, are being reported, and have been reported. -/
def State.numbers (s : State) : Multiset ℕ :=
  (s.sessions.map TimerSession.toReport).sum + (s.reporting.map fun r => {r.number}).sum +
    (s.reported.map fun r => {r.1.number}).sum

/-- `Report` skips the sample of a session when it does not get the mutex and when the clock went
back. -/
def isKept (r : Report × Bool) : Bool := r.2 && decide (0 ≤ r.1.duration)

/-- The samples of the sessions that were not skipped. -/
def State.measured (s : State) : List Sample := (s.reported.filter isKept).map fun r => r.1.sample

/-- A report has the times and the section of its session. -/
def State.Measures (s : State) (r : Report) : Prop :=
  s.started[r.number]? = some ⟨r.startedTimestamp, r.collectorIndex⟩

structure Inv (s : State) : Prop where
  timer : Timer.system.Reachable s.timer
  numbers : s.numbers = Multiset.range s.started.length
  sessions : ∀ x ∈ s.sessions, s.started[x.number]? = some ⟨x.startedTimestamp, x.collectorIndex⟩
  reporting : ∀ r ∈ s.reporting, s.Measures r
  reported : ∀ r ∈ s.reported, s.Measures r.1
  indexes : ∀ x ∈ s.started, s.timer.HasIndex x.collectorIndex
  accepted : s.timer.accepted.Perm (s.measured ++ s.direct)

theorem inv_initial : Inv initial where
  timer := .init rfl
  numbers := rfl
  sessions _ hx := nomatch hx
  reporting _ hr := nomatch hr
  reported _ hr := nomatch hr
  indexes _ hx := nomatch hx
  accepted := .refl _

section Collectors
variable {s s' : Timer.State} {a : Timer.Action} {index : ℕ}

theorem accepted_next (hs : s.next a = some s') : s.accepted <+: s'.accepted := by
  cases Timer.step_of_next hs with
  | reported => exact List.prefix_append _ _
  | _ => exact List.prefix_rfl

/-- An index below the bound: only a lock that is not had and a duration below zero skip a sample. -/
theorem accepted_report {k : ℕ} {duration : ℤ} {tryLock : Bool} (hindex : index < kCollectorSize)
    (hs : s.next (.report k index duration tryLock) = some s') :
    s'.accepted = s.accepted ++
      if tryLock && decide (0 ≤ duration) then [⟨index, duration.toNat⟩] else [] := by
  cases Timer.step_of_next hs with
  | skipped hskip =>
    have hnot : (tryLock && decide (0 ≤ duration)) = false := by
      cases tryLock with
      | false => rfl
      | true =>
        have hneg : ¬ 0 ≤ duration := fun hpos => hskip rfl ⟨hpos, hindex⟩
        rw [Bool.true_and, decide_eq_false hneg]
    rw [hnot]
    exact (List.append_nil _).symm
  | reported hk hidx hin he =>
    rw [Bool.true_and, decide_eq_true hin.1]
    rfl

end Collectors

section Steps
variable {s s' : State} {k : ℕ}

theorem Inv.hasIndex (h : Inv s) {r : Report} (hr : r ∈ s.reporting) :
    s.timer.HasIndex r.collectorIndex :=
  h.indexes _ (List.mem_of_getElem? (h.reporting r hr))

theorem Inv.construct (h : Inv s) {collectorIndex : ℕ} (hindex : s.timer.HasIndex collectorIndex)
    (startedTimestamp : ℤ) : Inv (s.construct startedTimestamp collectorIndex) := by
  have hold {n : ℕ} {x : Started} (hx : s.started[n]? = some x) :
      (s.started ++ [⟨startedTimestamp, collectorIndex⟩])[n]? = some x := by
    rw [List.getElem?_append_left (List.getElem?_eq_some_iff.mp hx).1]
    exact hx
  refine ⟨h.timer, ?_, fun x hx => ?_, fun r hr => hold (h.reporting r hr),
    fun r hr => hold (h.reported r hr), fun x hx => ?_, h.accepted⟩
  · have hnumbers := h.numbers
    simp only [State.numbers, State.construct, ListSums.sum_map_concat, TimerSession.toReport,
      List.length_append, List.length_singleton, Multiset.range_succ, ← hnumbers] at *
    rw [if_neg Bool.false_ne_true, ← Multiset.singleton_add]
    abel
  · rcases List.mem_append.mp hx with hx | hx
    · exact hold (h.sessions x hx)
    · rw [List.mem_singleton.mp hx]
      exact List.getElem?_concat_length
  · rcases List.mem_append.mp hx with hx | hx
    · exact h.indexes x hx
    · rw [List.mem_singleton.mp hx]
      exact hindex

/-- The session goes on in the new object. -/
theorem Inv.moveSession (h : Inv s) (hs : s.moveSession k = some s') : Inv s' := by
  obtain ⟨session, hk, rfl⟩ := Option.map_eq_some_iff.mp hs
  have hmem := List.mem_of_getElem? hk
  refine ⟨h.timer, ?_, fun x hx => ?_, h.reporting, h.reported, h.indexes, h.accepted⟩
  · rw [← h.numbers]
    simp only [State.numbers, ListSums.sum_map_concat, ListSums.sum_map_set _ hk,
      ← ListSums.sum_map_eraseIdx _ hk, TimerSession.toReport, if_true, add_zero]
  · rcases List.mem_append.mp hx with hx | hx
    · rcases List.mem_or_eq_of_mem_set hx with hx | rfl
      · exact h.sessions x hx
      · exact h.sessions session hmem
    · rw [List.mem_singleton.mp hx]
      exact h.sessions session hmem

/-- The session leaves the object for its report. -/
theorem Inv.endSession {now : ℤ} (h : Inv s) (hs : s.endSession k now = some s') : Inv s' := by
  obtain ⟨session, hk, rfl⟩ := Option.map_eq_some_iff.mp hs
  have hmem := List.mem_of_getElem? hk
  split_ifs with hended
  · exact h
  · refine ⟨h.timer, ?_, fun x hx => ?_, fun r hr => ?_, h.reported, h.indexes, h.accepted⟩
    · rw [← h.numbers]
      simp only [State.numbers, ListSums.sum_map_concat, ListSums.sum_map_set _ hk,
        ← ListSums.sum_map_eraseIdx _ hk, TimerSession.toReport, if_true, if_neg hended, add_zero]
      abel
    · rcases List.mem_or_eq_of_mem_set hx with hx | rfl
      · exact h.sessions x hx
      · exact h.sessions session hmem
    · rcases List.mem_append.mp hr with hr | hr
      · exact h.reporting r hr
      · rw [List.mem_singleton.mp hr]
        exact h.sessions session hmem

theorem ended_of_endSession {now : ℤ} (hs : s.endSession k now = some s') :
    ∃ session, s'.sessions[k]? = some session ∧ session.isEnded = true := by
  obtain ⟨session, hk, rfl⟩ := Option.map_eq_some_iff.mp hs
  split_ifs with hended
  · exact ⟨session, hk, hended⟩
  · have hlt := (List.getElem?_eq_some_iff.mp hk).1
    exact ⟨_, List.getElem?_set_self hlt, rfl⟩

/-- An object that has ended takes no session with it. -/
theorem Inv.destroy {now : ℤ} (h : Inv s) (hs : s.destroy k now = some s') : Inv s' := by
  obtain ⟨t, ht, rfl⟩ := Option.map_eq_some_iff.mp hs
  have hinv := h.endSession ht
  obtain ⟨session, hk, hended⟩ := ended_of_endSession ht
  refine ⟨hinv.timer, ?_, fun x hx => hinv.sessions x (List.mem_of_mem_eraseIdx hx),
    hinv.reporting, hinv.reported, hinv.indexes, hinv.accepted⟩
  rw [← hinv.numbers]
  simp only [State.numbers, ← ListSums.sum_map_eraseIdx _ hk, TimerSession.toReport, if_pos hended,
    add_zero]

theorem Inv.timerStep {a : Timer.Action} (h : Inv s) (hs : s.timerStep a = some s') : Inv s' := by
  obtain ⟨timer, ht, rfl⟩ := Option.map_eq_some_iff.mp hs
  refine ⟨h.timer.step ht, h.numbers, h.sessions, h.reporting, h.reported,
    fun x hx => Timer.hasIndex_step (Timer.step_of_next ht) (h.indexes x hx), ?_⟩
  obtain ⟨new, hnew⟩ := accepted_next ht
  have hdrop : timer.accepted.drop s.timer.accepted.length = new := by
    rw [← hnew, List.drop_left]
  show timer.accepted.Perm (s.measured ++ (s.direct ++ timer.accepted.drop _))
  rw [hdrop, ← hnew, ← List.append_assoc]
  exact h.accepted.append_right new

/-- The report of a session is made, and its sample is there unless it is skipped. -/
theorem Inv.report {p : ℕ} {tryLock : Bool} (h : Inv s) (hs : s.report p k tryLock = some s') :
    Inv s' := by
  obtain ⟨r, hr, hs⟩ := Option.bind_eq_some_iff.mp hs
  obtain ⟨timer, ht, rfl⟩ := Option.map_eq_some_iff.mp hs
  have hmem := List.mem_of_getElem? hr
  have hlt := Timer.lt_kCollectorSize (Timer.reachable_sound h.timer).shape (h.hasIndex hmem)
  have hstep : Timer.system.step s.timer (.report k r.collectorIndex r.duration tryLock) =
      some timer := ht
  refine ⟨h.timer.step hstep, ?_, h.sessions,
    fun r' hr' => h.reporting r' (List.mem_of_mem_eraseIdx hr'), fun r' hr' => ?_,
    fun x hx => Timer.hasIndex_step (Timer.step_of_next ht) (h.indexes x hx), ?_⟩
  · rw [← h.numbers]
    simp only [State.numbers, ListSums.sum_map_concat, ← ListSums.sum_map_eraseIdx _ hr]
    abel
  · rcases List.mem_append.mp hr' with hr' | hr'
    · exact h.reported r' hr'
    · rw [List.mem_singleton.mp hr']
      exact h.reporting r hmem
  · have hnew := accepted_report hlt ht
    have hmeasured : ((s.reported ++ [(r, tryLock)]).filter isKept).map (fun r => r.1.sample) =
        s.measured ++ if tryLock && decide (0 ≤ r.duration) then [r.sample] else [] := by
      rw [List.filter_append, List.map_append, State.measured, List.filter_singleton]
      congr 1
      cases hkept : tryLock && decide (0 ≤ r.duration) <;> simp [isKept, hkept]
    show timer.accepted.Perm (((s.reported ++ [(r, tryLock)]).filter isKept).map _ ++ s.direct)
    rw [hnew, hmeasured, List.append_assoc]
    refine (h.accepted.append_right _).trans ?_
    rw [List.append_assoc]
    exact List.perm_append_comm.append_left _

theorem inv_step {a : Action} (h : Inv s) (hs : s.next a = some s') : Inv s' := by
  cases a with
  | timer a => exact h.timerStep hs
  | startTimerSession collectorIndex now =>
    obtain ⟨hindex, heq⟩ := Option.ite_none_right_eq_some.mp hs
    cases heq
    exact h.construct hindex now
  | defaultSession =>
    cases hs
    exact h.construct (.inl rfl) 0
  | moveSession k => exact h.moveSession hs
  | endSession k now => exact h.endSession hs
  | destroy k now => exact h.destroy hs
  | report p k tryLock => exact h.report hs

end Steps

theorem reachable_inv {s : State} (h : system.Reachable s) : Inv s :=
  h.invariant (fun s hs => by
    cases hs
    exact inv_initial) fun _ _ _ => inv_step

/-- The durations of samples at an index. -/
def durationsAt (samples : List Sample) (i : Fin kCollectorSize) : List ℕ :=
  (samples.filter fun x => x.index = i.val).map (·.duration)

theorem sum_map_singleton {ι : Type*} (f : ι → ℕ) (l : List ι) :
    (l.map fun x => ({f x} : Multiset ℕ)).sum = (l.map f : Multiset ℕ) := by
  have hsum := Multiset.sum_map_singleton (l.map f : Multiset ℕ)
  rw [Multiset.map_coe, Multiset.sum_coe, List.map_map] at hsum
  exact hsum

section Reachable
variable {s : State}

/-- With no object left and no report under way, all that was started has been reported. -/
theorem Inv.reported_perm (h : Inv s) (hsessions : s.sessions = []) (hreporting : s.reporting = []) :
    (s.reported.map (·.1.number)).Perm (List.range s.started.length) := by
  have hnumbers := h.numbers
  rw [State.numbers, hsessions, hreporting, List.map_nil, List.map_nil, List.sum_nil, zero_add,
    zero_add, sum_map_singleton] at hnumbers
  exact Multiset.coe_eq_coe.mp hnumbers

theorem Inv.report_isSome (h : Inv s) {p k : ℕ} {r : Report} {entries : Timer.Entries}
    (hr : s.reporting[p]? = some r) (hk : s.timer.collectors[k]? = some ⟨entries, .notRunning⟩)
    (tryLock : Bool) : (s.next (.report p k tryLock)).isSome = true := by
  have hindex := h.hasIndex (List.mem_of_getElem? hr)
  simp [State.next, State.report, hr, Timer.State.next, hk, hindex]

theorem Inv.durationsAt_perm (h : Inv s) (i : Fin kCollectorSize) :
    (s.timer.durationsAt i).Perm (durationsAt s.measured i ++ durationsAt s.direct i) := by
  have hperm := (h.accepted.filter fun x => x.index = i.val).map (·.duration)
  rw [List.filter_append, List.map_append] at hperm
  exact hperm

/-- However the objects are moved, ended and destroyed: every session is on its way to one report or
has made one, with the clock and the index of its own start; no report is refused; and until the
counter of the indexes wraps, the statistics of a section account for the sessions whose reports were
not skipped and for what was reported directly. -/
theorem sessions_measured_once (h : system.Reachable s) :
    s.numbers = Multiset.range s.started.length ∧
    (s.sessions = [] → s.reporting = [] →
      (s.reported.map (·.1.number)).Perm (List.range s.started.length)) ∧
    (∀ r ∈ s.reported, s.Measures r.1) ∧
    (∀ p r k entries tryLock, s.reporting[p]? = some r →
      s.timer.collectors[k]? = some ⟨entries, .notRunning⟩ →
      (s.next (.report p k tryLock)).isSome = true) ∧
    ∀ i : Fin kCollectorSize, i.val ≠ kEmptyCollectorIndex →
      (s.timer.sections.NoWrap → s.timer.Accounts i (s.timer.parts i)) ∧
      (s.timer.durationsAt i).Perm (durationsAt s.measured i ++ durationsAt s.direct i) := by
  have hinv := reachable_inv h
  refine ⟨hinv.numbers, hinv.reported_perm, hinv.reported, ?_, fun i hi => ⟨fun hw => ?_, ?_⟩⟩
  · intro p r k entries tryLock hr hk
    exact hinv.report_isSome hr hk tryLock
  · exact Timer.accounts_parts (Timer.reachable_inv hinv.timer hw)
      (Timer.reachable_sound hinv.timer) hi
  · exact hinv.durationsAt_perm i

end Reachable

/-- A session of the main section is moved, its first object destroyed, and the second one ended and
then destroyed; another thread reports a duration, and the collectors are flushed. -/
def movedSteps : List Action :=
  [.timer .getMainSection, .timer (.step 0), .timer (.step 0), .timer .getCollector,
    .timer .getCollector, .startTimerSession 1 100, .moveSession 0, .destroy 0 150,
    .endSession 0 160, .timer (.report 1 1 7 true), .report 0 0 true, .destroy 0 170,
    .timer .flushCollectedStats] ++ List.replicate 6 (.timer (.step 0))

def movedState : State := system.after initial movedSteps

theorem sessions_measured_once_movedState :
    movedState.sessions = [] ∧ movedState.timer.calls.length = 0 ∧
    movedState.timer.durationsAt Timer.mainIndex = [7, 60] ∧
    movedState.timer.Accounts Timer.mainIndex (movedState.timer.parts Timer.mainIndex) :=
  ⟨by decide +kernel, by decide +kernel, by decide +kernel,
    ((sessions_measured_once (.after (M := system) rfl movedSteps)).2.2.2.2 Timer.mainIndex
      (by decide)).1 (by decide +kernel)⟩

end CrisCore.TimerSessions
