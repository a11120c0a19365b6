import CrisCore.TransitionSystem
import CrisCore.TimerReports
import Mathlib.Tactic.Abel

/-! The collectors of the threads, the total of all threads, and the calls that move statistics from
the ones to the other and into reports. A step is what is done under one mutex. The times at which a
collector was cleared and merged are left out. -/
namespace CrisCore.Timer

/-- The deleter that runs when a thread exits: what it has collected and not merged, and then only
the collector itself is left to erase. -/
inductive Deleter
  | notRunning
  | collected (copy : Entries)
  | merged

/-- The collector of a thread, in the list of all collectors. -/
structure Collector where
  entries : Entries
  deleter : Deleter

inductive Request
  | getReport (timerSection : TimerSection) (recursive : Bool)
  | getAllReports (clear : Bool)

/-- What a call does after it has flushed the collectors. -/
inductive Then
  | done
  | collect (request : Request)
  | report (clear : Bool) (walk : ReportWalk)

/-- Where a call is: at `FlushCollectedStats`; in it, at a collector of the list and with a copy that
it has not merged; before `Collect` of the total; before `GetMainSection`; in the walk. -/
inductive Phase
  | flush (next : Then)
  | flushing (next : Then) (pos : ℕ) (collected : Option Entries)
  | collectTotal (request : Request)
  | getMainSection (clear : Bool) (collected : Entries)
  | reporting (clear : Bool) (walk : ReportWalk)

structure Sample where
  index : ℕ
  duration : ℕ
  deriving DecidableEq

/-- `accepted` and `handedOut` are history: the samples that `Report` has not skipped, and the walks
of the clearing reports that have returned. -/
structure State where
  total : Entries
  collectors : List Collector
  listLocked : Bool
  sections : Sections
  calls : List Phase
  accepted : List Sample
  handedOut : List ReportWalk

def initial : State where
  total := 0
  collectors := []
  listLocked := false
  sections := .initial
  calls := []
  accepted := []
  handedOut := []

/-- `report` names the collector of the thread that calls it, `exit` the one of the thread that
exits; `tryLock` is false when a `Collect` has the mutex of the collector. -/
inductive Action
  | getCollector
  | report (k index : ℕ) (duration : ℤ) (tryLock : Bool)
  | exit (k : ℕ)
  | getMainSection
  | subSection (parent : Path) (name : String)
  | fetchAdd (k : ℕ)
  | emplace (k : ℕ)
  | flushCollectedStats
  | request (request : Request)
  | step (k : ℕ)

namespace State

/-- The sessions of a section report at its index, those of the dummy section and those that were
default constructed at the empty one. -/
def HasIndex (s : State) (index : ℕ) : Prop :=
  index = kEmptyCollectorIndex ∨ index ∈ s.sections.tree.map (·.collectorIndex)

instance (s : State) (index : ℕ) : Decidable (s.HasIndex index) :=
  inferInstanceAs (Decidable (_ ∨ _))

/-- A report is asked for a section that `GetMainSection` or `SubSection` has returned. -/
def CanAsk (s : State) : Request → Prop
  | .getReport timerSection _ => timerSection ∈ s.sections.tree ∨ timerSection = dummySection
  | .getAllReports _ => True

instance (s : State) : (request : Request) → Decidable (s.CanAsk request)
  | .getReport _ _ => inferInstanceAs (Decidable (_ ∨ _))
  | .getAllReports _ => .isTrue trivial

def reported (s : State) (k : ℕ) (entries : Entries) (index : ℕ) (duration : ℤ) : State :=
  match entries.report index duration with
  | none => s
  | some entries => { s with
      collectors := s.collectors.set k ⟨entries, .notRunning⟩
      accepted := s.accepted ++ [⟨index, duration.toNat⟩] }

/-- The next step of the deleter: `Collect` with `clear`, `Merge` into the total, `erase_if`. -/
def exit (s : State) (k : ℕ) : Option State :=
  match s.collectors[k]? with
  | some ⟨entries, .notRunning⟩ =>
    some { s with collectors := s.collectors.set k ⟨Entries.cleared, .collected entries⟩ }
  | some ⟨entries, .collected copy⟩ => some { s with
      total := s.total.merge copy
      collectors := s.collectors.set k ⟨entries, .merged⟩ }
  | some ⟨_, .merged⟩ =>
    if s.listLocked then none else some { s with collectors := s.collectors.eraseIdx k }
  | none => none

/-- A call goes on after its flush. -/
def goOn (s : State) (k : ℕ) : Then → State
  | .done => { s with calls := s.calls.eraseIdx k }
  | .collect request => { s with calls := s.calls.set k (.collectTotal request) }
  | .report clear walk => { s with calls := s.calls.set k (.reporting clear walk) }

/-- The next step of a call. -/
def callStep (s : State) (k : ℕ) : Phase → Option State
  | .flush next =>
    if s.listLocked then none
    else some { s with listLocked := true, calls := s.calls.set k (.flushing next 0 none) }
  | .flushing next pos none =>
    match s.collectors[pos]? with
    | some c => some { s with
        collectors := s.collectors.set pos { c with entries := Entries.cleared }
        calls := s.calls.set k (.flushing next pos (some c.entries)) }
    | none => some { s.goOn k next with listLocked := false }
  | .flushing next pos (some copy) => some { s with
      total := s.total.merge copy
      calls := s.calls.set k (.flushing next (pos + 1) none) }
  | .collectTotal (.getReport timerSection recursive) => some { s with
      calls := s.calls.set k (.reporting false (.start s.total timerSection recursive)) }
  | .collectTotal (.getAllReports clear) => some { s with
      total := if clear then Entries.cleared else s.total
      calls := s.calls.set k (.getMainSection clear s.total) }
  | .getMainSection clear collected =>
    let (mainSection, sections) := s.sections.getMainSection
    some { s with
      sections := sections
      calls := s.calls.set k (.flush (.report clear (.start collected mainSection true))) }
  | .reporting clear walk =>
    match walk.toVisit with
    | [] => some { s with
        calls := s.calls.eraseIdx k
        handedOut := if clear then s.handedOut ++ [walk] else s.handedOut }
    | _ :: _ => (walk.visit s.sections).map fun walk =>
        { s with calls := s.calls.set k (.reporting clear walk) }

def next (s : State) : Action → Option State
  | .getCollector =>
    if s.listLocked then none
    else some { s with collectors := s.collectors ++ [⟨0, .notRunning⟩] }
  | .report k index duration tryLock =>
    match s.collectors[k]? with
    | some ⟨entries, .notRunning⟩ =>
      if s.HasIndex index then some (if tryLock then s.reported k entries index duration else s)
      else none
    | _ => none
  | .exit k => s.exit k
  | .getMainSection => some { s with
      sections := s.sections.getMainSection.2
      calls := s.calls ++ [.flush .done] }
  | .subSection parent name =>
    if s.sections.IsParent parent then some { s with sections := s.sections.subSection parent name }
    else none
  | .fetchAdd k => (s.sections.fetchAdd k).map fun sections => { s with sections := sections }
  | .emplace k => (s.sections.emplace k).map fun sections => { s with sections := sections }
  | .flushCollectedStats => some { s with calls := s.calls ++ [.flush .done] }
  | .request request =>
    if s.CanAsk request then some { s with calls := s.calls ++ [.flush (.collect request)] }
    else none
  | .step k => s.calls[k]?.bind (s.callStep k)

end State

def system : TransitionSystem State Action where
  init s := s = initial
  step := State.next

theorem init_initial : system.init initial := rfl

end CrisCore.Timer
