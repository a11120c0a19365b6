import CrisCore.PairedLists
import CrisCore.TimerCapacity

/-! Which samples are where: next to each state of the timer its history, which says what samples the
total, the collectors and the copies are made of, and when the calls began. The steps are those of the
timer. -/
namespace CrisCore.Timer

/-- Accepted samples, each with its number. -/
abbrev Log := List (Sample × ℕ)

def Log.entries (log : Log) : Entries := (log.map fun p => p.1.entries).sum

/-- What a collector has, and what its deleter has collected and not merged. -/
structure CollectorLog where
  log : Log
  copied : List Log

/-- A report that `GetReport` makes: how many samples had been accepted when the total was cleared the
last time, and the sections that there were when it was collected. -/
structure Asked where
  root : TimerSection
  recursive : Bool
  clearedAt : ℕ
  known : List TimerSection

/-- How many samples had been accepted when the call began (`FlushCollectedStats` is the first thing that
it does), what its flush has collected and not merged, and the report. -/
structure CallLog where
  begun : ℕ
  copied : Option Log
  asked : Option Asked

structure History where
  state : State
  total : Log
  collectors : List CollectorLog
  calls : List CallLog
  clearedAt : ℕ

namespace History

def initial : History where
  state := Timer.initial
  total := []
  collectors := []
  calls := []
  clearedAt := 0

def recordReport (t : History) (k index : ℕ) (duration : ℤ) : History :=
  if 0 ≤ duration ∧ index < kCollectorSize then { t with
    collectors := t.collectors.modify k fun g =>
      { g with log := g.log ++ [(⟨index, duration.toNat⟩, t.state.accepted.length)] } }
  else t

def recordExit (t : History) (k : ℕ) : Deleter → History
  | .notRunning => { t with collectors := t.collectors.modify k fun g => ⟨[], [g.log]⟩ }
  | .collected _ => { t with
      total := t.total ++ (t.collectors[k]?.map fun g => g.copied.flatten).getD []
      collectors := t.collectors.modify k fun g => { g with copied := [] } }
  | .merged => { t with collectors := t.collectors.eraseIdx k }

def recordStep (t : History) (k : ℕ) : Phase → History
  | .flush _ => t
  | .flushing next pos none =>
    match t.collectors[pos]? with
    | some c => { t with
        collectors := t.collectors.modify pos fun c => { c with log := [] }
        calls := t.calls.modify k fun g => { g with copied := some c.log } }
    | none =>
      match next with
      | .done => { t with calls := t.calls.eraseIdx k }
      | _ => t
  | .flushing _ _ (some _) => { t with
      total := t.total ++ (t.calls[k]?.bind (·.copied)).getD []
      calls := t.calls.modify k fun g => { g with copied := none } }
  | .collectTotal (.getReport root recursive) => { t with
      calls := t.calls.modify k fun g =>
        { g with asked := some ⟨root, recursive, t.clearedAt, t.state.sections.tree⟩ } }
  | .collectTotal (.getAllReports clear) =>
    if clear then { t with total := [], clearedAt := t.state.accepted.length } else t
  | .getMainSection _ _ => t
  | .reporting _ walk => if walk.toVisit = [] then { t with calls := t.calls.eraseIdx k } else t

def record (t : History) : Action → History
  | .getCollector => { t with collectors := t.collectors ++ [⟨[], []⟩] }
  | .report k index duration tryLock => if tryLock then t.recordReport k index duration else t
  | .exit k =>
    match t.state.collectors[k]? with
    | some c => t.recordExit k c.deleter
    | none => t
  | .getMainSection | .flushCollectedStats | .request _ =>
    { t with calls := t.calls ++ [⟨t.state.accepted.length, none, none⟩] }
  | .subSection _ _ | .fetchAdd _ | .emplace _ => t
  | .step k =>
    match t.state.calls[k]? with
    | some phase => t.recordStep k phase
    | none => t

def next (t : History) (a : Action) : Option History :=
  (t.state.next a).map fun s => { t.record a with state := s }

end History

def history : TransitionSystem History Action where
  init t := t = .initial
  step := History.next

/-- The runs with a history are the runs of the timer. -/
theorem exec_history (t : History) (as : List Action) :
    (history.exec t as).map (·.state) = system.exec t.state as := by
  induction as generalizing t with
  | nil => rfl
  | cons a as ih =>
    simp only [TransitionSystem.exec_cons]
    change ((t.next a).bind fun u => history.exec u as).map (·.state) =
      (t.state.next a).bind fun u => system.exec u as
    unfold History.next
    cases t.state.next a with
    | none => rfl
    | some s => exact ih _

/-- All that a step does, with its history. -/
inductive HistoryStep (t : History) : Action → History → Prop
  | sections {a : Action} (r : Sections) :
      HistoryStep t a { t with state := { t.state with sections := r } }
  | newCollector (hfree : t.state.listLocked = false) :
      HistoryStep t .getCollector { t with
        state := { t.state with collectors := t.state.collectors ++ [⟨0, .notRunning⟩] }
        collectors := t.collectors ++ [⟨[], []⟩] }
  | reported {k index : ℕ} {duration : ℤ} {entries entries' : Entries}
      (hk : t.state.collectors[k]? = some ⟨entries, .notRunning⟩)
      (hindex : t.state.HasIndex index)
      (he : entries' = entries + .sample index duration.toNat) :
      HistoryStep t (.report k index duration true) { t with
        state := { t.state with
          collectors := t.state.collectors.set k ⟨entries', .notRunning⟩
          accepted := t.state.accepted ++ [⟨index, duration.toNat⟩] }
        collectors := t.collectors.modify k fun g =>
          { g with log := g.log ++ [(⟨index, duration.toNat⟩, t.state.accepted.length)] } }
  | exitCollect {k : ℕ} {entries : Entries}
      (hk : t.state.collectors[k]? = some ⟨entries, .notRunning⟩) :
      HistoryStep t (.exit k) { t with
        state := { t.state with
          collectors := t.state.collectors.set k ⟨Entries.cleared, .collected entries⟩ }
        collectors := t.collectors.modify k fun g => ⟨[], [g.log]⟩ }
  | exitMerge {k : ℕ} {entries copy : Entries}
      (hk : t.state.collectors[k]? = some ⟨entries, .collected copy⟩) :
      HistoryStep t (.exit k) { t with
        state := { t.state with
          total := t.state.total.merge copy
          collectors := t.state.collectors.set k ⟨entries, .merged⟩ }
        total := t.total ++ (t.collectors[k]?.map fun g => g.copied.flatten).getD []
        collectors := t.collectors.modify k fun g => { g with copied := [] } }
  | exitErase {k : ℕ} {entries : Entries} (hfree : t.state.listLocked = false)
      (hk : t.state.collectors[k]? = some ⟨entries, .merged⟩) :
      HistoryStep t (.exit k) { t with
        state := { t.state with collectors := t.state.collectors.eraseIdx k }
        collectors := t.collectors.eraseIdx k }
  | newCall {a : Action} (r : Sections) (next : Then) :
      HistoryStep t a { t with
        state := { t.state with sections := r, calls := t.state.calls ++ [.flush next] }
        calls := t.calls ++ [⟨t.state.accepted.length, none, none⟩] }
  | flushBegin {k : ℕ} {next : Then} (hfree : t.state.listLocked = false)
      (hk : t.state.calls[k]? = some (.flush next)) :
      HistoryStep t (.step k) { t with
        state := { t.state with
          listLocked := true
          calls := t.state.calls.set k (.flushing next 0 none) } }
  | flushCollect {k pos : ℕ} {next : Then} {c : Collector} {g : CollectorLog}
      (hk : t.state.calls[k]? = some (.flushing next pos none))
      (hpos : t.state.collectors[pos]? = some c) (hg : t.collectors[pos]? = some g) :
      HistoryStep t (.step k) { t with
        state := { t.state with
          collectors := t.state.collectors.set pos { c with entries := Entries.cleared }
          calls := t.state.calls.set k (.flushing next pos (some c.entries)) }
        collectors := t.collectors.modify pos fun g => { g with log := [] }
        calls := t.calls.modify k fun call => { call with copied := some g.log } }
  | flushMerge {k pos : ℕ} {next : Then} {copy : Entries}
      (hk : t.state.calls[k]? = some (.flushing next pos (some copy))) :
      HistoryStep t (.step k) { t with
        state := { t.state with
          total := t.state.total.merge copy
          calls := t.state.calls.set k (.flushing next (pos + 1) none) }
        total := t.total ++ (t.calls[k]?.bind (·.copied)).getD []
        calls := t.calls.modify k fun g => { g with copied := none } }
  | flushDone {k pos : ℕ} (hk : t.state.calls[k]? = some (.flushing .done pos none)) :
      HistoryStep t (.step k) { t with
        state := { t.state with calls := t.state.calls.eraseIdx k, listLocked := false }
        calls := t.calls.eraseIdx k }
  | flushEnd {k pos : ℕ} {next : Then} {phase : Phase}
      (hk : t.state.calls[k]? = some (.flushing next pos none))
      (hend : t.state.collectors[pos]? = none)
      (hphase : (∃ request, next = .collect request ∧ phase = .collectTotal request) ∨
        ∃ clear walk, next = .report clear walk ∧ phase = .reporting clear walk) :
      HistoryStep t (.step k) { t with
        state := { t.state with calls := t.state.calls.set k phase, listLocked := false } }
  | collectReport {k : ℕ} {root : TimerSection} {recursive : Bool}
      (hk : t.state.calls[k]? = some (.collectTotal (.getReport root recursive))) :
      HistoryStep t (.step k) { t with
        state := { t.state with
          calls := t.state.calls.set k
            (.reporting false (.start t.state.total root recursive)) }
        calls := t.calls.modify k fun g =>
          { g with asked := some ⟨root, recursive, t.clearedAt, t.state.sections.tree⟩ } }
  | collectAll {k : ℕ} {clear : Bool}
      (hk : t.state.calls[k]? = some (.collectTotal (.getAllReports clear))) :
      HistoryStep t (.step k) { t with
        state := { t.state with
          total := if clear then Entries.cleared else t.state.total
          calls := t.state.calls.set k (.getMainSection clear t.state.total) }
        total := if clear then [] else t.total
        clearedAt := if clear then t.state.accepted.length else t.clearedAt }
  | mainSection {k : ℕ} {clear : Bool} {collected : Entries}
      (hk : t.state.calls[k]? = some (.getMainSection clear collected)) :
      HistoryStep t (.step k) { t with
        state := { t.state with
          sections := t.state.sections.getMainSection.2
          calls := t.state.calls.set k (.flush (.report clear
            (.start collected t.state.sections.getMainSection.1 true))) } }
  | visit {k : ℕ} {clear : Bool} {walk walk' : ReportWalk}
      (hk : t.state.calls[k]? = some (.reporting clear walk))
      (hv : walk.visit t.state.sections = some walk') :
      HistoryStep t (.step k) { t with
        state := { t.state with calls := t.state.calls.set k (.reporting clear walk') } }
  | finish {k : ℕ} {clear : Bool} {walk : ReportWalk} {out : List ReportWalk}
      (hk : t.state.calls[k]? = some (.reporting clear walk)) (hdone : walk.toVisit = []) :
      HistoryStep t (.step k) { t with
        state := { t.state with calls := t.state.calls.eraseIdx k, handedOut := out }
        calls := t.calls.eraseIdx k }

section Inversion
variable {t t' : History}

theorem record_report_of_skip {k index : ℕ} {duration : ℤ} {tryLock : Bool}
    (hskip : tryLock = true → ¬ (0 ≤ duration ∧ index < kCollectorSize)) :
    t.record (.report k index duration tryLock) = t := by
  simp only [History.record, History.recordReport]
  split_ifs with htry hin
  · exact absurd hin (hskip htry)
  · rfl
  · rfl

/-- The history of a step is kept with the step: the cases are those of the timer. -/
theorem historyStep_of_step {a : Action} {s : State}
    (hlen : t.state.collectors.length = t.collectors.length) (hs : Step t.state a s) :
    HistoryStep t a { t.record a with state := s } := by
  cases hs with
  | newCollector hfree => exact .newCollector hfree
  | skipped hskip =>
    rw [record_report_of_skip hskip]
    exact .sections t.state.sections
  | reported hk hindex hin he =>
    simp only [History.record, if_true, History.recordReport, if_pos hin]
    exact .reported hk hindex he
  | exitCollect hk =>
    simp only [History.record, hk]
    exact .exitCollect hk
  | exitMerge hk =>
    simp only [History.record, hk]
    exact .exitMerge hk
  | exitErase hfree hk =>
    simp only [History.record, hk]
    exact .exitErase hfree hk
  | getMainSection => exact .newCall _ .done
  | subSection | fetchAdd | emplace => exact .sections _
  | flushCollectedStats => exact .newCall t.state.sections .done
  | @request request => exact .newCall t.state.sections (.collect request)
  | flushBegin hfree hk =>
    simp only [History.record, hk]
    exact .flushBegin hfree hk
  | @flushCollect k pos next c hk hpos =>
    -- where the timer has a collector the history has its log
    have hlt : pos < t.collectors.length := hlen ▸ (List.getElem?_eq_some_iff.mp hpos).1
    have hg : t.collectors[pos]? = some t.collectors[pos] := List.getElem?_eq_getElem hlt
    simp only [History.record, hk, History.recordStep, hg]
    exact .flushCollect hk hpos hg
  | flushMerge hk =>
    simp only [History.record, hk]
    exact .flushMerge hk
  | @flushDone k pos hk hend =>
    have hend' : t.collectors[pos]? = none := by
      rw [List.getElem?_eq_none_iff] at hend ⊢
      omega
    simp only [History.record, hk, History.recordStep, hend']
    exact .flushDone hk
  | @flushEnd k pos next phase hk hend hphase =>
    have hend' : t.collectors[pos]? = none := by
      rw [List.getElem?_eq_none_iff] at hend ⊢
      omega
    have hrecord : t.record (.step k) = t := by
      rcases hphase with ⟨request, rfl, -⟩ | ⟨clear, walk, rfl, -⟩ <;>
        simp only [History.record, hk, History.recordStep, hend']
    rw [hrecord]
    exact .flushEnd hk hend hphase
  | collectReport hk =>
    simp only [History.record, hk]
    exact .collectReport hk
  | @collectAll k clear hk =>
    have hstep := HistoryStep.collectAll hk
    simp only [History.record, hk]
    cases clear <;> exact hstep
  | mainSection hk =>
    simp only [History.record, hk]
    exact .mainSection hk
  | @visit k clear walk walk' hk hv =>
    -- a walk that goes on has something to visit
    have hne : walk.toVisit ≠ [] := fun hnil => by
      rw [ReportWalk.visit, hnil] at hv
      cases hv
    simp only [History.record, hk, History.recordStep, if_neg hne]
    exact .visit hk hv
  | finish hk hdone =>
    simp only [History.record, hk, History.recordStep, hdone, if_true]
    exact .finish hk hdone

theorem historyStep_of_next {a : Action} (hlen : t.state.collectors.length = t.collectors.length)
    (hnext : t.next a = some t') : HistoryStep t a t' := by
  obtain ⟨s, hs, rfl⟩ := Option.map_eq_some_iff.mp hnext
  exact historyStep_of_step hlen (step_of_next hs)

end Inversion

end CrisCore.Timer
