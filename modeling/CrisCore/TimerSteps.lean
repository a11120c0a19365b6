import CrisCore.TimerCollectors

/-! What each step of the timer does. -/
namespace CrisCore.Timer

theorem Entries.report_eq_none_iff {e : Entries} {index : ℕ} {duration : ℤ} :
    e.report index duration = none ↔ ¬ (0 ≤ duration ∧ index < kCollectorSize) := by
  unfold Entries.report
  split_ifs with hneg hlt
  · simp only [true_iff]
    omega
  · simp only [false_iff, not_not]
    exact ⟨Int.not_lt.mp hneg, hlt⟩
  · simp only [true_iff]
    exact fun hin => hlt hin.2

/-- All that a step does: a `Report` skips its sample or accepts it, a deleter takes its three steps,
a call begins, and it goes on from where it is. -/
inductive Step (s : State) : Action → State → Prop
  | newCollector (hfree : s.listLocked = false) :
      Step s .getCollector { s with collectors := s.collectors ++ [⟨0, .notRunning⟩] }
  | skipped {k index : ℕ} {duration : ℤ} {tryLock : Bool}
      (hskip : tryLock = true → ¬ (0 ≤ duration ∧ index < kCollectorSize)) :
      Step s (.report k index duration tryLock) s
  | reported {k index : ℕ} {duration : ℤ} {entries entries' : Entries}
      (hk : s.collectors[k]? = some ⟨entries, .notRunning⟩) (hindex : s.HasIndex index)
      (hin : 0 ≤ duration ∧ index < kCollectorSize)
      (he : entries' = entries + .sample index duration.toNat) :
      Step s (.report k index duration true) { s with
        collectors := s.collectors.set k ⟨entries', .notRunning⟩
        accepted := s.accepted ++ [⟨index, duration.toNat⟩] }
  | exitCollect {k : ℕ} {entries : Entries}
      (hk : s.collectors[k]? = some ⟨entries, .notRunning⟩) :
      Step s (.exit k) { s with
        collectors := s.collectors.set k ⟨Entries.cleared, .collected entries⟩ }
  | exitMerge {k : ℕ} {entries copy : Entries}
      (hk : s.collectors[k]? = some ⟨entries, .collected copy⟩) :
      Step s (.exit k) { s with
        total := s.total.merge copy
        collectors := s.collectors.set k ⟨entries, .merged⟩ }
  | exitErase {k : ℕ} {entries : Entries} (hfree : s.listLocked = false)
      (hk : s.collectors[k]? = some ⟨entries, .merged⟩) :
      Step s (.exit k) { s with collectors := s.collectors.eraseIdx k }
  | getMainSection :
      Step s .getMainSection { s with
        sections := s.sections.getMainSection.2
        calls := s.calls ++ [.flush .done] }
  | subSection {parent : Path} {name : String} (hparent : s.sections.IsParent parent) :
      Step s (.subSection parent name) { s with sections := s.sections.subSection parent name }
  | fetchAdd {k : ℕ} {r : Sections} (hr : s.sections.fetchAdd k = some r) :
      Step s (.fetchAdd k) { s with sections := r }
  | emplace {k : ℕ} {r : Sections} (hr : s.sections.emplace k = some r) :
      Step s (.emplace k) { s with sections := r }
  | flushCollectedStats :
      Step s .flushCollectedStats { s with calls := s.calls ++ [.flush .done] }
  | request {request : Request} (hask : s.CanAsk request) :
      Step s (.request request) { s with calls := s.calls ++ [.flush (.collect request)] }
  | flushBegin {k : ℕ} {next : Then} (hfree : s.listLocked = false)
      (hk : s.calls[k]? = some (.flush next)) :
      Step s (.step k) { s with
        listLocked := true
        calls := s.calls.set k (.flushing next 0 none) }
  | flushCollect {k pos : ℕ} {next : Then} {c : Collector}
      (hk : s.calls[k]? = some (.flushing next pos none))
      (hpos : s.collectors[pos]? = some c) :
      Step s (.step k) { s with
        collectors := s.collectors.set pos { c with entries := Entries.cleared }
        calls := s.calls.set k (.flushing next pos (some c.entries)) }
  | flushMerge {k pos : ℕ} {next : Then} {copy : Entries}
      (hk : s.calls[k]? = some (.flushing next pos (some copy))) :
      Step s (.step k) { s with
        total := s.total.merge copy
        calls := s.calls.set k (.flushing next (pos + 1) none) }
  | flushDone {k pos : ℕ} (hk : s.calls[k]? = some (.flushing .done pos none))
      (hend : s.collectors[pos]? = none) :
      Step s (.step k) { s with calls := s.calls.eraseIdx k, listLocked := false }
  | flushEnd {k pos : ℕ} {next : Then} {phase : Phase}
      (hk : s.calls[k]? = some (.flushing next pos none)) (hend : s.collectors[pos]? = none)
      (hphase : (∃ request, next = .collect request ∧ phase = .collectTotal request) ∨
        ∃ clear walk, next = .report clear walk ∧ phase = .reporting clear walk) :
      Step s (.step k) { s with calls := s.calls.set k phase, listLocked := false }
  | collectReport {k : ℕ} {root : TimerSection} {recursive : Bool}
      (hk : s.calls[k]? = some (.collectTotal (.getReport root recursive))) :
      Step s (.step k) { s with
        calls := s.calls.set k (.reporting false (.start s.total root recursive)) }
  | collectAll {k : ℕ} {clear : Bool}
      (hk : s.calls[k]? = some (.collectTotal (.getAllReports clear))) :
      Step s (.step k) { s with
        total := if clear then Entries.cleared else s.total
        calls := s.calls.set k (.getMainSection clear s.total) }
  | mainSection {k : ℕ} {clear : Bool} {collected : Entries}
      (hk : s.calls[k]? = some (.getMainSection clear collected)) :
      Step s (.step k) { s with
        sections := s.sections.getMainSection.2
        calls := s.calls.set k (.flush (.report clear
          (.start collected s.sections.getMainSection.1 true))) }
  | visit {k : ℕ} {clear : Bool} {walk walk' : ReportWalk}
      (hk : s.calls[k]? = some (.reporting clear walk))
      (hv : walk.visit s.sections = some walk') :
      Step s (.step k) { s with calls := s.calls.set k (.reporting clear walk') }
  | finish {k : ℕ} {clear : Bool} {walk : ReportWalk}
      (hk : s.calls[k]? = some (.reporting clear walk)) (hdone : walk.toVisit = []) :
      Step s (.step k) { s with
        calls := s.calls.eraseIdx k
        handedOut := if clear then s.handedOut ++ [walk] else s.handedOut }

section Inversion
variable {s s' : State} {k : ℕ}

theorem step_reported {index : ℕ} {duration : ℤ} {entries : Entries}
    (hk : s.collectors[k]? = some ⟨entries, .notRunning⟩) (hindex : s.HasIndex index) :
    Step s (.report k index duration true) (s.reported k entries index duration) := by
  unfold State.reported
  split
  · next hnone => exact .skipped fun _ => Entries.report_eq_none_iff.mp hnone
  · next entries' he =>
    have hin : 0 ≤ duration ∧ index < kCollectorSize := by
      by_contra hout
      rw [Entries.report_eq_none_iff.mpr hout] at he
      cases he
    exact .reported hk hindex hin (Entries.report_eq_some he)

theorem step_exit (he : s.exit k = some s') : Step s (.exit k) s' := by
  unfold State.exit at he
  split at he
  · next hk =>
    cases he
    exact .exitCollect hk
  · next hk =>
    cases he
    exact .exitMerge hk
  · next hk =>
    split_ifs at he with hlocked
    cases he
    exact .exitErase (Bool.eq_false_iff.mpr hlocked) hk
  · cases he

theorem step_callStep {phase : Phase} (hk : s.calls[k]? = some phase)
    (he : s.callStep k phase = some s') : Step s (.step k) s' := by
  cases phase with
  | flush next =>
    simp only [State.callStep] at he
    split_ifs at he with hlocked
    cases he
    exact .flushBegin (Bool.eq_false_iff.mpr hlocked) hk
  | flushing next pos collected =>
    cases collected with
    | none =>
      simp only [State.callStep] at he
      split at he
      · next hpos =>
        cases he
        exact .flushCollect hk hpos
      · next hend =>
        cases he
        cases next with
        | done => exact .flushDone hk hend
        | collect request => exact .flushEnd hk hend (.inl ⟨request, rfl, rfl⟩)
        | report clear walk => exact .flushEnd hk hend (.inr ⟨clear, walk, rfl, rfl⟩)
    | some copy =>
      cases he
      exact .flushMerge hk
  | collectTotal request =>
    cases request with
    | getReport root recursive =>
      cases he
      exact .collectReport hk
    | getAllReports clear =>
      cases he
      exact .collectAll hk
  | getMainSection clear collected =>
    cases he
    exact .mainSection hk
  | reporting clear walk =>
    simp only [State.callStep] at he
    split at he
    · next hdone =>
      cases he
      exact .finish hk hdone
    · obtain ⟨walk', hv, rfl⟩ := Option.map_eq_some_iff.mp he
      exact .visit hk hv

theorem step_of_next {a : Action} (hs : s.next a = some s') : Step s a s' := by
  cases a with
  | getCollector =>
    simp only [State.next] at hs
    split_ifs at hs with hlocked
    cases hs
    exact .newCollector (Bool.eq_false_iff.mpr hlocked)
  | report k index duration tryLock =>
    simp only [State.next] at hs
    split at hs
    · next entries hk =>
      split_ifs at hs with hindex htry <;> cases hs
      · subst htry
        exact step_reported hk hindex
      · exact .skipped fun htrue => absurd htrue htry
    · cases hs
  | exit k => exact step_exit hs
  | getMainSection =>
    cases hs
    exact .getMainSection
  | subSection parent name =>
    simp only [State.next] at hs
    split_ifs at hs with hparent
    cases hs
    exact .subSection hparent
  | fetchAdd k =>
    obtain ⟨r, hr, rfl⟩ := Option.map_eq_some_iff.mp hs
    exact .fetchAdd hr
  | emplace k =>
    obtain ⟨r, hr, rfl⟩ := Option.map_eq_some_iff.mp hs
    exact .emplace hr
  | flushCollectedStats =>
    cases hs
    exact .flushCollectedStats
  | request request =>
    simp only [State.next] at hs
    split_ifs at hs with hask
    cases hs
    exact .request hask
  | step k =>
    obtain ⟨phase, hk, he⟩ := Option.bind_eq_some_iff.mp hs
    exact step_callStep hk he

theorem sections_step {a : Action} (hs : Step s a s') : s.sections.Step s'.sections := by
  cases hs with
  | getMainSection | mainSection => exact .getMainSection
  | subSection hparent => exact .subSection hparent
  | fetchAdd hr => exact .fetchAdd hr
  | emplace hr => exact .emplace hr
  | newCollector | skipped | reported | exitCollect | exitMerge | exitErase | flushCollectedStats
  | request | flushBegin | flushCollect | flushMerge | flushDone | flushEnd | collectReport
  | collectAll | visit | finish => exact .same

end Inversion

end CrisCore.Timer
