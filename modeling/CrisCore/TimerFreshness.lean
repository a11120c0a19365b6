import CrisCore.TimerHistory

/-! A `GetReport` and the samples that were accepted before its flush began: what a flush finds of
them, and what is out of its reach in the hands of a thread that exits. -/
namespace CrisCore.Timer

/-- An entry has, among others, a sample of each of the durations. -/
def CollectorEntry.Counts (entry : CollectorEntry) (durations : List ℕ) : Prop :=
  ∃ rest, entry = (durations.map CollectorEntry.single).sum + rest

/-- The sections that a report is about. -/
def Asked.Covers (q : Asked) (x : TimerSection) : Prop :=
  x = q.root ∨ (q.recursive = true ∧ q.root.path <:+ x.path)

/-- The walk of a report from any section: it has read each section that it is about, or it knows one
above it. -/
structure Asked.Reads (q : Asked) (walk : ReportWalk) (r : Sections) : Prop where
  recursive : walk.recursive = q.recursive
  known : ∀ x ∈ q.known, x ∈ r.tree
  returned : ∀ x ∈ walk.sections, x ∈ r.tree ∨ x = dummySection
  entries : ∀ n ∈ walk.report,
    walk.collected.at? n.timerSection.collectorIndex = some n.entry
  covered : ∀ y, y ∈ q.known ∨ y = q.root → q.Covers y →
    (∃ n ∈ walk.report, n.timerSection = y) ∨
      ∃ z ∈ walk.toVisit, z = y ∨ (q.recursive = true ∧ z.path <:+ y.path)

namespace Asked.Reads
variable {q : Asked} {walk walk' : ReportWalk} {r r' : Sections}

theorem start (collected : Entries) {root : TimerSection} {recursive : Bool} {clearedAt : ℕ}
    (hroot : root ∈ r.tree ∨ root = dummySection) :
    Reads ⟨root, recursive, clearedAt, r.tree⟩ (.start collected root recursive) r where
  recursive := rfl
  known _ hx := hx
  returned x hx := by
    rw [List.mem_singleton.mp hx]
    exact hroot
  entries n hn := nomatch hn
  covered y _ hy := by
    refine .inr ⟨root, List.mem_singleton_self _, ?_⟩
    exact hy.imp_left Eq.symm

theorem grow (h : Reads q walk r) (hkept : ∀ x ∈ r.tree, x ∈ r'.tree) : Reads q walk r' where
  recursive := h.recursive
  known x hx := hkept x (h.known x hx)
  returned x hx := (h.returned x hx).imp_left (hkept x)
  entries := h.entries
  covered := h.covered

theorem eq_of_path (hr : r.Shape) {x y : TimerSection} (hx : x ∈ r.tree ∨ x = dummySection)
    (hy : y ∈ r.tree ∨ y = dummySection) (hp : x.path = y.path) : x = y := by
  rcases hx with hx | rfl
  · rcases hy with hy | rfl
    · exact hr.eq_of_path hx hy hp
    · exact absurd hp (hr.noDummy x hx)
  · rcases hy with hy | rfl
    · exact absurd hp.symm (hr.noDummy y hy)
    · rfl

theorem path_ne_nil (hr : r.Shape) {x : TimerSection} (hx : x ∈ r.tree ∨ x = dummySection) :
    x.path ≠ [] := by
  rcases hx with hx | rfl
  · exact hr.nonempty x hx
  · exact List.cons_ne_nil _ _

/-- Below a section that is read, on the way to another one, there is one of its subsections. -/
theorem exists_subsection (hr : r.Shape) {x y : TimerSection} (hx : x ∈ r.tree ∨ x = dummySection)
    (hy : y ∈ r.tree) (hbelow : x.path <:+ y.path) (hne : x.path ≠ y.path) :
    ∃ z ∈ r.subsections x, z.path <:+ y.path := by
  obtain ⟨name, hname⟩ := ReportWalk.exists_cons_suffix hbelow hne
  have hmem : name :: x.path ∈ r.tree.map (·.path) := by
    refine (hr.closed y hy _ (List.cons_ne_nil _ _) hname).resolve_right fun hdummy => ?_
    -- the dummy section is below nothing
    exact path_ne_nil hr hx (List.cons.inj hdummy).2
  obtain ⟨z, hz, hpath⟩ := List.mem_map.mp hmem
  exact ⟨z, Sections.mem_subsections.mpr ⟨hz, name, hpath⟩, hpath ▸ hname⟩

theorem visit (h : Reads q walk r) (hr : r.Shape) (hroot : q.root ∈ q.known ∨ q.root = dummySection)
    (hv : walk.visit r = some walk') : Reads q walk' r := by
  unfold ReportWalk.visit at hv
  split at hv
  · cases hv
  · next x rest hx =>
    -- `x` is read now; the report gets a node of it, unless it has one of its path
    obtain ⟨entry, hentry, rfl⟩ := Option.map_eq_some_iff.mp hv
    have hxmem : x ∈ walk.sections := by
      rw [ReportWalk.sections, hx]
      exact List.mem_append_right _ (List.mem_cons_self ..)
    have hold {n : ReportNode} (hn : n ∈ walk.report) : n ∈ addSubsection walk.report ⟨x, entry⟩ := by
      unfold addSubsection
      split_ifs
      · exact hn
      · exact List.mem_append_left _ hn
    have hnew {n : ReportNode} (hn : n ∈ addSubsection walk.report ⟨x, entry⟩) :
        n ∈ walk.report ∨ n = ⟨x, entry⟩ := by
      unfold addSubsection at hn
      split_ifs at hn
      · exact .inl hn
      · exact (List.mem_append.mp hn).imp_right List.mem_singleton.mp
    have hread : ∃ n ∈ addSubsection walk.report ⟨x, entry⟩, n.timerSection = x := by
      unfold addSubsection
      split_ifs with hany
      · -- a node of the same path is one of `x` itself
        obtain ⟨n, hn, hpath⟩ := List.any_eq_true.mp hany
        refine ⟨n, hn, eq_of_path hr (h.returned _ ?_) (h.returned x hxmem) (of_decide_eq_true hpath)⟩
        exact List.mem_append_left _ (List.mem_map_of_mem hn)
      · exact ⟨_, List.mem_append_right _ (List.mem_singleton_self _), rfl⟩
    refine ⟨h.recursive, h.known, ?_, ?_, ?_⟩
    · intro y hy
      rcases List.mem_append.mp hy with hy | hy
      · obtain ⟨n, hn, rfl⟩ := List.mem_map.mp hy
        rcases hnew hn with hn | rfl
        · exact h.returned _ (List.mem_append_left _ (List.mem_map_of_mem hn))
        · exact h.returned x hxmem
      · rcases List.mem_append.mp hy with hy | hy
        · split_ifs at hy
          · exact .inl (Sections.mem_subsections.mp hy).1
          · cases hy
        · refine h.returned y (List.mem_append_right _ ?_)
          rw [hx]
          exact List.mem_cons_of_mem x hy
    · intro n hn
      rcases hnew hn with hn | rfl
      · exact h.entries n hn
      · exact hentry
    · -- what the walk owes to `y` is paid when it reads `y`, and handed on when it reads above it
      intro y hknown hy
      rcases h.covered y hknown hy with ⟨n, hn, hsection⟩ | ⟨z, hz, hzy⟩
      · exact .inl ⟨n, hold hn, hsection⟩
      · rw [hx] at hz
        rcases List.mem_cons.mp hz with rfl | hz
        · by_cases heq : z = y
          · exact .inl (heq ▸ hread)
          · -- the walk goes on below `z`
            obtain ⟨hrec, hbelow⟩ := hzy.resolve_left heq
            have hzret := h.returned z hxmem
            have hyret : y ∈ r.tree ∨ y = dummySection := by
              rcases hknown with hy | rfl
              · exact .inl (h.known y hy)
              · exact hroot.imp_left (h.known _)
            have hne : z.path ≠ y.path := fun hp => heq (eq_of_path hr hzret hyret hp)
            have hytree : y ∈ r.tree := by
              refine hyret.resolve_right fun hdummy => ?_
              rw [hdummy] at hbelow hne
              refine hne (hbelow.eq_of_length_le ?_)
              exact List.length_pos_iff.mpr (path_ne_nil hr hzret)
            obtain ⟨c, hc, hcy⟩ := exists_subsection hr hzret hytree hbelow hne
            refine .inr ⟨c, List.mem_append_left _ ?_, .inr ⟨hrec, hcy⟩⟩
            rw [h.recursive, hrec]
            exact hc
        · exact .inr ⟨z, List.mem_append_right _ hz, hzy⟩

end Asked.Reads

namespace History

/-- Collected by an exiting thread, and not merged. -/
def Exiting (t : History) (p : Sample × ℕ) : Prop :=
  ∃ g ∈ t.collectors, ∃ log ∈ g.copied, p ∈ log

/-- In a collector of the list, at a position or behind it. -/
def From (t : History) (pos : ℕ) (p : Sample × ℕ) : Prop :=
  ∃ j g, pos ≤ j ∧ t.collectors[j]? = some g ∧ p ∈ g.log

/-- The samples that a flush must find, those since the total was cleared that come before its begin,
are in the total, or they are with an exiting thread or in one more place. -/
def Covered (t : History) (begun : ℕ) (Place : Sample × ℕ → Prop) : Prop :=
  ∀ p ∈ t.state.accepted.zipIdx, t.clearedAt ≤ p.2 → p.2 < begun →
    p ∈ t.total ∨ t.Exiting p ∨ Place p

/-- The samples that a report should count: accepted before its flush began, and not cleared. -/
def preceding (t : History) (begun : ℕ) (q : Asked) : List Sample :=
  (t.state.accepted.take begun).drop q.clearedAt

/-- A report that is being made has all the preceding samples in its copy. -/
structure Answers (t : History) (begun : ℕ) (q : Asked) (walk : ReportWalk) : Prop where
  begun_le : begun ≤ t.state.accepted.length
  root : q.root ∈ q.known ∨ q.root = dummySection
  reads : q.Reads walk t.state.sections
  sampled : ∀ x ∈ t.preceding begun q, x.index = kEmptyCollectorIndex ∨
    ∃ y ∈ q.known, y.collectorIndex = x.index
  counted : ∃ rest,
    walk.collected = ((t.preceding begun q).map Sample.entries).sum + rest

end History

namespace History

/-- When a step collects the total for a `GetReport`, what had been accepted when its flush began. -/
def collecting (t : History) : Action → Option ℕ
  | .step k =>
    match t.state.calls[k]?, t.calls[k]? with
    | some (.collectTotal (.getReport _ _)), some g => some g.begun
    | _, _ => none
  | _ => none

/-- No thread that exits has collected and not merged a sample that the report should count. -/
def NoneExiting (t : History) (a : Action) : Prop :=
  ∀ begun ∈ t.collecting a, ∀ c ∈ t.collectors, ∀ log ∈ c.copied, ∀ p ∈ log,
    t.clearedAt ≤ p.2 → begun ≤ p.2

instance (t : History) (a : Action) : Decidable (t.NoneExiting a) :=
  inferInstanceAs (Decidable (∀ begun ∈ t.collecting a, ∀ c ∈ t.collectors, ∀ log ∈ c.copied,
    ∀ p ∈ log, t.clearedAt ≤ p.2 → begun ≤ p.2))

end History

/-- The flush of a call is for a report. -/
def Then.isCollect : Then → Bool
  | .collect _ => true
  | .done | .report _ _ => false

def Phase.isFlushing : Phase → Bool
  | .flushing _ _ _ => true
  | _ => false

/-- What a call has done of its work. -/
def CallLog.Tracks (t : History) (phase : Phase) (g : CallLog) : Prop :=
  match phase with
  | .flush _ | .getMainSection _ _ =>
      g.copied = none ∧ g.asked = none ∧ g.begun ≤ t.state.accepted.length
  | .flushing next pos none => g.copied = none ∧ g.asked = none ∧
      (next.isCollect = true → g.begun ≤ t.state.accepted.length ∧
        t.Covered g.begun (t.From pos))
  | .flushing next pos (some copy) => ∃ log, g.copied = some log ∧ copy = Log.entries log ∧
      g.asked = none ∧ (next.isCollect = true → g.begun ≤ t.state.accepted.length ∧
        t.Covered g.begun fun p => p ∈ log ∨ t.From (pos + 1) p)
  | .collectTotal _ => g.copied = none ∧ g.asked = none ∧
      g.begun ≤ t.state.accepted.length ∧ t.Covered g.begun fun _ => False
  | .reporting _ walk => g.copied = none ∧ ∀ q ∈ g.asked, t.Answers g.begun q walk

/-- What a collector has is what the history says. -/
structure CollectorLog.Tracks (c : Collector) (g : CollectorLog) : Prop where
  entries : c.entries = Log.entries g.log
  copies : c.deleter.copies = g.copied.map Log.entries
  exiting : c.deleter ≠ .notRunning → g.log = []

/-- The list of collectors is locked for one flush at a time. -/
def State.Locked (s : State) : Prop :=
  (s.calls.map fun phase => if phase.isFlushing then 1 else 0).sum =
    if s.listLocked then 1 else 0

/-- In a copy that a flush has not merged. -/
def History.Flushed (t : History) (p : Sample × ℕ) : Prop :=
  ∃ g ∈ t.calls, ∃ log ∈ g.copied, p ∈ log

/-- The history is right, and every sample since the total was cleared is somewhere. -/
structure History.Inv (t : History) : Prop where
  state : Sound t.state
  returned : ∀ phase ∈ t.state.calls, ∀ x ∈ phase.toRead, t.state.Returned x
  locked : t.state.Locked
  cleared : t.clearedAt ≤ t.state.accepted.length
  total : t.state.total = Log.entries t.total
  collectors : List.Forall₂ CollectorLog.Tracks t.state.collectors t.collectors
  calls : List.Forall₂ (CallLog.Tracks t) t.state.calls t.calls
  placed : t.Covered t.state.accepted.length fun p => t.From 0 p ∨ t.Flushed p

theorem initial_locked : Timer.initial.Locked := rfl

theorem Log.entries_append (log log' : Log) :
    Log.entries (log ++ log') = Log.entries log + Log.entries log' := by
  rw [Log.entries, List.map_append, List.sum_append]
  rfl

section Locks
variable {s : State} {k : ℕ} {phase : Phase}

theorem State.Locked.not_flushing (h : s.Locked) (hfree : s.listLocked = false) {phase : Phase}
    (hp : phase ∈ s.calls) : phase.isFlushing = false := by
  rw [State.Locked, hfree] at h
  have hzero := ListSums.eq_zero_of_sum_map_eq_zero (fun p : Phase => if p.isFlushing then 1 else 0)
    (fun a b hab => by omega) h hp
  simpa using hzero

/-- While one call flushes no other does. -/
theorem State.Locked.not_flushing_other (h : s.Locked) (hk : s.calls[k]? = some phase)
    (hflush : phase.isFlushing = true) {phase' : Phase} (hp : phase' ∈ s.calls.eraseIdx k) :
    phase'.isFlushing = false := by
  have hsum := ListSums.sum_map_eraseIdx (fun p : Phase => if p.isFlushing then 1 else 0) hk
  rw [h, if_pos hflush] at hsum
  have hrest : ((s.calls.eraseIdx k).map fun p => if p.isFlushing then 1 else 0).sum = 0 := by
    split at hsum <;> omega
  have hzero := ListSums.eq_zero_of_sum_map_eq_zero (fun p : Phase => if p.isFlushing then 1 else 0)
    (fun a b hab => by omega) hrest hp
  simpa using hzero

theorem locked_set {s' : State} {phase' : Phase} (h : s.Locked) (hk : s.calls[k]? = some phase)
    (hcalls : s'.calls = s.calls.set k phase')
    (hlock : (if s'.listLocked then 1 else 0) + (if phase.isFlushing then 1 else 0) =
      (if s.listLocked then 1 else 0) + if phase'.isFlushing then 1 else 0) : s'.Locked := by
  have hset := ListSums.sum_map_set_add (fun p : Phase => if p.isFlushing then 1 else 0) hk phase'
  rw [h] at hset
  rw [State.Locked, hcalls]
  omega

theorem locked_eraseIdx {s' : State} (h : s.Locked) (hk : s.calls[k]? = some phase)
    (hcalls : s'.calls = s.calls.eraseIdx k)
    (hlock : (if s'.listLocked then 1 else 0) + (if phase.isFlushing then 1 else 0) =
      if s.listLocked then 1 else 0) : s'.Locked := by
  have herase := ListSums.sum_map_eraseIdx (fun p : Phase => if p.isFlushing then 1 else 0) hk
  rw [h] at herase
  rw [State.Locked, hcalls]
  omega

/-- A call that flushes has the lock. -/
theorem State.Locked.listLocked (h : s.Locked) (hk : s.calls[k]? = some phase)
    (hflush : phase.isFlushing = true) : s.listLocked = true := by
  by_contra hfree
  rw [Bool.not_eq_true] at hfree
  have hnot := h.not_flushing hfree (List.mem_of_getElem? hk)
  rw [hflush] at hnot
  cases hnot

theorem locked_step {t t' : History} {a : Action} (h : t.state.Locked) (hs : HistoryStep t a t') :
    t'.state.Locked := by
  have hlocked {phase : Phase} {k : ℕ} (hk : t.state.calls[k]? = some phase)
      (hflush : phase.isFlushing = true) : t.state.listLocked = true := h.listLocked hk hflush
  cases hs with
  | sections | newCollector | reported | exitCollect | exitMerge | exitErase => exact h
  | newCall r next =>
    rw [State.Locked, ListSums.sum_map_concat]
    exact h
  | flushBegin hfree hk =>
    apply locked_set h hk rfl
    rw [hfree]
    rfl
  | flushCollect hk | flushMerge hk => exact locked_set h hk rfl rfl
  | flushDone hk =>
    apply locked_eraseIdx h hk rfl
    rw [hlocked hk rfl]
    rfl
  | flushEnd hk hend hphase =>
    apply locked_set h hk rfl
    rw [hlocked hk rfl]
    rcases hphase with ⟨request, -, rfl⟩ | ⟨clear, walk, -, rfl⟩ <;> rfl
  | collectReport hk | collectAll hk | mainSection hk | visit hk => exact locked_set h hk rfl rfl
  | finish hk => exact locked_eraseIdx h hk rfl rfl

end Locks

section Contents
variable {t t' : History} {a : Action}

theorem tracks_collectors (h : t.Inv) (hs : HistoryStep t a t') :
    List.Forall₂ CollectorLog.Tracks t'.state.collectors t'.collectors := by
  have hset {k : ℕ} {c c' : Collector} {f : CollectorLog → CollectorLog}
      (hk : t.state.collectors[k]? = some c) (hf : ∀ g, CollectorLog.Tracks c g →
        CollectorLog.Tracks c' (f g)) :
      List.Forall₂ CollectorLog.Tracks (t.state.collectors.set k c') (t.collectors.modify k f) := by
    obtain ⟨g, hg, hcg⟩ := PairedLists.getElem?_left h.collectors hk
    exact PairedLists.set_modify (PairedLists.eraseIdx h.collectors k) hg h.collectors.length_eq
      (hf g hcg)
  cases hs with
  | newCollector => exact PairedLists.concat h.collectors ⟨rfl, rfl, fun _ => rfl⟩
  | @reported k index duration entries entries' hk hindex he =>
    refine hset hk fun g hg => ⟨?_, hg.copies, fun hrun => absurd rfl hrun⟩
    change entries' = Log.entries (g.log ++ _)
    rw [he, Log.entries_append, ← hg.entries]
    exact congrArg (entries + ·) (add_zero _).symm
  | @exitCollect k entries hk =>
    refine hset hk fun g hg => ⟨rfl, ?_, fun _ => rfl⟩
    exact congrArg (fun e : Entries => [e]) hg.entries
  | @exitMerge k entries copy hk =>
    exact hset hk fun g hg => ⟨hg.entries, rfl, fun _ => hg.exiting (fun hrun => nomatch hrun)⟩
  | exitErase => exact PairedLists.eraseIdx h.collectors _
  | @flushCollect k pos next c g hk hpos hg =>
    exact hset hpos fun g hg => ⟨rfl, hg.copies, fun _ => rfl⟩
  | sections | newCall | flushBegin | flushMerge | flushDone | flushEnd | collectReport | collectAll
  | mainSection | visit | finish => exact h.collectors

/-- A merge adds what the history says. -/
theorem total_merge (h : t.Inv) {copy : Entries} {log : Log} (hcopy : copy = Log.entries log) :
    t.state.total.merge copy = Log.entries (t.total ++ log) := by
  rw [Entries.merge_eq_add, Log.entries_append, h.total, hcopy]

theorem tracks_total (h : t.Inv) (hs : HistoryStep t a t') :
    t'.state.total = Log.entries t'.total := by
  cases hs with
  | @exitMerge k entries copy hk =>
    obtain ⟨g, hg, hcg⟩ := PairedLists.getElem?_left h.collectors hk
    -- the deleter has one copy
    obtain ⟨log, hlog, hcopy⟩ : ∃ log, g.copied = [log] ∧ Log.entries log = copy := by
      have hcopies : g.copied.map Log.entries = [copy] := hcg.copies.symm
      exact List.map_eq_singleton_iff.mp hcopies
    have hmerge := total_merge h hcopy.symm
    simpa [hg, hlog] using hmerge
  | @flushMerge k pos next copy hk =>
    obtain ⟨g, hg, log, hlog, hcopy, -⟩ := PairedLists.getElem?_left h.calls hk
    have hmerge := total_merge h hcopy
    simpa [hg, hlog] using hmerge
  | @collectAll k clear =>
    cases clear
    · exact h.total
    · rfl
  | sections | newCollector | reported | exitCollect | exitErase | newCall | flushBegin | flushCollect
  | flushDone | flushEnd | collectReport | mainSection | visit | finish => exact h.total

/-- What is in the total or with an exiting thread stays there until it is merged or cleared, and
accepted samples stay accepted. -/
structure Flows (t t' : History) : Prop where
  accepted : ∃ new, t'.state.accepted = t.state.accepted ++ new
  cleared : t.clearedAt ≤ t'.clearedAt
  kept : ∀ p, p.2 < t.state.accepted.length → t'.clearedAt ≤ p.2 →
    p ∈ t.total ∨ t.Exiting p → p ∈ t'.total ∨ t'.Exiting p

theorem flows_of_eq (haccepted : t'.state.accepted = t.state.accepted)
    (hcleared : t'.clearedAt = t.clearedAt) (htotal : ∀ p ∈ t.total, p ∈ t'.total)
    (hexiting : ∀ p, t.Exiting p → p ∈ t'.total ∨ t'.Exiting p) : Flows t t' := by
  refine ⟨⟨[], by rw [haccepted, List.append_nil]⟩, Nat.le_of_eq hcleared.symm, fun p _ _ hp => ?_⟩
  rcases hp with hp | hp
  · exact .inl (htotal p hp)
  · exact hexiting p hp

theorem exiting_modify {k : ℕ} {f : CollectorLog → CollectorLog} {p : Sample × ℕ}
    (hcollectors : t'.collectors = t.collectors.modify k f)
    (hf : ∀ g, ∀ log ∈ g.copied, log ∈ (f g).copied) (hp : t.Exiting p) : t'.Exiting p := by
  obtain ⟨g, hg, log, hlog, hmem⟩ := hp
  obtain ⟨j, hj⟩ := List.mem_iff_getElem?.mp hg
  refine ⟨if k = j then f g else g, ?_, log, ?_, hmem⟩
  · rw [hcollectors]
    apply List.mem_iff_getElem?.mpr
    refine ⟨j, ?_⟩
    rw [List.getElem?_modify, hj]
    rfl
  · split_ifs
    · exact hf g log hlog
    · exact hlog

theorem flows_step (h : t.Inv) (hs : HistoryStep t a t') : Flows t t' := by
  cases hs with
  | newCollector =>
    refine flows_of_eq rfl rfl (fun _ => id) fun p hp => .inr ?_
    obtain ⟨g, hg, hlog⟩ := hp
    exact ⟨g, List.mem_append_left _ hg, hlog⟩
  | reported =>
    refine ⟨⟨_, rfl⟩, Nat.le_refl _, fun p _ _ hp => hp.imp_right fun hp => ?_⟩
    exact exiting_modify rfl (fun g log hlog => hlog) hp
  | @exitCollect k entries hk =>
    refine flows_of_eq rfl rfl (fun _ => id) fun p hp => .inr ?_
    obtain ⟨g, hg, log, hlog, hmem⟩ := hp
    obtain ⟨g', hg', hcg⟩ := PairedLists.getElem?_left h.collectors hk
    rcases PairedLists.mem_modify_of_mem hg' hg with hg | rfl
    · exact ⟨g, hg, log, hlog, hmem⟩
    · -- this thread has not collected before
      have hnone : g.copied.map Log.entries = [] := hcg.copies.symm
      rw [List.map_eq_nil_iff.mp hnone] at hlog
      cases hlog
  | @exitMerge k entries copy hk =>
    refine flows_of_eq rfl rfl (fun _ => List.mem_append_left _) fun p hp => ?_
    obtain ⟨g, hg, log, hlog, hmem⟩ := hp
    obtain ⟨g', hg', -⟩ := PairedLists.getElem?_left h.collectors hk
    rcases PairedLists.mem_modify_of_mem (f := fun g => { g with copied := [] }) hg' hg with hg | rfl
    · exact .inr ⟨g, hg, log, hlog, hmem⟩
    · refine .inl (List.mem_append_right _ ?_)
      rw [hg']
      exact List.mem_flatten.mpr ⟨log, hlog, hmem⟩
  | @exitErase k entries hfree hk =>
    refine flows_of_eq rfl rfl (fun _ => id) fun p hp => .inr ?_
    obtain ⟨g, hg, log, hlog, hmem⟩ := hp
    obtain ⟨g', hg', hcg⟩ := PairedLists.getElem?_left h.collectors hk
    rcases PairedLists.mem_eraseIdx_of_mem hg' hg with hg | rfl
    · exact ⟨g, hg, log, hlog, hmem⟩
    · have hnone : g.copied.map Log.entries = [] := hcg.copies.symm
      rw [List.map_eq_nil_iff.mp hnone] at hlog
      cases hlog
  | flushCollect =>
    refine flows_of_eq rfl rfl (fun _ => id) fun p hp => .inr ?_
    exact exiting_modify rfl (fun g log hlog => hlog) hp
  | flushMerge => exact flows_of_eq rfl rfl (fun _ => List.mem_append_left _) fun _ => .inr
  | @collectAll k clear =>
    cases clear
    · exact flows_of_eq rfl rfl (fun _ => id) fun _ => .inr
    · -- whatever was accepted so far is cleared
      exact ⟨⟨[], (List.append_nil _).symm⟩, h.cleared,
        fun p hlt hle => absurd hle (Nat.not_le_of_lt hlt)⟩
  | sections | newCall | flushBegin | flushDone | flushEnd | collectReport | mainSection | visit
  | finish => exact flows_of_eq rfl rfl (fun _ => id) fun _ => .inr

theorem mem_zipIdx_of_lt {l new : List Sample} {p : Sample × ℕ} (hp : p ∈ (l ++ new).zipIdx)
    (hlt : p.2 < l.length) : p ∈ l.zipIdx := by
  rw [List.mem_zipIdx_iff_getElem?] at hp ⊢
  rw [List.getElem?_append_left hlt] at hp
  exact hp

theorem Flows.covered (hflow : Flows t t') {begun : ℕ} {Place Place' : Sample × ℕ → Prop}
    (h : t.Covered begun Place) (hb : begun ≤ t.state.accepted.length)
    (hplace : ∀ p, Place p → p ∈ t'.total ∨ t'.Exiting p ∨ Place' p) :
    t'.Covered begun Place' := by
  intro p hp hclear hlt
  obtain ⟨new, hnew⟩ := hflow.accepted
  -- the flush owes nothing to samples that came after its begin
  have hold := Nat.lt_of_lt_of_le hlt hb
  rw [hnew] at hp
  rcases h p (mem_zipIdx_of_lt hp hold) (hflow.cleared.trans hclear) hlt with hp | hp | hp
  · exact (hflow.kept p hold hclear (.inl hp)).imp_right .inl
  · exact (hflow.kept p hold hclear (.inr hp)).imp_right .inl
  · exact hplace p hp

theorem Flows.begun_le (hflow : Flows t t') {begun : ℕ} (hb : begun ≤ t.state.accepted.length) :
    begun ≤ t'.state.accepted.length := by
  obtain ⟨new, hnew⟩ := hflow.accepted
  rw [hnew, List.length_append]
  omega

theorem Flows.preceding (hflow : Flows t t') {begun : ℕ} (hb : begun ≤ t.state.accepted.length)
    (q : Asked) : t'.preceding begun q = t.preceding begun q := by
  obtain ⟨new, hnew⟩ := hflow.accepted
  rw [History.preceding, History.preceding, hnew, List.take_append_of_le_length hb]

/-- The step of another call, or of a thread, leaves a call what it has. -/
theorem Flows.tracks (hflow : Flows t t') (hkept : ∀ x ∈ t.state.sections.tree,
      x ∈ t'.state.sections.tree) {phase : Phase} {g : CallLog}
    (hfrom : phase.isFlushing = true → ∀ pos p, t.From pos p → t'.Exiting p ∨ t'.From pos p)
    (h : g.Tracks t phase) : g.Tracks t' phase := by
  cases phase with
  | flush next | getMainSection clear collected => exact ⟨h.1, h.2.1, hflow.begun_le h.2.2⟩
  | flushing next pos collected =>
    cases collected with
    | none =>
      obtain ⟨hcopied, hasked, hcollect⟩ := h
      refine ⟨hcopied, hasked, fun hc => ?_⟩
      obtain ⟨hb, hcovered⟩ := hcollect hc
      -- what is ahead of the flush stays ahead of it, or an exiting thread takes it
      exact ⟨hflow.begun_le hb, hflow.covered hcovered hb fun p hp => .inr (hfrom rfl pos p hp)⟩
    | some copy =>
      obtain ⟨log, hcopied, hcopy, hasked, hcollect⟩ := h
      refine ⟨log, hcopied, hcopy, hasked, fun hc => ?_⟩
      obtain ⟨hb, hcovered⟩ := hcollect hc
      refine ⟨hflow.begun_le hb, hflow.covered hcovered hb fun p hp => .inr ?_⟩
      rcases hp with hp | hp
      · exact .inr (.inl hp)
      · exact (hfrom rfl (pos + 1) p hp).imp_right .inr
  | collectTotal request =>
    obtain ⟨hcopied, hasked, hb, hcovered⟩ := h
    exact ⟨hcopied, hasked, hflow.begun_le hb, hflow.covered hcovered hb fun p hp => hp.elim⟩
  | reporting clear walk =>
    refine ⟨h.1, fun q hq => ?_⟩
    obtain ⟨hb, hroot, hreads, hsampled, hcounted⟩ := h.2 q hq
    have hpre := hflow.preceding hb q
    exact ⟨hflow.begun_le hb, hroot, hreads.grow hkept, hpre.symm ▸ hsampled, hpre.symm ▸ hcounted⟩

/-- A call that does not flush has no copy that it has not merged. -/
theorem CallLog.Tracks.copied_eq_none {phase : Phase} {g : CallLog} (h : g.Tracks t phase)
    (hphase : phase.isFlushing = false) : g.copied = none := by
  cases phase with
  | flushing => cases hphase
  | flush | getMainSection | collectTotal | reporting => exact h.1

/-- Where a step outside of the calls moves what a collector has, if it does not erase it. -/
theorem from_step (hs : HistoryStep t a t') (hstep : ∀ k, a ≠ .step k)
    (hexit : ∀ k entries, a = .exit k → t.state.collectors[k]? ≠ some ⟨entries, .merged⟩)
    (pos : ℕ) (p : Sample × ℕ) (hp : t.From pos p) : t'.Exiting p ∨ t'.From pos p := by
  obtain ⟨j, g, hj, hg, hmem⟩ := hp
  have hmodify {k : ℕ} {f : CollectorLog → CollectorLog}
      (hcollectors : t'.collectors = t.collectors.modify k f) (hlog : p ∈ (f g).log) :
      t'.From pos p := by
    refine ⟨j, if k = j then f g else g, hj, ?_, ?_⟩
    · rw [hcollectors, List.getElem?_modify, hg]
      rfl
    · split_ifs
      · exact hlog
      · exact hmem
  cases hs with
  | newCollector =>
    refine .inr ⟨j, g, hj, ?_, hmem⟩
    obtain ⟨hlt, -⟩ := List.getElem?_eq_some_iff.mp hg
    exact (List.getElem?_append_left hlt).trans hg
  | reported => exact .inr (hmodify rfl (List.mem_append_left _ hmem))
  | @exitCollect k entries hk =>
    by_cases hkj : k = j
    · subst hkj
      exact .inl ⟨_, PairedLists.mem_modify_self hg, g.log, List.mem_singleton_self _, hmem⟩
    · refine .inr ⟨j, g, hj, ?_, hmem⟩
      exact (List.getElem?_modify_ne _ _ hkj).trans hg
  | exitMerge => exact .inr (hmodify rfl hmem)
  | exitErase hfree hk => exact absurd hk (hexit _ _ rfl)
  | flushCollect => exact absurd rfl (hstep _)
  | sections | newCall | flushBegin | flushMerge | flushDone | flushEnd | collectReport | collectAll
  | mainSection | visit | finish => exact .inr ⟨j, g, hj, hg, hmem⟩

/-- The total that `GetReport` collects has the preceding samples, when no exiting thread has any. -/
theorem counted_of_noneExiting (h : t.Inv) {begun : ℕ} {q : Asked} (hq : q.clearedAt = t.clearedAt)
    (hcovered : t.Covered begun fun _ => False)
    (hnone : ∀ c ∈ t.collectors, ∀ log ∈ c.copied, ∀ p ∈ log, t.clearedAt ≤ p.2 → begun ≤ p.2) :
    ∃ rest, t.state.total = ((t.preceding begun q).map Sample.entries).sum + rest := by
  -- with their numbers the preceding samples are all different, so that they are in the total as often
  -- as they were accepted
  have hnodup : ((t.preceding begun q).zipIdx t.clearedAt).Nodup := by
    apply List.Nodup.of_map Prod.snd
    rw [List.zipIdx_map_snd]
    exact List.nodup_range'
  have hsub : (t.preceding begun q).zipIdx t.clearedAt ⊆ t.total := by
    intro p hp
    rw [List.mem_zipIdx_iff_le_and_getElem?_sub, History.preceding, hq, List.getElem?_drop] at hp
    obtain ⟨hle, hget⟩ := hp
    rw [Nat.add_sub_cancel' hle, List.getElem?_take] at hget
    split_ifs at hget with hlt
    rcases hcovered p (List.mem_zipIdx_iff_getElem?.mpr hget) hle hlt with hp | hp | hp
    · exact hp
    · -- an exiting thread has none of them
      obtain ⟨c, hc, log, hlog, hmem⟩ := hp
      exact absurd (hnone c hc log hlog p hmem hle) (Nat.not_le_of_lt hlt)
    · exact hp.elim
  obtain ⟨rest, hrest⟩ := ListSums.sum_map_of_subset (fun p : Sample × ℕ => p.1.entries) hnodup hsub
  refine ⟨rest, ?_⟩
  rw [h.total, Log.entries, hrest]
  congr 2
  change List.map (Sample.entries ∘ Prod.fst) _ = _
  rw [← List.map_map, List.zipIdx_map_fst]

/-- While the list is free no call has a copy: what a flush is to cover is ahead of it. -/
theorem History.Inv.covered_of_free (h : t.Inv) (hfree : t.state.listLocked = false) {begun : ℕ}
    (hb : begun ≤ t.state.accepted.length) : t.Covered begun (t.From 0) := by
  intro p hp hclear hlt
  rcases h.placed p hp hclear (Nat.lt_of_lt_of_le hlt hb) with hp | hp | hp | ⟨g, hg, log, hlog, -⟩
  · exact .inl hp
  · exact .inr (.inl hp)
  · exact .inr (.inr hp)
  · obtain ⟨phase, hphase, htracks⟩ := PairedLists.exists_left h.calls hg
    rw [htracks.copied_eq_none (h.locked.not_flushing hfree hphase)] at hlog
    cases hlog

/-- No collector is behind the end of the list. -/
theorem History.Inv.not_from_of_end (h : t.Inv) {pos : ℕ} (hend : t.state.collectors[pos]? = none)
    (p : Sample × ℕ) : ¬ t.From pos p := by
  rintro ⟨j, g, hj, hg, -⟩
  have hlt := (List.getElem?_eq_some_iff.mp hg).1
  have hlen := List.getElem?_eq_none_iff.mp hend
  have heq := h.collectors.length_eq
  omega

/-- A flush that collects one collector has the samples of this one and goes on with the others. -/
theorem from_of_collect {pos : ℕ} {g : CollectorLog} (hg : t.collectors[pos]? = some g)
    (hcollectors : t'.collectors = t.collectors.modify pos fun g => { g with log := [] })
    {p : Sample × ℕ} (hp : t.From pos p) : p ∈ g.log ∨ t'.From (pos + 1) p := by
  obtain ⟨j, g', hj, hg', hmem⟩ := hp
  by_cases heq : pos = j
  · subst heq
    cases hg.symm.trans hg'
    exact .inl hmem
  · refine .inr ⟨j, g', by omega, ?_, hmem⟩
    rw [hcollectors]
    exact (List.getElem?_modify_ne _ _ heq).trans hg'

/-- Accepted samples were at indices that there were then, and so there are now. -/
theorem History.Inv.sampled_preceding (h : t.Inv) {begun : ℕ} {q : Asked}
    (hknown : q.known = t.state.sections.tree) : ∀ x ∈ t.preceding begun q,
      x.index = kEmptyCollectorIndex ∨ ∃ y ∈ q.known, y.collectorIndex = x.index := by
  intro x hx
  rw [hknown]
  have hmem : x ∈ t.state.accepted := List.mem_of_mem_take (List.mem_of_mem_drop hx)
  rcases h.state.sampled x hmem with hzero | hindex
  · exact .inl hzero
  · exact .inr (List.mem_map.mp hindex)

theorem tracks_calls (h : t.Inv) (hC : t.NoneExiting a) (hkept : ∀ x ∈ t.state.sections.tree,
      x ∈ t'.state.sections.tree) (hs : HistoryStep t a t') :
    List.Forall₂ (CallLog.Tracks t') t'.state.calls t'.calls := by
  have hflow := flows_step h hs
  have hall (hfrom : ∀ phase ∈ t.state.calls, phase.isFlushing = true → ∀ pos p, t.From pos p →
      t'.Exiting p ∨ t'.From pos p) :
      List.Forall₂ (CallLog.Tracks t') t.state.calls t.calls :=
    PairedLists.imp_of_mem h.calls fun phase hp g hg => hflow.tracks hkept (hfrom phase hp) hg
  have hothers {k : ℕ} (hfrom : ∀ phase ∈ t.state.calls.eraseIdx k, phase.isFlushing = true →
      ∀ pos p, t.From pos p → t'.Exiting p ∨ t'.From pos p) :
      List.Forall₂ (CallLog.Tracks t') (t.state.calls.eraseIdx k) (t.calls.eraseIdx k) :=
    PairedLists.imp_of_mem (PairedLists.eraseIdx h.calls k) fun phase hp g hg =>
      hflow.tracks hkept (hfrom phase hp) hg
  have hset {k : ℕ} {phase phase' : Phase} (hk : t.state.calls[k]? = some phase)
      (hfrom : ∀ phase ∈ t.state.calls.eraseIdx k, phase.isFlushing = true →
        ∀ pos p, t.From pos p → t'.Exiting p ∨ t'.From pos p)
      (hcall : ∀ g, t.calls[k]? = some g → g.Tracks t phase → g.Tracks t' phase') :
      List.Forall₂ (CallLog.Tracks t') (t.state.calls.set k phase') t.calls := by
    obtain ⟨g, hg, htracks⟩ := PairedLists.getElem?_left h.calls hk
    exact PairedLists.set (hothers hfrom) hg h.calls.length_eq (hcall g hg htracks)
  have hmodify {k : ℕ} {phase phase' : Phase} {f : CallLog → CallLog}
      (hk : t.state.calls[k]? = some phase)
      (hfrom : ∀ phase ∈ t.state.calls.eraseIdx k, phase.isFlushing = true →
        ∀ pos p, t.From pos p → t'.Exiting p ∨ t'.From pos p)
      (hcall : ∀ g, t.calls[k]? = some g → g.Tracks t phase → (f g).Tracks t' phase') :
      List.Forall₂ (CallLog.Tracks t') (t.state.calls.set k phase') (t.calls.modify k f) := by
    obtain ⟨g, hg, htracks⟩ := PairedLists.getElem?_left h.calls hk
    exact PairedLists.set_modify (hothers hfrom) hg h.calls.length_eq (hcall g hg htracks)
  cases hs with
  | sections r => exact hall fun _ _ _ pos p => .inr
  | newCollector hfree =>
    exact hall fun _ _ _ => from_step (.newCollector hfree) nofun nofun
  | reported hk hindex he =>
    exact hall fun _ _ _ => from_step (.reported hk hindex he) nofun nofun
  | @exitCollect k entries hk =>
    refine hall fun _ _ _ => from_step (.exitCollect hk) nofun fun k entries heq => ?_
    cases heq
    rw [hk]
    exact nofun
  | @exitMerge k entries copy hk =>
    refine hall fun _ _ _ => from_step (.exitMerge hk) nofun fun k entries heq => ?_
    cases heq
    rw [hk]
    exact nofun
  | exitErase hfree hk =>
    -- nothing is erased while a call flushes
    refine hall fun phase hp hflush => ?_
    rw [h.locked.not_flushing hfree hp] at hflush
    cases hflush
  | newCall r next =>
    exact PairedLists.concat (hall fun _ _ _ pos p => .inr) ⟨rfl, rfl, Nat.le_refl _⟩
  | @flushBegin k next hfree hk =>
    refine hset hk (fun _ _ _ pos p => .inr) fun g hg htracks => ?_
    obtain ⟨hcopied, hasked, hb⟩ := htracks
    exact ⟨hcopied, hasked, fun _ => ⟨hb, h.covered_of_free hfree hb⟩⟩
  | @flushCollect k pos next c g hk hpos hg =>
    have hnone (phase : Phase) (hp : phase ∈ t.state.calls.eraseIdx k)
        (hflush : phase.isFlushing = true) : False := by
      rw [h.locked.not_flushing_other hk rfl hp] at hflush
      cases hflush
    refine hmodify hk (fun phase hp hflush => (hnone phase hp hflush).elim) fun call hcall htracks => ?_
    obtain ⟨hcopied, hasked, hcollect⟩ := htracks
    have hentries : c.entries = Log.entries g.log := by
      obtain ⟨g', hg', hcg⟩ := PairedLists.getElem?_left h.collectors hpos
      cases hg.symm.trans hg'
      exact hcg.entries
    refine ⟨g.log, rfl, hentries, hasked, fun hc => ?_⟩
    obtain ⟨hb, hcovered⟩ := hcollect hc
    -- from this collector the samples go into the copy
    exact ⟨hb, hflow.covered hcovered hb fun p hp => .inr (.inr (from_of_collect hg rfl hp))⟩
  | @flushMerge k pos next copy hk =>
    refine hmodify hk (fun _ _ _ pos p => .inr) fun g hg htracks => ?_
    obtain ⟨log, hcopied, -, hasked, hcollect⟩ := htracks
    refine ⟨rfl, hasked, fun hc => ?_⟩
    obtain ⟨hb, hcovered⟩ := hcollect hc
    refine ⟨hb, hflow.covered hcovered hb fun p hp => ?_⟩
    rcases hp with hp | hp
    · -- and from the copy into the total
      refine .inl (List.mem_append_right _ ?_)
      rw [hg, Option.bind_some, hcopied]
      exact hp
    · exact .inr (.inr hp)
  | flushDone hk => exact hothers fun _ _ _ pos p => .inr
  | @flushEnd k pos next phase hk hend hphase =>
    refine hset hk (fun _ _ _ pos p => .inr) fun g hg htracks => ?_
    obtain ⟨hcopied, hasked, hcollect⟩ := htracks
    rcases hphase with ⟨request, rfl, rfl⟩ | ⟨clear, walk, rfl, rfl⟩
    · obtain ⟨hb, hcovered⟩ := hcollect rfl
      exact ⟨hcopied, hasked, hb, hflow.covered hcovered hb fun p hp =>
        (h.not_from_of_end hend p hp).elim⟩
    · refine ⟨hcopied, fun q hq => ?_⟩
      rw [hasked] at hq
      cases hq
  | @collectReport k root recursive hk =>
    refine hmodify hk (fun _ _ _ pos p => .inr) fun g hg htracks => ?_
    obtain ⟨hcopied, hasked, hb, hcovered⟩ := htracks
    refine ⟨hcopied, fun q hq => ?_⟩
    cases hq
    have hroot : root ∈ t.state.sections.tree ∨ root = dummySection :=
      h.returned _ (List.mem_of_getElem? hk) root (List.mem_singleton_self _)
    refine ⟨hb, hroot, .start _ hroot, h.sampled_preceding rfl, ?_⟩
    refine counted_of_noneExiting h rfl hcovered (hC g.begun ?_)
    simp [History.collecting, hk, hg]
  | @collectAll k clear hk =>
    refine hset hk (fun _ _ _ pos p => .inr) fun g hg htracks => ?_
    exact ⟨htracks.1, htracks.2.1, htracks.2.2.1⟩
  | mainSection hk =>
    exact hset hk (fun _ _ _ pos p => .inr) fun g hg htracks => htracks
  | @visit k clear walk walk' hk hv =>
    refine hset hk (fun _ _ _ pos p => .inr) fun g hg htracks => ⟨htracks.1, fun q hq => ?_⟩
    obtain ⟨hb, hroot, hreads, hsampled, hcounted⟩ := htracks.2 q hq
    refine ⟨hb, hroot, hreads.visit h.state.shape hroot hv, hsampled, ?_⟩
    rw [ReportWalk.visit_collected hv]
    exact hcounted
  | finish hk hdone => exact hothers fun _ _ _ pos p => .inr

/-- Copies stay with calls that go on. -/
theorem flushed_modify {k : ℕ} {f : CallLog → CallLog} {p : Sample × ℕ}
    (hcalls : t'.calls = t.calls.modify k f)
    (hf : ∀ g, t.calls[k]? = some g → ∀ log ∈ g.copied, log ∈ (f g).copied) (hp : t.Flushed p) :
    t'.Flushed p := by
  obtain ⟨g, hg, log, hlog, hmem⟩ := hp
  obtain ⟨j, hj⟩ := List.mem_iff_getElem?.mp hg
  refine ⟨if k = j then f g else g, ?_, log, ?_, hmem⟩
  · rw [hcalls]
    apply List.mem_iff_getElem?.mpr
    refine ⟨j, ?_⟩
    rw [List.getElem?_modify, hj]
    rfl
  · split_ifs with hkj
    · exact hf g (hkj ▸ hj) log hlog
    · exact hlog

/-- A call that ends has no copy. -/
theorem flushed_eraseIdx (h : t.Inv) {k : ℕ} {phase : Phase} (hk : t.state.calls[k]? = some phase)
    (hnone : ∀ g : CallLog, g.Tracks t phase → g.copied = none)
    (hcalls : t'.calls = t.calls.eraseIdx k) {p : Sample × ℕ} (hp : t.Flushed p) :
    t'.Flushed p := by
  obtain ⟨g, hg, log, hlog, hmem⟩ := hp
  obtain ⟨g', hg', htracks⟩ := PairedLists.getElem?_left h.calls hk
  rcases PairedLists.mem_eraseIdx_of_mem hg' hg with hg | rfl
  · exact ⟨g, hcalls ▸ hg, log, hlog, hmem⟩
  · rw [hnone g htracks] at hlog
    cases hlog

/-- Where the samples go that are in a collector or in the copy of a flush. -/
theorem placed_move (h : t.Inv) (hs : HistoryStep t a t') {p : Sample × ℕ}
    (hp : t.From 0 p ∨ t.Flushed p) :
    p ∈ t'.total ∨ t'.Exiting p ∨ t'.From 0 p ∨ t'.Flushed p := by
  have houtside (hstep : ∀ k, a ≠ .step k)
      (hexit : ∀ k entries, a = .exit k → t.state.collectors[k]? ≠ some ⟨entries, .merged⟩)
      (hcalls : t'.calls = t.calls) :
      p ∈ t'.total ∨ t'.Exiting p ∨ t'.From 0 p ∨ t'.Flushed p := by
    rcases hp with hp | hp
    · exact .inr ((from_step hs hstep hexit 0 p hp).imp_right .inl)
    · unfold History.Flushed at hp ⊢
      exact .inr (.inr (.inr (hcalls ▸ hp)))
  cases hs with
  | sections | flushBegin | flushEnd | collectAll | mainSection | visit => exact .inr (.inr hp)
  | newCollector | reported => exact houtside nofun nofun rfl
  | @exitCollect k entries hk | @exitMerge k entries copy hk =>
    refine houtside nofun (fun k entries heq => ?_) rfl
    cases heq
    rw [hk]
    exact nofun
  | @exitErase k entries hfree hk =>
    rcases hp with ⟨j, g, -, hg, hmem⟩ | hp
    · -- the deleter has left nothing behind
      obtain ⟨g', hg', hcg⟩ := PairedLists.getElem?_left h.collectors hk
      rcases PairedLists.mem_eraseIdx_of_mem hg' (List.mem_of_getElem? hg) with hg | rfl
      · obtain ⟨i, hi⟩ := List.mem_iff_getElem?.mp hg
        exact .inr (.inr (.inl ⟨i, g, Nat.zero_le _, hi, hmem⟩))
      · rw [hcg.exiting nofun] at hmem
        cases hmem
    · exact .inr (.inr (.inr hp))
  | newCall =>
    rcases hp with hp | ⟨g, hg, hlog⟩
    · exact .inr (.inr (.inl hp))
    · exact .inr (.inr (.inr ⟨g, List.mem_append_left _ hg, hlog⟩))
  | @flushCollect k pos next c g hk hpos hg =>
    obtain ⟨call, hcall, htracks⟩ := PairedLists.getElem?_left h.calls hk
    rcases hp with ⟨j, g', hj, hg', hmem⟩ | hp
    · by_cases heq : pos = j
      · subst heq
        cases hg.symm.trans hg'
        exact .inr (.inr (.inr ⟨_, PairedLists.mem_modify_self hcall, g.log, rfl, hmem⟩))
      · refine .inr (.inr (.inl ⟨j, g', hj, ?_, hmem⟩))
        exact (List.getElem?_modify_ne _ _ heq).trans hg'
    · refine .inr (.inr (.inr (flushed_modify rfl (fun g' hg' log hlog => ?_) hp)))
      -- the call has merged its last copy
      cases hcall.symm.trans hg'
      rw [htracks.1] at hlog
      cases hlog
  | @flushMerge k pos next copy hk =>
    obtain ⟨call, hcall, own, hown, -⟩ := PairedLists.getElem?_left h.calls hk
    rcases hp with hp | ⟨g, hg, log, hlog, hmem⟩
    · exact .inr (.inr (.inl hp))
    · rcases PairedLists.mem_modify_of_mem (f := fun g => { g with copied := none }) hcall hg
        with hg | rfl
      · exact .inr (.inr (.inr ⟨g, hg, log, hlog, hmem⟩))
      · refine .inl (List.mem_append_right _ ?_)
        rw [hcall, Option.bind_some, hlog]
        exact hmem
  | flushDone hk =>
    exact .inr (.inr (hp.imp_right (flushed_eraseIdx h hk (fun g hg => hg.1) rfl)))
  | collectReport =>
    exact .inr (.inr (hp.imp_right (flushed_modify rfl fun g _ log hlog => hlog)))
  | finish hk => exact .inr (.inr (hp.imp_right (flushed_eraseIdx h hk (fun g hg => hg.1) rfl)))

theorem placed_step (h : t.Inv) (hs : HistoryStep t a t') :
    t'.Covered t'.state.accepted.length fun p => t'.From 0 p ∨ t'.Flushed p := by
  have hold : t'.Covered t.state.accepted.length fun p => t'.From 0 p ∨ t'.Flushed p :=
    (flows_step h hs).covered h.placed (Nat.le_refl _) fun p hp => placed_move h hs hp
  cases hs with
  | @reported k index duration entries entries' hk hindex he =>
    intro p hp hclear hlt
    change p.2 < (t.state.accepted ++ [_]).length at hlt
    rw [List.length_append, List.length_singleton] at hlt
    by_cases hnew : p.2 < t.state.accepted.length
    · exact hold p hp hclear hnew
    · -- the sample that has just been accepted
      have hlast : p.2 = t.state.accepted.length := by omega
      obtain ⟨g, hg, -⟩ := PairedLists.getElem?_left h.collectors hk
      have hget := List.mem_zipIdx_iff_getElem?.mp hp
      rw [hlast, List.getElem?_concat_length] at hget
      have hp' : p = (⟨index, duration.toNat⟩, t.state.accepted.length) :=
        Prod.ext (Option.some.inj hget).symm hlast
      refine .inr (.inr (.inl ⟨k, { g with log := g.log ++ [p] }, Nat.zero_le _, ?_,
        List.mem_append_right _ (List.mem_singleton_self _)⟩))
      rw [List.getElem?_modify_eq, hg, hp']
      rfl
  | sections | newCollector | exitCollect | exitMerge | exitErase | newCall | flushBegin | flushCollect
  | flushMerge | flushDone | flushEnd | collectReport | collectAll | mainSection | visit | finish =>
    exact hold

theorem cleared_step (h : t.Inv) (hs : HistoryStep t a t') :
    t'.clearedAt ≤ t'.state.accepted.length := by
  cases hs with
  | reported =>
    change t.clearedAt ≤ (t.state.accepted ++ [_]).length
    rw [List.length_append]
    exact h.cleared.trans (Nat.le_add_right _ _)
  | @collectAll k clear =>
    cases clear
    · exact h.cleared
    · exact Nat.le_refl _
  | sections | newCollector | exitCollect | exitMerge | exitErase | newCall | flushBegin | flushCollect
  | flushMerge | flushDone | flushEnd | collectReport | mainSection | visit | finish =>
    exact h.cleared

theorem history_inv_step (h : t.Inv) (hC : t.NoneExiting a) (hs : history.step t a = some t') :
    t'.Inv := by
  obtain ⟨s, hnext, hs'⟩ := Option.map_eq_some_iff.mp hs
  have hstate : t.state.next a = some t'.state := by
    rw [hnext, ← hs']
  have hstep := historyStep_of_next h.collectors.length_eq hs
  have htimer := step_of_next hstate
  exact ⟨sound_step h.state htimer, returned_step h.state.shape h.returned hstate,
    locked_step h.locked hstep, cleared_step h hstep, tracks_total h hstep,
    tracks_collectors h hstep, tracks_calls h hC (sections_step htimer).kept hstep,
    placed_step h hstep⟩

end Contents

theorem history_initial_inv : History.initial.Inv where
  state := initial_sound
  returned _ hp := nomatch hp
  locked := initial_locked
  cleared := Nat.le_refl _
  total := rfl
  collectors := .nil
  calls := .nil
  placed _ hp := nomatch hp

namespace History

/-- When a `GetReport` returns in a step, its walk, what had been accepted when its flush began, and
what it was asked. -/
def returning (t : History) : Action → Option (ReportWalk × ℕ × Asked)
  | .step k =>
    match t.state.calls[k]?, t.calls[k]? with
    | some (.reporting _ walk), some ⟨begun, _, some q⟩ =>
      if walk.toVisit = [] then some (walk, begun, q) else none
    | _, _ => none
  | _ => none

/-- The durations of the samples of a section that a report should count. -/
def precedingAt (t : History) (begun : ℕ) (q : Asked) (x : TimerSection) : List ℕ :=
  ((t.preceding begun q).filter fun y => y.index = x.collectorIndex).map (·.duration)

/-- A section of the tree, or the root of the report. The samples at the index of a section that was
added after the report was collected may be those of another one, once the counter has wrapped. -/
def Reported (t : History) (q : Asked) (x : TimerSection) : Prop :=
  x ∈ q.known ∨ x = q.root ∨ (x ∈ t.state.sections.tree ∧ t.state.sections.NoWrap)

/-- A report that is returned has each section that it is about and that has a preceding sample, and
counts its preceding samples. -/
def CountsPreceding (t : History) (a : Action) : Prop :=
  ∀ walk begun q, t.returning a = some (walk, begun, q) →
    ∀ x, t.Reported q x → q.Covers x → t.precedingAt begun q x ≠ [] →
      ∃ n ∈ walk.report, n.timerSection = x ∧ n.entry.Counts (t.precedingAt begun q x)

end History

theorem answers_of_returning {t : History} {a : Action} (h : t.Inv) {walk : ReportWalk} {begun : ℕ}
    {q : Asked} (hret : t.returning a = some (walk, begun, q)) :
    t.Answers begun q walk ∧ walk.toVisit = [] := by
  unfold History.returning at hret
  split at hret
  · next k =>
    split at hret
    · next clear walk' begun' copied q' hk hg =>
      split_ifs at hret with hdone
      cases hret
      obtain ⟨g, hg', htracks⟩ := PairedLists.getElem?_left h.calls hk
      cases hg.symm.trans hg'
      exact ⟨htracks.2 q rfl, hdone⟩
    · cases hret
  · cases hret

theorem countsPreceding_of_inv {t : History} (h : t.Inv) (a : Action) : t.CountsPreceding a := by
  intro walk begun q hret x hx hcovers hsamples
  obtain ⟨hanswers, hdone⟩ := answers_of_returning h hret
  have hknown : x ∈ q.known ∨ x = q.root := by
    rcases hx with hx | hx | ⟨hx, hw⟩
    · exact .inl hx
    · exact .inr hx
    -- the section was there when the report was collected
    have hr := h.state.sections hw
    obtain ⟨d, hd⟩ := List.exists_mem_of_ne_nil _ hsamples
    obtain ⟨y, hy, -⟩ := List.mem_map.mp hd
    obtain ⟨hy, hindex⟩ := List.mem_filter.mp hy
    have hindex : y.index = x.collectorIndex := of_decide_eq_true hindex
    rcases hanswers.sampled y hy with hzero | ⟨z, hz, hzy⟩
    · -- no section of the tree has the empty index
      have hpos := (hr.bound x (List.mem_append_left _ hx)).1
      rw [← hindex, hzero] at hpos
      cases hpos
    · have heq := hr.eq_of_index (hanswers.reads.known z hz) hx (hzy.trans hindex)
      exact .inl (heq ▸ hz)
  have hread := hanswers.reads.covered x hknown hcovers
  rw [hdone] at hread
  obtain ⟨n, hn, rfl⟩ := hread.resolve_right fun ⟨z, hz, _⟩ => nomatch hz
  refine ⟨n, hn, rfl, ?_⟩
  obtain ⟨hlt, hentry⟩ := Entries.at?_eq_some (hanswers.reads.entries n hn)
  obtain ⟨rest, hrest⟩ := hanswers.counted
  refine ⟨rest ⟨_, hlt⟩, ?_⟩
  rw [hentry, hrest, Pi.add_apply, sum_entries_at]
  rfl

/-- In a run where no `GetReport` collects the total while an exiting thread has a preceding sample in
its hands, every report counts all the samples that precede it. -/
theorem preceding_samples_counted {as : List Action}
    (hc : history.StepsMeet History.NoneExiting .initial as) :
    history.StepsMeet History.CountsPreceding .initial as :=
  hc.imp_of_kept history_initial_inv (fun _ _ _ => history_inv_step)
    fun _ a h _ => countsPreceding_of_inv h a

def mainSection : TimerSection := ⟨mainPath, 1⟩

/-- A thread reports and exits while another one makes a report. -/
def exitingRun : List Action :=
  [.getMainSection, .step 0, .step 0, .getCollector, .report 0 1 5 true,
    .request (.getReport mainSection false), .exit 0, .step 0, .exit 0, .step 0, .step 0, .step 0,
    .step 0, .step 0]

theorem preceding_samples_counted_exitingRun :
    ((history.after .initial exitingRun).returning (.step 0)).map (fun r =>
      (r.1.report.map (·.entry.maxDurationNs), r.2.1)) = some ([5], 1) ∧
    history.StepsMeet History.CountsPreceding .initial (exitingRun ++ [.step 0]) :=
  ⟨by decide, preceding_samples_counted (by decide)⟩

/-- Here the thread has collected its samples before the flush and not merged them. -/
def missedRun : List Action :=
  [.getMainSection, .step 0, .step 0, .getCollector, .report 0 1 5 true, .exit 0,
    .request (.getReport mainSection false), .step 0, .step 0, .step 0, .step 0, .step 0, .step 0]

theorem preceding_sample_missed :
    ¬ ∀ as, history.StepsMeet History.CountsPreceding .initial as := by
  intro h
  have hrun : history.exec .initial missedRun = some (history.after .initial missedRun) :=
    history.exec_after (by decide)
  have hcounts := ((h (missedRun ++ [.step 0])).drop hrun).1
  -- the report has the main section, without any data
  have hshape : ((history.after .initial missedRun).returning (.step 0)).map (fun r =>
      (r.1.report.map (·.entry.maxDurationNs), r.2.1, r.2.2.root, r.2.2.clearedAt)) =
      some ([0], 1, mainSection, 0) := by decide
  obtain ⟨⟨walk, begun, q⟩, hret, heq⟩ := Option.map_eq_some_iff.mp hshape
  simp only [Prod.mk.injEq] at heq
  obtain ⟨hreport, rfl, hroot, hclear⟩ := heq
  have hpreceding : (history.after .initial missedRun).precedingAt 1 q mainSection = [5] := by
    have haccepted : (history.after .initial missedRun).state.accepted = [⟨1, 5⟩] := by decide
    rw [History.precedingAt, History.preceding, hclear, haccepted]
    rfl
  obtain ⟨n, hn, -, rest, hrest⟩ := hcounts walk 1 q hret mainSection (.inr (.inl hroot.symm))
    (.inl hroot.symm) (by rw [hpreceding]; exact List.cons_ne_nil _ _)
  have hzero : n.entry.maxDurationNs ∈ [0] := by
    rw [← hreport]
    exact List.mem_map_of_mem hn
  rw [List.mem_singleton, hrest, hpreceding, CollectorEntry.maxDurationNs_add,
    CollectorEntry.sum_single_maxDurationNs] at hzero
  simp at hzero

end CrisCore.Timer
