import CrisCore.TimerHandouts

/-! The indexes of the sections under races of `SubSection`, up to the capacity of the collectors and
beyond it. -/
namespace CrisCore.Timer

namespace Sections

/-- No section goes away, and an index that is taken was not taken before, unless the counter has
wrapped. -/
structure Draws (r r' : Sections) : Prop where
  kept : ∀ x ∈ r.tree, x ∈ r'.tree
  count : r.collectorIndexCount.drawn ≤ r'.collectorIndexCount.drawn
  drawn : r'.NoWrap → ∀ x ∈ r'.tree ++ r'.pending,
    x ∈ r.tree ++ r.pending ∨ r.collectorIndexCount.drawn < x.collectorIndex

theorem Draws.refl (r : Sections) : Draws r r := ⟨fun _ => id, Nat.le_refl _, fun _ _ => .inl⟩

theorem Draws.trans {r r' r'' : Sections} (h : Draws r r') (h' : Draws r' r'') : Draws r r'' where
  kept x hx := h'.kept x (h.kept x hx)
  count := h.count.trans h'.count
  drawn hw x hx := by
    rcases h'.drawn hw x hx with hx | hnew
    · exact h.drawn (h'.count.trans_lt hw) x hx
    · exact .inr (h.count.trans_lt hnew)

theorem Step.draws {r r' : Sections} (hs : r.Step r') : Draws r r' := by
  refine ⟨hs.kept, hs.drawn_le, fun hw x hx => ?_⟩
  cases hs with
  | same => exact .inl hx
  | getMainSection =>
    unfold Sections.getMainSection at hx hw
    split at hx
    · exact .inl hx
    · next hnone =>
      rw [hnone] at hw
      -- the index is the one that the counter was at
      have hindex := r.collectorIndexCount.toNat_value hw
      simp only [List.mem_append, List.mem_singleton] at hx ⊢
      rcases hx with (hx | rfl) | hx
      · exact .inl (.inl hx)
      · exact .inr (Nat.lt_of_succ_le hindex.ge)
      · exact .inl (.inr hx)
  | subSection =>
    unfold Sections.subSection at hx
    split at hx <;> exact .inl hx
  | fetchAdd he =>
    unfold Sections.fetchAdd at he
    split at he
    · cases he
    · cases he
      have hindex := r.collectorIndexCount.toNat_value hw
      rw [← List.append_assoc] at hx
      rcases List.mem_append.mp hx with hx | hx
      · exact .inl hx
      · rw [List.mem_singleton.mp hx]
        exact .inr (Nat.lt_of_succ_le hindex.ge)
  | emplace he =>
    obtain ⟨y, hk, rfl | ⟨rfl, -⟩⟩ := emplace_cases he
    · exact .inl (((List.Sublist.refl _).append (List.eraseIdx_sublist ..)).subset hx)
    · -- the index was taken before the call waited for the lock
      left
      rw [List.append_assoc, List.singleton_append] at hx
      rcases List.mem_append.mp hx with hx | hx
      · exact List.mem_append_left _ hx
      · refine List.mem_append_right _ ?_
        rcases List.mem_cons.mp hx with rfl | hx
        · exact List.mem_of_getElem? hk
        · exact List.mem_of_mem_eraseIdx hx

/-- An index that was taken stays with its section. -/
theorem Draws.eq_of_index {r r' : Sections} (h : Draws r r') (hr : r.Inv) (hw : r'.NoWrap)
    {x y : TimerSection} (hx : x ∈ r.tree ++ r.pending) (hy : y ∈ r'.tree ++ r'.pending)
    (hi : x.collectorIndex = y.collectorIndex) : x = y := by
  rcases h.drawn hw y hy with hold | hnew
  · exact List.inj_on_of_nodup_map hr.indexes hx hold hi
  · have hle := (hr.bound x hx).2
    omega

end Sections

/-- The sections whose entries a call is going to read, as far as it knows them. -/
def Request.toRead : Request → List TimerSection
  | .getReport timerSection _ => [timerSection]
  | .getAllReports _ => []

def Then.toRead : Then → List TimerSection
  | .done => []
  | .collect request => request.toRead
  | .report _ walk => walk.toVisit

def Phase.toRead : Phase → List TimerSection
  | .flush next | .flushing next _ _ => next.toRead
  | .collectTotal request => request.toRead
  | .getMainSection _ _ => []
  | .reporting _ walk => walk.toVisit

/-- A call is at a section that `GetMainSection` or `SubSection` has returned. -/
def State.Returned (s : State) (x : TimerSection) : Prop :=
  x ∈ s.sections.tree ∨ x = dummySection

section Steps
variable {s s' : State}

theorem draws_exec {as : List Action} (h : system.exec s as = some s') :
    s.sections.Draws s'.sections :=
  TransitionSystem.exec_induction (P := fun u => s.sections.Draws u.sections)
    (Sections.Draws.refl _) (fun _ _ _ hu hs => hu.trans (sections_step (step_of_next hs)).draws) h

/-- The calls read no other sections than those that were returned. -/
theorem returned_step {a : Action} (hr : s.sections.Shape)
    (h : ∀ phase ∈ s.calls, ∀ x ∈ phase.toRead, s.Returned x) (hs : s.next a = some s') :
    ∀ phase ∈ s'.calls, ∀ x ∈ phase.toRead, s'.Returned x := by
  have hkept {x : TimerSection} (hx : s.Returned x) : s'.Returned x := by
    rcases hx with hx | hdummy
    · exact .inl ((sections_step (step_of_next hs)).kept x hx)
    · exact .inr hdummy
  have hsame (hcalls : s'.calls = s.calls) :
      ∀ phase ∈ s'.calls, ∀ x ∈ phase.toRead, s'.Returned x := by
    rw [hcalls]
    exact fun phase hp x hx => hkept (h phase hp x hx)
  have hcall {next : Then} (hcalls : s'.calls = s.calls ++ [.flush next])
      (hnext : ∀ x ∈ next.toRead, s.Returned x) :
      ∀ phase ∈ s'.calls, ∀ x ∈ phase.toRead, s'.Returned x := by
    rw [hcalls]
    intro phase hp x hx
    rcases List.mem_append.mp hp with hp | hp
    · exact hkept (h phase hp x hx)
    · rw [List.mem_singleton.mp hp] at hx
      exact hkept (hnext x hx)
  -- a call goes on with what it was going to read and with sections of the tree
  have hset {k : ℕ} {phase phase' : Phase} (hk : s.calls[k]? = some phase)
      (hcalls : s'.calls = s.calls.set k phase')
      (hread : ∀ x ∈ phase'.toRead, x ∈ phase.toRead ∨ x ∈ s'.sections.tree) :
      ∀ phase ∈ s'.calls, ∀ x ∈ phase.toRead, s'.Returned x := by
    rw [hcalls]
    intro p hp x hx
    rcases List.mem_or_eq_of_mem_set hp with hp | rfl
    · exact hkept (h p hp x hx)
    · rcases hread x hx with hx | hx
      · exact hkept (h phase (List.mem_of_getElem? hk) x hx)
      · exact .inl hx
  have hend {k : ℕ} (hcalls : s'.calls = s.calls.eraseIdx k) :
      ∀ phase ∈ s'.calls, ∀ x ∈ phase.toRead, s'.Returned x := by
    rw [hcalls]
    exact fun phase hp x hx => hkept (h phase (List.mem_of_mem_eraseIdx hp) x hx)
  cases step_of_next hs with
  | newCollector | skipped | reported | exitCollect | exitMerge | exitErase | subSection | fetchAdd
  | emplace => exact hsame rfl
  | getMainSection | flushCollectedStats => exact hcall rfl fun x hx => nomatch hx
  | @request request hask =>
    refine hcall rfl fun x hx => ?_
    cases request with
    | getReport timerSection recursive =>
      rw [List.mem_singleton.mp hx]
      exact hask
    | getAllReports clear => cases hx
  | flushBegin hfree hk => exact hset hk rfl fun x hx => .inl hx
  | flushCollect hk | flushMerge hk => exact hset hk rfl fun x hx => .inl hx
  | flushDone hk => exact hend rfl
  | flushEnd hk hlast hphase =>
    refine hset hk rfl fun x hx => .inl ?_
    rcases hphase with ⟨request, rfl, rfl⟩ | ⟨clear, walk, rfl, rfl⟩ <;> exact hx
  | collectReport hk => exact hset hk rfl fun x hx => .inl hx
  | collectAll hk => exact hset hk rfl fun x hx => nomatch hx
  | mainSection hk =>
    refine hset hk rfl fun x hx => .inr ?_
    rw [List.mem_singleton.mp hx]
    exact (Sections.getMainSection_shape hr).2.1
  | @visit k clear walk walk' hk hv =>
    refine hset hk rfl fun x hx => ?_
    unfold ReportWalk.visit at hv
    split at hv
    · cases hv
    · next y rest hvisit =>
      obtain ⟨entry, -, rfl⟩ := Option.map_eq_some_iff.mp hv
      -- the subsections it has found are in the tree, and the rest was to be read before
      rcases List.mem_append.mp hx with hx | hx
      · split_ifs at hx
        · exact .inr (Sections.mem_subsections.mp hx).1
        · cases hx
      · refine .inl ?_
        change x ∈ walk.toVisit
        rw [hvisit]
        exact List.mem_cons_of_mem _ hx
  | finish => exact hend rfl

end Steps

theorem reachable_returned {s : State} (h : system.Reachable s) :
    ∀ phase ∈ s.calls, ∀ x ∈ phase.toRead, s.Returned x := by
  refine TransitionSystem.Reachable.invariant_of_reachable
    (P := fun s => ∀ phase ∈ s.calls, ∀ x ∈ phase.toRead, s.Returned x) h ?_ ?_
  · intro s hs phase hp
    cases hs
    cases hp
  · intro s a s' hreach hr hs
    exact returned_step (reachable_sound hreach).shape hr hs

theorem at?_isSome {index : ℕ} (h : index < kCollectorSize) (e : Entries) :
    (e.at? index).isSome = true := by
  rw [Entries.at?, dif_pos h]
  rfl

theorem report_isSome {index : ℕ} (h : index < kCollectorSize) (e : Entries) {duration : ℤ}
    (hd : 0 ≤ duration) : (e.report index duration).isSome = true := by
  rw [Entries.report, if_neg (not_lt.mpr hd), dif_pos h]
  rfl

theorem visit_isSome {walk : ReportWalk} {r : Sections} (hne : walk.toVisit ≠ [])
    (h : ∀ x ∈ walk.toVisit, x.collectorIndex < kCollectorSize) : (walk.visit r).isSome = true := by
  obtain ⟨x, rest, hx⟩ := List.exists_cons_of_ne_nil hne
  have hat := at?_isSome (h x (hx ▸ List.mem_cons_self ..)) walk.collected
  simp only [ReportWalk.visit, hx, Option.isSome_map, hat]

theorem lt_kCollectorSize {s : State} (h : s.sections.Shape) {index : ℕ} (hindex : s.HasIndex index) :
    index < kCollectorSize := by
  rcases hindex with rfl | hmem
  · decide
  · obtain ⟨x, hx, rfl⟩ := List.mem_map.mp hmem
    exact h.capacity x hx

/-- A section keeps its index, which is not beyond the collectors, so that no `Report` and no report of
a section leaves the bounds. Until the counter wraps an index belongs to one section for good, it is not
the empty index, and the statistics at it are those of the section's own samples. -/
theorem collector_indices_never_shared {s t : State} {as : List Action} (hs : system.Reachable s)
    (hrun : system.exec s as = some t) :
    (∀ x ∈ t.sections.tree, x.collectorIndex < kCollectorSize) ∧
    (∀ x ∈ s.sections.tree, x ∈ t.sections.tree) ∧
    (∀ index, t.HasIndex index → index < kCollectorSize ∧
      ∀ (entries : Entries) (duration : ℤ), 0 ≤ duration →
        (entries.report index duration).isSome = true) ∧
    (∀ clear walk, .reporting clear walk ∈ t.calls → walk.toVisit ≠ [] →
      (walk.visit t.sections).isSome = true) ∧
    (t.sections.NoWrap →
      (∀ x ∈ t.sections.tree, 1 ≤ x.collectorIndex ∧
        x.collectorIndex ≠ dummySection.collectorIndex) ∧
      ((t.sections.tree ++ t.sections.pending).map (·.collectorIndex)).Nodup ∧
      (∀ x ∈ s.sections.tree ++ s.sections.pending, ∀ y ∈ t.sections.tree ++ t.sections.pending,
        x.collectorIndex = y.collectorIndex → x = y) ∧
      ∀ x ∈ t.sections.tree, ∀ i : Fin kCollectorSize, i.val = x.collectorIndex →
        t.Accounts i (t.parts i)) := by
  have ht := hs.exec hrun
  have hsound := reachable_sound ht
  have hdraws := draws_exec hrun
  have hindex {index : ℕ} (hidx : t.HasIndex index) : index < kCollectorSize :=
    lt_kCollectorSize hsound.shape hidx
  refine ⟨hsound.shape.capacity, hdraws.kept, ?_, ?_, fun hw => ?_⟩
  · exact fun index hidx => ⟨hindex hidx, fun entries duration => report_isSome (hindex hidx) entries⟩
  · intro clear walk hcall hne
    refine visit_isSome hne fun x hx => ?_
    -- the dummy section reads the empty index
    rcases reachable_returned ht _ hcall x hx with hx | rfl
    · exact hsound.shape.capacity x hx
    · decide
  · have hr := hsound.sections hw
    have hws : s.sections.NoWrap := hdraws.count.trans_lt hw
    have hbound {x : TimerSection} (hx : x ∈ t.sections.tree) : 0 < x.collectorIndex :=
      (hr.bound x (List.mem_append_left _ hx)).1
    refine ⟨fun x hx => ⟨hbound hx, (hbound hx).ne'⟩, hr.indexes,
      fun x hx y hy => hdraws.eq_of_index ((reachable_sound hs).sections hws) hw hx hy, ?_⟩
    intro x hx i hix
    apply accounts_parts (reachable_inv ht hw) hsound
    rw [hix]
    exact (hbound hx).ne'

/-- Two calls look for the same subsection before either inserts it, and a third takes another name
meanwhile. -/
def namesRun : List Action :=
  [.getMainSection, .subSection mainPath "a", .subSection mainPath "a", .subSection mainPath "b",
    .fetchAdd 0, .fetchAdd 1, .fetchAdd 0, .emplace 2, .emplace 1]

theorem collector_indices_never_shared_namesRun :
    (system.after initial namesRun).sections.tree =
      [⟨mainPath, 1⟩, ⟨["a", "main"], 4⟩, ⟨["b", "main"], 3⟩] ∧
    ((system.after initial namesRun).sections.tree ++
      (system.after initial namesRun).sections.pending |>.map (·.collectorIndex)).Nodup := by
  have hrun : system.exec initial namesRun = some (system.after initial namesRun) :=
    system.exec_after (by decide)
  exact ⟨by decide,
    ((collector_indices_never_shared (.init init_initial) hrun).2.2.2.2 (by decide)).2.1⟩

/-! Runs that fill the table, and then go on with calls for one more name. -/

def name (n : ℕ) : String := String.ofList (List.replicate n 'x')

theorem name_injective {m n : ℕ} (h : name m = name n) : m = n := by
  have hlist := String.ofList_injective h
  have hlength := congrArg List.length hlist
  simpa only [List.length_replicate] using hlength

/-- The main section and `n` subsections, each of them created by itself. -/
def filledTree (n : ℕ) : List TimerSection :=
  ⟨mainPath, 1⟩ :: (List.range n).map fun i => ⟨name i :: mainPath, i + 2⟩

theorem filledTree_succ (n : ℕ) :
    filledTree (n + 1) = filledTree n ++ [⟨name n :: mainPath, n + 2⟩] := by
  simp only [filledTree, List.range_succ, List.map_append, List.map_singleton, List.cons_append]

theorem not_mem_filledTree (n : ℕ) {x : TimerSection} (hx : x ∈ filledTree n) :
    ¬ x.path = name n :: mainPath := by
  intro hpath
  rcases List.mem_cons.mp hx with rfl | hx
  · exact nomatch (List.cons.inj hpath).2
  · obtain ⟨i, hi, rfl⟩ := List.mem_map.mp hx
    have hname := name_injective (List.cons.inj hpath).1
    exact absurd (List.mem_range.mp hi) (by omega)

/-- The state after `GetMainSection`, with other sections. -/
def withSections (r : Sections) : State :=
  { initial with sections := r, calls := [.flush .done] }

def filled (n drawn : ℕ) : State := withSections ⟨.ofDrawn drawn, filledTree n, [], []⟩

section Fill
variable {n : ℕ} (c : CollectorIndexCount) (rest : List TimerSection) (as : List Action)

theorem find?_filledTree (paths : List Path) :
    (Sections.mk c (filledTree n) paths rest).find? (name n :: mainPath) = none := by
  apply List.find?_eq_none.mpr
  intro x hx
  rw [decide_eq_true_iff]
  exact not_mem_filledTree n hx

theorem exec_subSection (paths : List Path) :
    system.exec (withSections ⟨c, filledTree n, paths, rest⟩)
      (.subSection mainPath (name n) :: as) =
    system.exec (withSections ⟨c, filledTree n, paths ++ [name n :: mainPath], rest⟩) as := by
  have hparent : (Sections.mk c (filledTree n) paths rest).IsParent mainPath :=
    .inl (List.mem_map_of_mem (List.mem_cons_self ..))
  rw [TransitionSystem.exec_cons]
  simp only [system, State.next, withSections]
  rw [if_pos hparent, Sections.subSection, find?_filledTree]
  rfl

theorem exec_fetchAdd (d : ℕ) (path : Path) (paths : List Path) :
    system.exec (withSections ⟨.ofDrawn d, filledTree n, path :: paths, rest⟩) (.fetchAdd 0 :: as) =
    system.exec (withSections ⟨.ofDrawn (d + 1), filledTree n, paths,
      rest ++ [⟨path, (CollectorIndexCount.ofDrawn d).value.toNat⟩]⟩) as := by
  rw [← CollectorIndexCount.fetchAdd_ofDrawn]
  rfl

/-- With room left a call that gets the lock inserts the section. -/
theorem exec_inserted {index : ℕ} (hroom : index < kCollectorSize) :
    system.exec (withSections ⟨c, filledTree n, [], ⟨name n :: mainPath, index⟩ :: rest⟩)
      (.emplace 0 :: as) =
    system.exec (withSections ⟨c, filledTree n ++ [⟨name n :: mainPath, index⟩], [], rest⟩) as := by
  have hdrop : ¬ (kCollectorSize ≤ index ∨ ((Sections.mk c (filledTree n) []
      (⟨name n :: mainPath, index⟩ :: rest)).find? (name n :: mainPath)).isSome) := by
    rw [find?_filledTree]
    simpa using hroom
  rw [TransitionSystem.exec_cons]
  simp only [system, State.next, withSections, Sections.emplace, List.getElem?_cons_zero,
    Option.map_some, Option.bind_some, if_neg hdrop, List.eraseIdx_cons_zero]

/-- Without room it inserts none. -/
theorem exec_dropped {index : ℕ} (hfull : kCollectorSize ≤ index) (path : Path) :
    system.exec (withSections ⟨c, filledTree n, [], ⟨path, index⟩ :: rest⟩) (.emplace 0 :: as) =
    system.exec (withSections ⟨c, filledTree n, [], rest⟩) as := by
  rw [TransitionSystem.exec_cons]
  simp only [system, State.next, withSections, Sections.emplace, List.getElem?_cons_zero,
    Option.map_some, Option.bind_some, if_pos (Or.inl hfull), List.eraseIdx_cons_zero]

end Fill

theorem toNat_ofDrawn {d : ℕ} (h : d + 1 < 2 ^ 64) :
    (CollectorIndexCount.ofDrawn d).value.toNat = d + 1 :=
  CollectorIndexCount.toNat_value _ h

/-- One call for a name that is not there, from its lookup to its end. -/
def callFor (n : ℕ) : List Action := [.subSection mainPath (name n), .fetchAdd 0, .emplace 0]

theorem exec_callFor {n : ℕ} (d : ℕ) :
    system.exec (filled n d) (callFor n) = system.exec
      (withSections ⟨.ofDrawn (d + 1), filledTree n, [],
        [⟨name n :: mainPath, (CollectorIndexCount.ofDrawn d).value.toNat⟩]⟩) [.emplace 0] := by
  rw [callFor, filled, exec_subSection]
  exact exec_fetchAdd [] _ d _ []

def fillRun : ℕ → List Action
  | 0 => [.getMainSection]
  | n + 1 => fillRun n ++ callFor n

theorem exec_fillRun {n : ℕ} (hroom : n + 1 < kCollectorSize) :
    system.exec initial (fillRun n) = some (filled n (n + 1)) := by
  induction n with
  | zero => rfl
  | succ n ih =>
    have hlt : kCollectorSize < 2 ^ 64 := by decide
    rw [fillRun, system.exec_append_some (ih (Nat.lt_of_succ_lt hroom)), exec_callFor,
      toNat_ofDrawn (by omega), exec_inserted _ _ _ hroom, ← filledTree_succ]
    rfl

/-- Calls for the same name, each of which finds the table full. -/
def fullRun (n : ℕ) : ℕ → List Action
  | 0 => []
  | m + 1 => fullRun n m ++ callFor n

theorem exec_fullRun {n d m : ℕ} (hfull : kCollectorSize ≤ d + 1) (hwrap : d + m < 2 ^ 64) :
    system.exec (filled n d) (fullRun n m) = some (filled n (d + m)) := by
  induction m with
  | zero => rfl
  | succ m ih =>
    rw [fullRun, system.exec_append_some (ih (by omega)), exec_callFor, toNat_ofDrawn (by omega),
      exec_dropped _ _ _ (by omega)]
    rfl

/-- After 2^64 indexes the counter is at the index of the dummy section, which the next section
gets. -/
theorem dummy_index_given_after_wrap :
    ¬ ∀ s, system.Reachable s → ∀ x ∈ s.sections.tree,
      x.collectorIndex ≠ dummySection.collectorIndex := by
  intro h
  obtain ⟨n, hn⟩ : ∃ n, n + 2 = kCollectorSize := ⟨8190, rfl⟩
  obtain ⟨m, hm⟩ : ∃ m, n + 1 + m + 1 = 2 ^ 64 := by
    have hlt : kCollectorSize < 2 ^ 64 := by decide
    exact ⟨2 ^ 64 - (n + 2), by omega⟩
  have hfilled := exec_fillRun (n := n) (by omega)
  have hwrapped := exec_fullRun (n := n) (d := n + 1) (m := m) (by omega) (by omega)
  have hzero : (CollectorIndexCount.ofDrawn (n + 1 + m)).value.toNat = 0 := by
    change (UInt64.ofNat (n + 1 + m + 1)).toNat = 0
    rw [hm]
    rfl
  have hlast := exec_callFor (n := n) (n + 1 + m)
  rw [hzero, exec_inserted _ _ _ (by decide)] at hlast
  have hreach := (((TransitionSystem.Reachable.init init_initial).exec hfilled).exec hwrapped).exec hlast
  exact h _ hreach ⟨name n :: mainPath, 0⟩
    (List.mem_append_right _ (List.mem_singleton_self _)) rfl

end CrisCore.Timer
