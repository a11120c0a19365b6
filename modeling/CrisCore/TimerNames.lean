import CrisCore.TimerCapacity

/-! The names of the sections under races of `SubSection`: which section a call returns, and which one
it should return. -/
namespace CrisCore.Timer

namespace Sections

/-- What `SubSection` returns for a name and an index it has taken: the dummy section when there are
too many sections, otherwise the section that has the name after `emplace`. -/
def emplaced (r : Sections) (x : TimerSection) : TimerSection :=
  if kCollectorSize ≤ x.collectorIndex then dummySection else (r.find? x.path).getD x

/-- With room left, the call returns the section that has its name afterwards. -/
theorem emplaced_mem {r r' : Sections} {k : ℕ} {x : TimerSection} (hk : r.pending[k]? = some x)
    (he : r.emplace k = some r') (hsize : ¬ kCollectorSize ≤ x.collectorIndex) :
    r.emplaced x ∈ r'.tree ∧ (r.emplaced x).path = x.path := by
  rw [emplaced, if_neg hsize]
  unfold emplace at he
  rw [hk] at he
  cases he
  cases hfind : r.find? x.path with
  | some y =>
    obtain ⟨hy, hpath⟩ := find?_eq_some hfind
    rw [if_pos (.inr rfl)]
    exact ⟨hy, hpath⟩
  | none =>
    rw [if_neg (by simp [hsize])]
    exact ⟨List.mem_append_right _ (List.mem_singleton_self _), rfl⟩

end Sections

namespace State

/-- The path that a step of `SubSection` decides on and the section that the call returns. -/
def decision (s : State) : Action → Option (Path × TimerSection)
  | .subSection parent name => (s.sections.find? (name :: parent)).map fun x => (name :: parent, x)
  | .emplace k => s.sections.pending[k]?.map fun x => (x.path, s.sections.emplaced x)
  | _ => none

/-- A call that decides after a section of the name was inserted returns this section. -/
def ReturnsInserted (s : State) (a : Action) : Prop :=
  ∀ d ∈ s.decision a, ∀ x ∈ s.sections.tree, x.path = d.1 → d.2 = x

/-- A call that finds its name inserted when it gets the lock has an index below the capacity. -/
def RoomLeft (s : State) : Action → Prop
  | .emplace k => ∀ x ∈ s.sections.pending[k]?, x.path ∈ s.sections.tree.map (·.path) →
      x.collectorIndex < kCollectorSize
  | _ => True

instance (s : State) (a : Action) : Decidable (s.ReturnsInserted a) :=
  inferInstanceAs (Decidable (∀ d ∈ s.decision a, ∀ x ∈ s.sections.tree, x.path = d.1 → d.2 = x))

instance (s : State) : (a : Action) → Decidable (s.RoomLeft a)
  | .emplace k => inferInstanceAs (Decidable (∀ x ∈ s.sections.pending[k]?,
      x.path ∈ s.sections.tree.map (·.path) → x.collectorIndex < kCollectorSize))
  | .getCollector | .report .. | .exit _ | .getMainSection | .subSection .. | .fetchAdd _
  | .flushCollectedStats | .request _ | .step _ => .isTrue trivial

end State

namespace Sections.Shape
variable {r : Sections}

/-- Under the lock only the capacity stands between a call and the section of its name. -/
theorem emplaced_eq_iff (h : r.Shape) {x y : TimerSection} (hy : y ∈ r.tree)
    (hpath : y.path = x.path) : r.emplaced x = y ↔ x.collectorIndex < kCollectorSize := by
  unfold emplaced
  constructor
  · intro heq
    by_contra hroom
    -- then it is the dummy section that is returned
    rw [if_pos (Nat.le_of_not_lt hroom)] at heq
    exact h.dummySection_not_mem (heq ▸ hy)
  · intro hroom
    rw [if_neg (Nat.not_le_of_lt hroom)]
    cases hfind : r.find? x.path with
    | none => exact absurd (List.mem_map.mpr ⟨y, hy, hpath⟩) (find?_eq_none hfind)
    | some z =>
      obtain ⟨hz, hzpath⟩ := find?_eq_some hfind
      exact h.eq_of_path hz hy (hzpath.trans hpath.symm)

end Sections.Shape

theorem returnsInserted_iff_roomLeft {s : State} (h : s.sections.Shape) (a : Action) :
    s.ReturnsInserted a ↔ s.RoomLeft a := by
  cases a with
  | subSection parent name =>
    -- the lookup finds the one section of the path
    refine iff_of_true (fun d hd y hy hpath => ?_) trivial
    obtain ⟨x, hfind, rfl⟩ := Option.map_eq_some_iff.mp hd
    obtain ⟨hx, hxpath⟩ := Sections.find?_eq_some hfind
    exact h.eq_of_path hx hy (hxpath.trans hpath.symm)
  | emplace k =>
    constructor
    · intro hret x hx hmem
      obtain ⟨y, hy, hpath⟩ := List.mem_map.mp hmem
      have hdecision : (x.path, s.sections.emplaced x) ∈ s.decision (.emplace k) :=
        Option.map_eq_some_iff.mpr ⟨x, hx, rfl⟩
      exact (h.emplaced_eq_iff hy hpath).mp (hret _ hdecision y hy hpath)
    · intro hroom d hd y hy hpath
      obtain ⟨x, hx, rfl⟩ := Option.map_eq_some_iff.mp hd
      exact (h.emplaced_eq_iff hy hpath).mpr (hroom x hx (List.mem_map.mpr ⟨y, hy, hpath⟩))
  | getCollector | report | exit | getMainSection | fetchAdd | flushCollectedStats | request | step =>
    -- nothing is decided here
    exact iff_of_true (fun d hd => nomatch hd) trivial

/-- A call returns the section that has its name from then on, or the dummy section. -/
theorem decision_returned {s s' : State} {a : Action} {path : Path} {x : TimerSection}
    (hs : s.next a = some s') (hd : s.decision a = some (path, x)) :
    s'.Returned x ∧ (x ≠ dummySection → x.path = path) := by
  cases a with
  | subSection parent name =>
    obtain ⟨y, hfind, heq⟩ := Option.map_eq_some_iff.mp hd
    cases heq
    obtain ⟨hx, hpath⟩ := Sections.find?_eq_some hfind
    exact ⟨.inl ((sections_step (step_of_next hs)).kept x hx), fun _ => hpath⟩
  | emplace k =>
    obtain ⟨y, hk, heq⟩ := Option.map_eq_some_iff.mp hd
    cases heq
    obtain ⟨r, hr, rfl⟩ := Option.map_eq_some_iff.mp hs
    by_cases hsize : kCollectorSize ≤ y.collectorIndex
    · rw [Sections.emplaced, if_pos hsize]
      exact ⟨.inr rfl, fun hne => absurd rfl hne⟩
    · obtain ⟨hmem, hpath⟩ := Sections.emplaced_mem hk hr hsize
      exact ⟨.inl hmem, fun _ => hpath⟩
  | getCollector | report | exit | getMainSection | fetchAdd | flushCollectedStats | request | step =>
    cases hd

/-- Along a run the sections that are inserted stay. -/
theorem statesMeet_kept {s t : State} {as : List Action} (hrun : system.exec s as = some t) :
    system.StatesMeet (fun u => ∀ x ∈ u.sections.tree, x ∈ t.sections.tree) s as := by
  induction as generalizing s with
  | nil =>
    cases hrun
    exact fun _ => id
  | cons a as ih =>
    refine ⟨(draws_exec hrun).kept, fun u hu => ?_⟩
    obtain ⟨v, hv, he⟩ := Option.bind_eq_some_iff.mp hrun
    cases hu.symm.trans hv
    exact ih he

/-- There is only ever one section of a name, and the calls that decide after it was inserted return
it in exactly the runs where none of them gets to the lock with an index beyond the capacity. -/
theorem inserted_section_returned_iff {t : State} {as : List Action}
    (hrun : system.exec initial as = some t) :
    (system.StatesMeet (fun u => ∀ x ∈ u.sections.tree, x ∈ t.sections.tree) initial as ∧
      (t.sections.tree.map (·.path)).Nodup) ∧
    (system.StepsMeet State.ReturnsInserted initial as ↔
      system.StepsMeet State.RoomLeft initial as) := by
  have hreach : system.Reachable t := (TransitionSystem.Reachable.init init_initial).exec hrun
  refine ⟨⟨statesMeet_kept hrun, (reachable_sound hreach).shape.paths⟩, ?_⟩
  exact TransitionSystem.stepsMeet_congr (P := fun u : State => u.sections.Shape)
    Sections.initial_shape (fun u a v hu hs => (sections_step (step_of_next hs)).shape hu)
    (fun u a hu => returnsInserted_iff_roomLeft hu a) hrun

/-- Two calls look for the same subsection before either inserts it. -/
def sameNameRun : List Action :=
  [.getMainSection, .subSection mainPath "a", .subSection mainPath "a", .fetchAdd 1, .fetchAdd 0,
    .emplace 1, .emplace 0, .subSection mainPath "a"]

theorem inserted_section_returned_iff_sameName :
    (system.after initial sameNameRun).sections.tree = [⟨mainPath, 1⟩, ⟨["a", "main"], 3⟩] ∧
    system.StepsMeet State.ReturnsInserted initial sameNameRun := by
  have hrun : system.exec initial sameNameRun = some (system.after initial sameNameRun) :=
    system.exec_after (by decide)
  exact ⟨by decide, (inserted_section_returned_iff hrun).2.mpr (by decide)⟩

/-! A table with one place left, and two calls that look for the same name. -/

/-- Both calls take an index, and the first inserts the section. -/
def raceRun (n : ℕ) : List Action :=
  fillRun n ++ [.subSection mainPath (name n), .subSection mainPath (name n), .fetchAdd 0,
    .fetchAdd 0, .emplace 0]

theorem exec_raceRun {n : ℕ} (hroom : n + 2 < kCollectorSize) :
    system.exec initial (raceRun n) = some (withSections
      ⟨.ofDrawn (n + 3), filledTree (n + 1), [], [⟨name n :: mainPath, n + 3⟩]⟩) := by
  have hlt : kCollectorSize < 2 ^ 64 := by decide
  have hfirst := toNat_ofDrawn (d := n + 1) (by omega)
  have hsecond := toNat_ofDrawn (d := n + 2) (by omega)
  rw [raceRun, system.exec_append_some (exec_fillRun (Nat.lt_of_succ_lt hroom)), filled,
    exec_subSection, exec_subSection, List.nil_append, List.singleton_append, exec_fetchAdd,
    exec_fetchAdd, hfirst, hsecond, List.nil_append, List.singleton_append,
    exec_inserted _ _ _ hroom, ← filledTree_succ]
  rfl

/-- When the first call takes the last index, the second one gets the dummy section. -/
theorem inserted_section_not_returned :
    ¬ ∀ as t, system.exec initial as = some t →
      system.StepsMeet State.ReturnsInserted initial as := by
  intro h
  obtain ⟨n, hn⟩ : ∃ n, n + 3 = kCollectorSize := ⟨8189, rfl⟩
  have hrace := exec_raceRun (n := n) (by omega)
  have hrun : (system.exec initial (raceRun n ++ [.emplace 0])).isSome = true := by
    rw [system.exec_append_some hrace]
    rfl
  -- the second call decides in the state after the race
  have hlast := ((h _ _ (system.exec_after hrun)).drop hrace).1
  have hmem : TimerSection.mk (name n :: mainPath) (n + 2) ∈ filledTree (n + 1) :=
    List.mem_cons_of_mem _ (List.mem_map.mpr ⟨n, List.mem_range.mpr (Nat.lt_succ_self n), rfl⟩)
  have hdecision : (name n :: mainPath, dummySection) ∈ State.decision (withSections
      ⟨.ofDrawn (n + 3), filledTree (n + 1), [], [⟨name n :: mainPath, n + 3⟩]⟩) (.emplace 0) := by
    refine Option.map_eq_some_iff.mpr ⟨_, rfl, ?_⟩
    rw [Sections.emplaced, if_pos (Nat.le_of_eq hn.symm)]
  have hdummy := hlast _ hdecision _ hmem rfl
  exact absurd (congrArg TimerSection.collectorIndex hdummy) (Nat.succ_ne_zero _).symm

end CrisCore.Timer
