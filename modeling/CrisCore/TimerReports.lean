import CrisCore.TimerSections

/-! `TimerStatCollector::GetReport`: the walk from a section through its subsections, which reads the
entries of a collected copy while other sections are added. -/
namespace CrisCore.Timer

/-- What a `TimerReport` has of one section. -/
structure ReportNode where
  timerSection : TimerSection
  entry : CollectorEntry

/-- `AddSubsection`: nothing is added where the report has a subsection of the name. -/
def addSubsection (report : List ReportNode) (node : ReportNode) : List ReportNode :=
  if report.any fun n => n.timerSection.path = node.timerSection.path then report
  else report ++ [node]

/-- The sections a walk has read and those it has found and is going to read. -/
structure ReportWalk where
  recursive : Bool
  collected : Entries
  report : List ReportNode
  toVisit : List TimerSection

namespace ReportWalk

def start (collected : Entries) (root : TimerSection) (recursive : Bool) : ReportWalk :=
  ⟨recursive, collected, [], [root]⟩

/-- Read the next section, and its subsections under its `shared_mtx_`. -/
def visit (w : ReportWalk) (r : Sections) : Option ReportWalk :=
  match w.toVisit with
  | [] => none
  | x :: rest =>
    (w.collected.at? x.collectorIndex).map fun entry =>
      { w with
        report := addSubsection w.report ⟨x, entry⟩
        toVisit := (if w.recursive then r.subsections x else []) ++ rest }

def sections (w : ReportWalk) : List TimerSection := w.report.map (·.timerSection) ++ w.toVisit

/-- A walk from the main section: it has read the sections above those it knows, and it knows each
section with data or one above it. -/
structure Inv (w : ReportWalk) (r : Sections) : Prop where
  recursive : w.recursive = true
  inTree : ∀ x ∈ w.sections, x ∈ r.tree
  entries : ∀ n ∈ w.report, w.collected.at? n.timerSection.collectorIndex = some n.entry
  paths : (w.sections.map (·.path)).Nodup
  parents : ∀ x ∈ w.sections, x.path = mainPath ∨
    ∃ n ∈ w.report, ∃ name, x.path = name :: n.timerSection.path
  covered : ∀ x ∈ r.tree, ∀ i : Fin kCollectorSize, i.val = x.collectorIndex →
    w.collected i ≠ 0 → (∃ n ∈ w.report, n.timerSection.path = x.path) ∨
      ∃ y ∈ w.toVisit, y.path <:+ x.path

theorem visit_collected {w w' : ReportWalk} {r : Sections} (h : w.visit r = some w') :
    w'.collected = w.collected := by
  unfold visit at h
  split at h
  · cases h
  · obtain ⟨entry, -, rfl⟩ := Option.map_eq_some_iff.mp h
    rfl

theorem start_inv {r : Sections} (hr : r.Inv) (collected : Entries) {root : TimerSection}
    (hroot : root ∈ r.tree) (hmain : root.path = mainPath) : (start collected root true).Inv r where
  recursive := rfl
  inTree x hx := by
    rw [List.mem_singleton.mp hx]
    exact hroot
  entries n hn := nomatch hn
  paths := List.nodup_singleton _
  parents x hx := by
    rw [List.mem_singleton.mp hx]
    exact .inl hmain
  covered x hx _ _ _ := by
    refine .inr ⟨root, List.mem_singleton_self _, ?_⟩
    rw [hmain]
    exact hr.rooted x hx

/-- Sections that are added have no data in the copy. -/
theorem Inv.grow {w : ReportWalk} {r r' : Sections} (h : w.Inv r) (hg : r.Grows r')
    (hnew : ∀ x ∈ r'.tree, x ∉ r.tree → ∀ i : Fin kCollectorSize, i.val = x.collectorIndex →
      w.collected i = 0) : w.Inv r' where
  recursive := h.recursive
  inTree x hx := hg.kept x (h.inTree x hx)
  entries := h.entries
  paths := h.paths
  parents := h.parents
  covered x hx i hi hdata := by
    by_cases hold : x ∈ r.tree
    · exact h.covered x hold i hi hdata
    · exact absurd (hnew x hx hold i hi) hdata

theorem exists_cons_suffix {p q : Path} (h : p <:+ q) (hne : p ≠ q) : ∃ name, name :: p <:+ q := by
  obtain ⟨l, rfl⟩ := h
  rcases List.eq_nil_or_concat l with rfl | ⟨l, name, rfl⟩
  · exact absurd rfl hne
  · refine ⟨name, l, ?_⟩
    rw [List.concat_eq_append, List.append_assoc, List.singleton_append]

/-- The paths of the subsections of a section that has not been read are new. -/
theorem Inv.subsections_new {w : ReportWalk} {r : Sections} {x y : TimerSection}
    {rest : List TimerSection} (h : w.Inv r) (hr : r.Inv) (hx : w.toVisit = x :: rest)
    (hy : y ∈ r.subsections x) : y.path ∉ w.sections.map (·.path) := by
  intro hmem
  obtain ⟨-, name, hpath⟩ := Sections.mem_subsections.mp hy
  obtain ⟨z, hz, hzy⟩ := List.mem_map.mp hmem
  have hxmem : x ∈ w.sections := by
    rw [sections, hx]
    exact List.mem_append_right _ (List.mem_cons_self ..)
  rcases h.parents z hz with hmain | ⟨n, hn, name', hparent⟩
  · rw [hzy, hpath] at hmain
    exact hr.nonempty x (h.inTree x hxmem) (List.cons.inj hmain).2
  · rw [hzy, hpath] at hparent
    have hpaths := h.paths
    rw [sections, hx, List.map_append, List.nodup_append] at hpaths
    refine hpaths.2.2 _ (List.mem_map_of_mem (List.mem_map_of_mem hn)) x.path ?_
      (List.cons.inj hparent).2.symm
    exact List.mem_map_of_mem (List.mem_cons_self ..)

theorem Inv.visit {w w' : ReportWalk} {r : Sections} (h : w.Inv r) (hr : r.Inv)
    (hv : w.visit r = some w') : w'.Inv r := by
  unfold ReportWalk.visit at hv
  split at hv
  · cases hv
  · next x rest hx =>
    obtain ⟨entry, hentry, rfl⟩ := Option.map_eq_some_iff.mp hv
    have hxmem : x ∈ w.sections := by
      rw [sections, hx]
      exact List.mem_append_right _ (List.mem_cons_self ..)
    have hpaths := h.paths
    rw [sections, hx, List.map_append, List.nodup_append] at hpaths
    have hadd : addSubsection w.report ⟨x, entry⟩ = w.report ++ [⟨x, entry⟩] := by
      refine if_neg fun hany => ?_
      obtain ⟨n, hn, hpath⟩ := List.any_eq_true.mp hany
      exact hpaths.2.2 _ (List.mem_map_of_mem (List.mem_map_of_mem hn)) x.path
        (List.mem_map_of_mem (List.mem_cons_self ..)) (of_decide_eq_true hpath)
    rw [hadd, h.recursive, if_pos rfl]
    -- the sections of the walk afterwards: its subsections come in addition
    have hperm : ((w.report ++ [ReportNode.mk x entry]).map (·.timerSection) ++
        (r.subsections x ++ rest)).Perm (r.subsections x ++ w.sections) := by
      rw [sections, hx, List.map_append, List.map_singleton, List.append_assoc,
        List.singleton_append]
      exact ((List.perm_append_comm_assoc [x] (r.subsections x) rest).append_left _).trans
        (List.perm_append_comm_assoc ..)
    refine ⟨rfl, ?_, ?_, ?_, ?_, ?_⟩
    · intro y hy
      rcases List.mem_append.mp (hperm.mem_iff.mp hy) with hy | hy
      · exact (Sections.mem_subsections.mp hy).1
      · exact h.inTree y hy
    · intro n hn
      rcases List.mem_append.mp hn with hn | hn
      · exact h.entries n hn
      · rw [List.mem_singleton.mp hn]
        exact hentry
    · apply (hperm.map TimerSection.path).nodup_iff.mpr
      rw [List.map_append, List.nodup_append]
      refine ⟨hr.paths.sublist (List.filter_sublist.map _), h.paths, ?_⟩
      intro p hp q hq heq
      obtain ⟨y, hy, rfl⟩ := List.mem_map.mp hp
      rw [← heq] at hq
      exact h.subsections_new hr hx hy hq
    · intro y hy
      rcases List.mem_append.mp (hperm.mem_iff.mp hy) with hy | hy
      · obtain ⟨-, name, hpath⟩ := Sections.mem_subsections.mp hy
        exact .inr ⟨⟨x, entry⟩, List.mem_append_right _ (List.mem_singleton_self _), name, hpath⟩
      · rcases h.parents y hy with hmain | ⟨n, hn, name, hpath⟩
        · exact .inl hmain
        · exact .inr ⟨n, List.mem_append_left _ hn, name, hpath⟩
    · intro z hz i hi hdata
      rcases h.covered z hz i hi hdata with ⟨n, hn, hpath⟩ | ⟨y, hy, hsuffix⟩
      · exact .inl ⟨n, List.mem_append_left _ hn, hpath⟩
      · rw [hx] at hy
        rcases List.mem_cons.mp hy with rfl | hy
        · by_cases heq : y.path = z.path
          · exact .inl ⟨⟨y, entry⟩, List.mem_append_right _ (List.mem_singleton_self _), heq⟩
          · -- the section below it on the way to `z` is one of its subsections
            obtain ⟨name, hname⟩ := exists_cons_suffix hsuffix heq
            have hroot := (hr.rooted y (h.inTree y hxmem)).trans (List.suffix_cons name y.path)
            obtain ⟨c, hc, hpath⟩ := List.mem_map.mp (hr.mem_of_main hz hroot hname)
            refine .inr ⟨c, List.mem_append_left _ ?_, by rw [hpath]; exact hname⟩
            exact Sections.mem_subsections.mpr ⟨hc, name, hpath⟩
        · exact .inr ⟨y, List.mem_append_right _ hy, hsuffix⟩

/-- The data of a report at an index. -/
def entryAt (report : List ReportNode) (index : ℕ) : CollectorEntry :=
  (report.map fun n => if n.timerSection.collectorIndex = index then n.entry else 0).sum

/-- A report from the main section has all the data of the copy, each once, but for what belongs to
no section. -/
theorem Inv.entryAt_eq {w : ReportWalk} {r : Sections} (h : w.Inv r) (hr : r.Inv)
    (hdone : w.toVisit = []) (i : Fin kCollectorSize)
    (hdata : w.collected i ≠ 0 → ∃ x ∈ r.tree, x.collectorIndex = i.val) :
    entryAt w.report i = w.collected i := by
  have hentry {n : ReportNode} (hn : n ∈ w.report) (hi : n.timerSection.collectorIndex = i.val) :
      n.entry = w.collected i := by
    obtain ⟨hlt, heq⟩ := Entries.at?_eq_some (h.entries n hn)
    rw [heq]
    congr 1
    exact Fin.ext hi
  by_cases hzero : w.collected i = 0
  · -- then every node of the index is zero as well
    rw [hzero]
    apply List.sum_eq_zero
    intro e he
    obtain ⟨n, hn, rfl⟩ := List.mem_map.mp he
    by_cases hi : n.timerSection.collectorIndex = i.val
    · rw [if_pos hi, hentry hn hi, hzero]
    · exact if_neg hi
  · -- the section of the index was read, and only once
    obtain ⟨x, hx, hxi⟩ := hdata hzero
    have hcovered := h.covered x hx i hxi.symm hzero
    rw [hdone] at hcovered
    have hsections : w.sections = w.report.map (·.timerSection) := by
      rw [sections, hdone, List.append_nil]
    obtain ⟨n, hn, hpath⟩ := hcovered.resolve_right fun ⟨y, hy, _⟩ => nomatch hy
    have hmem {m : ReportNode} (hm : m ∈ w.report) : m.timerSection ∈ r.tree := by
      apply h.inTree
      rw [hsections]
      exact List.mem_map_of_mem hm
    have hni : n.timerSection.collectorIndex = i.val := by
      rw [hr.eq_of_path (hmem hn) hx hpath]
      exact hxi
    have hnodup : (w.report.map fun n => n.timerSection.collectorIndex).Nodup := by
      have hpaths := h.paths
      rw [hsections, List.map_map] at hpaths
      refine List.Nodup.map_on (fun a ha b hb heq => ?_) (hpaths.of_map _)
      exact List.inj_on_of_nodup_map hpaths ha hb
        (congrArg TimerSection.path (hr.eq_of_index (hmem ha) (hmem hb) heq))
    have hsum := ListSums.sum_map_of_nodup_keys ReportNode.entry
      (fun n => n.timerSection.collectorIndex) hnodup hn
    rw [hni] at hsum
    exact hsum.trans (hentry hn hni)

end ReportWalk

end CrisCore.Timer
