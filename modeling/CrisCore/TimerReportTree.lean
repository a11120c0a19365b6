import CrisCore.TimerPercentiles
import CrisCore.TimerSections
import Mathlib.Data.List.Sort
import Mathlib.Data.String.Basic

/-! `GetReport` of a section with all sections below it, and `PrintToLog` of what it returns. The
walk beside other threads is in `TimerReports`; here the tree stays as it is. -/
namespace CrisCore.Timer

/-- A section with its `subsections_`, each of them under its own name. -/
inductive SectionTree
  | node (name : String) (collectorIndex : ℕ) (subsections : List SectionTree)

/-- A report with its `subsections_`. -/
inductive TimerReport
  | node (data : TimerReportData) (subsections : List TimerReport)

namespace TimerReport

def data : TimerReport → TimerReportData
  | node data _ => data

def subsections : TimerReport → List TimerReport
  | node _ subsections => subsections

def name (report : TimerReport) : String := report.data.sectionName

/-- `emplace` into a map with the names as its keys. -/
def emplace (subsections : List TimerReport) (report : TimerReport) : List TimerReport :=
  if subsections.any fun r => r.name = report.name then subsections
  else subsections.orderedInsert (fun r r' => r.name ≤ r'.name) report

def addSubsection (report subsection : TimerReport) : TimerReport :=
  node report.data (emplace report.subsections subsection)

/-- `has_data_ |= subsection->has_data_`. -/
def orHasData (report subsection : TimerReport) : TimerReport :=
  node { report.data with hasData := report.data.hasData || subsection.data.hasData }
    report.subsections

/-- A report with more subsections, all of them new. -/
def withReports (report : TimerReport) (reports : List TimerReport) : TimerReport :=
  node { report.data with
      hasData := report.data.hasData || reports.any fun r => r.data.hasData }
    (report.subsections ++ reports)

/-- A name above those of the map goes to its end. -/
theorem emplace_eq_concat {subsections : List TimerReport} {report : TimerReport}
    (h : ∀ r ∈ subsections, r.name < report.name) :
    emplace subsections report = subsections ++ [report] := by
  have hnew : (subsections.any fun r => r.name = report.name) = false := by
    apply List.any_eq_false.mpr
    intro r hr
    exact mt of_decide_eq_true (h r hr).ne
  unfold emplace
  rw [hnew, if_neg Bool.false_ne_true]
  induction subsections with
  | nil => rfl
  | cons r rest ih =>
    have hle : ¬ report.name ≤ r.name := not_le.mpr (h r List.mem_cons_self)
    rw [List.orderedInsert_cons, if_neg hle, List.cons_append]
    refine congrArg (r :: ·) (ih (fun x hx => h x (List.mem_cons_of_mem r hx)) ?_)
    exact (Bool.or_eq_false_iff.mp hnew).2

end TimerReport

namespace SectionTree

def name : SectionTree → String
  | node name _ _ => name

def collectorIndex : SectionTree → ℕ
  | node _ collectorIndex _ => collectorIndex

def subsections : SectionTree → List SectionTree
  | node _ _ subsections => subsections

mutual

/-- `GetReport` of the collected entries; `at` may throw. -/
def getReport (collected : Entries) (timingDuration : ℤ) (recursive : Bool) :
    SectionTree → Option TimerReport
  | .node name collectorIndex subsections => do
    let entry ← collected.at? collectorIndex
    let report := TimerReport.node (getReportData entry name timingDuration) []
    if recursive then addReports collected timingDuration recursive subsections report
    else some report

/-- The loop over the subsections. -/
def addReports (collected : Entries) (timingDuration : ℤ) (recursive : Bool) :
    List SectionTree → TimerReport → Option TimerReport
  | [], report => some report
  | subsection :: rest, report => do
    let subsectionReport ← getReport collected timingDuration recursive subsection
    addReports collected timingDuration recursive rest
      ((report.orHasData subsectionReport).addSubsection subsectionReport)

end

@[elab_as_elim]
theorem induction {P : SectionTree → Prop}
    (node : ∀ name collectorIndex subsections, (∀ s ∈ subsections, P s) →
      P (.node name collectorIndex subsections)) : ∀ t, P t
  | .node name collectorIndex subsections =>
    node name collectorIndex subsections fun s _ => induction node s

/-- The keys of a map are in order and each is there once; every section has an entry. -/
inductive WellFormed : SectionTree → Prop
  | node {name : String} {collectorIndex : ℕ} {subsections : List SectionTree}
      (hindex : collectorIndex < kCollectorSize)
      (hnames : subsections.Pairwise fun s s' => s.name < s'.name)
      (hsubsections : ∀ s ∈ subsections, WellFormed s) :
      WellFormed (.node name collectorIndex subsections)

/-- A section, or one below it. -/
inductive Below : SectionTree → SectionTree → Prop
  | refl (t : SectionTree) : Below t t
  | step {t s x : SectionTree} (hs : s ∈ t.subsections) (hx : Below s x) : Below t x

/-- The section was hit. -/
def OwnHits (collected : Entries) (t : SectionTree) : Prop :=
  ∃ entry, collected.at? t.collectorIndex = some entry ∧
    ∃ b : Bucket, 0 < (entry.durationBuckets b).hits

/-- The section was hit, or one below it. -/
def HasHits (collected : Entries) (t : SectionTree) : Prop :=
  ∃ x, Below t x ∧ OwnHits collected x

/-- The report of a section: what is stored under its index, and reports of its subsections. -/
inductive Mirrors (collected : Entries) : SectionTree → TimerReport → Prop
  | node {name : String} {collectorIndex : ℕ} {subsections : List SectionTree}
      {data : TimerReportData} {reports : List TimerReport} {entry : CollectorEntry}
      (hentry : collected.at? collectorIndex = some entry) (hname : data.sectionName = name)
      (hbuckets : data.reportBuckets =
        (List.finRange kTimerEntryBucketNum).map entry.durationBuckets)
      (hmax : data.maxDurationNs = entry.maxDurationNs)
      (hdata : data.hasData = true ↔ HasHits collected (.node name collectorIndex subsections))
      (hsubsections : List.Forall₂ (Mirrors collected) subsections reports) :
      Mirrors collected (.node name collectorIndex subsections) (.node data reports)

theorem Below.trans {t s x : SectionTree} (h : Below t s) (h' : Below s x) : Below t x := by
  induction h with
  | refl => exact h'
  | step hs _ ih => exact .step hs (ih h')

section Hits
variable {collected : Entries}

theorem hasHits_node {name : String} {collectorIndex : ℕ} {subsections : List SectionTree} :
    HasHits collected (.node name collectorIndex subsections) ↔
      OwnHits collected (.node name collectorIndex subsections) ∨
        ∃ s ∈ subsections, HasHits collected s := by
  constructor
  · rintro ⟨x, hbelow, hhits⟩
    cases hbelow with
    | refl => exact .inl hhits
    | step hs hx => exact .inr ⟨_, hs, x, hx, hhits⟩
  · rintro (hhits | ⟨s, hs, x, hx, hhits⟩)
    · exact ⟨_, .refl _, hhits⟩
    · exact ⟨x, .step hs hx, hhits⟩

theorem ownHits_iff {name : String} {collectorIndex : ℕ} {subsections : List SectionTree}
    {entry : CollectorEntry} (hentry : collected.at? collectorIndex = some entry)
    (timingDuration : ℤ) :
    (getReportData entry name timingDuration).hasData = true ↔
      OwnHits collected (.node name collectorIndex subsections) := by
  have hat : collected.at? (node name collectorIndex subsections).collectorIndex = some entry :=
    hentry
  simp only [getReportData, OwnHits, hat, Option.some.injEq, exists_eq_left', List.any_eq_true,
    List.mem_finRange, true_and, decide_eq_true_iff, Nat.pos_iff_ne_zero]

theorem Mirrors.name_eq {t : SectionTree} {report : TimerReport}
    (h : Mirrors collected t report) : report.name = t.name := by
  cases h with
  | node _ hname => exact hname

theorem Mirrors.hasData_iff {t : SectionTree} {report : TimerReport}
    (h : Mirrors collected t report) : report.data.hasData = true ↔ HasHits collected t := by
  cases h with
  | node _ _ _ _ hdata => exact hdata

end Hits

section Reports
variable {collected : Entries} {timingDuration : ℤ}

/-- The loop adds the reports of all subsections, as their names get larger. -/
theorem addReports_spec {subsections : List SectionTree} {report : TimerReport}
    (hnames : subsections.Pairwise fun s s' => s.name < s'.name)
    (hbefore : ∀ r ∈ report.subsections, ∀ s ∈ subsections, r.name < s.name)
    (hreports : ∀ s ∈ subsections, ∃ r, s.getReport collected timingDuration true = some r ∧
      Mirrors collected s r) :
    ∃ reports, List.Forall₂ (Mirrors collected) subsections reports ∧
      addReports collected timingDuration true subsections report =
        some (report.withReports reports) := by
  induction subsections generalizing report with
  | nil =>
    refine ⟨[], .nil, ?_⟩
    cases report with
    | node data reports => simp only [addReports, TimerReport.withReports, TimerReport.data,
        TimerReport.subsections, List.any_nil, Bool.or_false, List.append_nil]
  | cons s rest ih =>
    obtain ⟨hs, hrest⟩ := List.pairwise_cons.mp hnames
    obtain ⟨r, hr, hmirrors⟩ := hreports s List.mem_cons_self
    -- the map has only names below this one, so it takes the report
    have hlt : ∀ r' ∈ report.subsections, r'.name < r.name := by
      intro r' hr'
      rw [hmirrors.name_eq]
      exact hbefore r' hr' s List.mem_cons_self
    have hsubsections : ((report.orHasData r).addSubsection r).subsections =
        report.subsections ++ [r] := TimerReport.emplace_eq_concat hlt
    have hbefore' : ∀ r' ∈ ((report.orHasData r).addSubsection r).subsections,
        ∀ s' ∈ rest, r'.name < s'.name := by
      intro r' hr' s' hs'
      rw [hsubsections] at hr'
      rcases List.mem_append.mp hr' with hr' | hr'
      · exact hbefore r' hr' s' (List.mem_cons_of_mem s hs')
      · rw [List.mem_singleton.mp hr', hmirrors.name_eq]
        exact hs s' hs'
    obtain ⟨reports, hall, hadd⟩ :=
      ih hrest hbefore' fun s' hs' => hreports s' (List.mem_cons_of_mem s hs')
    refine ⟨r :: reports, .cons hmirrors hall, ?_⟩
    rw [addReports, hr, Option.bind_eq_bind, Option.bind_some, hadd, TimerReport.withReports,
      TimerReport.withReports, hsubsections, List.append_assoc, List.singleton_append,
      List.any_cons, ← Bool.or_assoc]
    rfl

theorem forall₂_exists_iff {α β : Type} {R : α → β → Prop} {P : β → Prop} {Q : α → Prop}
    {xs : List α} {ys : List β} (h : List.Forall₂ R xs ys) (hiff : ∀ x y, R x y → (P y ↔ Q x)) :
    (∃ y ∈ ys, P y) ↔ ∃ x ∈ xs, Q x := by
  induction h with
  | nil => simp
  | cons hR _ ih => simp only [List.mem_cons, exists_eq_or_imp, hiff _ _ hR, ih]

theorem getReport_mirrors {t : SectionTree} (h : t.WellFormed) :
    ∃ report, t.getReport collected timingDuration true = some report ∧
      Mirrors collected t report := by
  induction h with
  | @node name collectorIndex subsections hindex hnames _ ih =>
    have hentry : collected.at? collectorIndex = some (collected ⟨collectorIndex, hindex⟩) :=
      dif_pos hindex
    obtain ⟨reports, hall, hadd⟩ := @addReports_spec collected timingDuration subsections
      (.node (getReportData (collected ⟨collectorIndex, hindex⟩) name timingDuration) []) hnames
      (fun r hr => nomatch hr) ih
    have hget : getReport collected timingDuration true (.node name collectorIndex subsections) =
        some ((TimerReport.node (getReportData (collected ⟨collectorIndex, hindex⟩) name
          timingDuration) []).withReports reports) := by
      rw [getReport, hentry]
      exact hadd
    refine ⟨_, hget, .node hentry rfl rfl rfl ?_ hall⟩
    -- the flag is that of the buckets or of a report below
    have hbelow : (∃ r ∈ reports, r.data.hasData = true) ↔
        ∃ s ∈ subsections, HasHits collected s :=
      forall₂_exists_iff hall fun _ _ hmirrors => hmirrors.hasData_iff
    rw [hasHits_node, ← hbelow, ← ownHits_iff hentry timingDuration]
    simp only [TimerReport.data, Bool.or_eq_true, List.any_eq_true]

end Reports

end SectionTree

namespace TimerReportData

/-- `GetAverageDurationNsec`; the sums are not negative here. -/
def getAverageDurationNsec (report : TimerReportData) : ℕ :=
  if report.getTotalHits = 0 then 0
  else (report.reportBuckets.map TimerStatEntryBucket.totalDurationNs).sum / report.getTotalHits

end TimerReportData

/-- What `PrintToLog` logs, with the level of its indentation. The frequency on the line of the hits
is their number over the timing duration. -/
inductive LogLine
  | sectionName (indent : ℕ) (name : String)
  | hits (indent totalHits : ℕ) (timingDuration : ℤ)
  | averageTime (indent nsec : ℕ)
  | percentileTime (indent : ℕ) (percent : ℤ) (time : Percentile)
  | subsections (indent : ℕ)
  | blank
  deriving DecidableEq

namespace LogLine

def sectionName? : LogLine → Option (ℕ × String)
  | sectionName indent name => some (indent, name)
  | _ => none

end LogLine

namespace TimerReport

/-- The lines of a report that has hits of its own. -/
def printStatistics (indent : ℕ) (data : TimerReportData) : List LogLine :=
  if 0 < data.getTotalHits then
    .hits indent data.getTotalHits data.timingDuration ::
      .averageTime indent data.getAverageDurationNsec ::
      [50, 90, 95, 99, 100].map (fun percent =>
        .percentileTime indent percent (data.getPercentileDurationNsec percent)) ++ [.blank]
  else []

mutual

def printToLog (indent : ℕ) : TimerReport → List LogLine
  | .node data subsections =>
    if data.hasData then
      .sectionName indent data.sectionName :: printStatistics indent data ++
        (if subsections.isEmpty then []
          else .subsections indent :: .blank :: printSubsections (indent + 1) subsections)
    else []

def printSubsections (indent : ℕ) : List TimerReport → List LogLine
  | [] => []
  | report :: rest => printToLog indent report ++ printSubsections indent rest

end

/-- The names that are logged for a report, with their indentation. -/
def printedNames (lines : List LogLine) : List (ℕ × String) := lines.filterMap LogLine.sectionName?

theorem printedNames_statistics (indent : ℕ) (data : TimerReportData) :
    printedNames (printStatistics indent data) = [] := by
  unfold printStatistics
  split_ifs <;> rfl

theorem printedNames_cons {lines : List LogLine} (h : printedNames lines = []) (indent : ℕ)
    (name : String) (rest : List LogLine) :
    printedNames (.sectionName indent name :: lines ++ rest) =
      (indent, name) :: printedNames rest := by
  calc
    printedNames (.sectionName indent name :: lines ++ rest)
        = (indent, name) :: printedNames (lines ++ rest) := rfl
    _ = (indent, name) :: (printedNames lines ++ printedNames rest) := by
      rw [printedNames, printedNames, printedNames, List.filterMap_append]
    _ = (indent, name) :: printedNames rest := by rw [h, List.nil_append]

theorem printedNames_subsections (indent : ℕ) (reports : List TimerReport) :
    printedNames (if reports.isEmpty then []
      else .subsections indent :: .blank :: printSubsections (indent + 1) reports) =
      printedNames (printSubsections (indent + 1) reports) := by
  cases reports with
  | nil => rfl
  | cons report rest => rfl

end TimerReport

namespace SectionTree
open TimerReport
variable {collected : Entries}

mutual

/-- The sections of a tree from the root on, with their depths. -/
def preorder (depth : ℕ) : SectionTree → List (ℕ × SectionTree)
  | .node name collectorIndex subsections =>
    (depth, .node name collectorIndex subsections) :: preorders (depth + 1) subsections

def preorders (depth : ℕ) : List SectionTree → List (ℕ × SectionTree)
  | [] => []
  | t :: rest => preorder depth t ++ preorders depth rest

end

open Classical in
/-- The names of the sections that have hits, or have them below, in the order of the tree. -/
noncomputable def namesWithHits (collected : Entries) (sections : List (ℕ × SectionTree)) :
    List (ℕ × String) :=
  (sections.filter fun p => HasHits collected p.2).map fun p => (p.1, p.2.name)

theorem namesWithHits_append (xs ys : List (ℕ × SectionTree)) :
    namesWithHits collected (xs ++ ys) = namesWithHits collected xs ++ namesWithHits collected ys := by
  simp only [namesWithHits, List.filter_append, List.map_append]

theorem namesWithHits_cons_of_hasHits {depth : ℕ} {t : SectionTree} (h : HasHits collected t)
    (rest : List (ℕ × SectionTree)) : namesWithHits collected ((depth, t) :: rest) =
      (depth, t.name) :: namesWithHits collected rest := by
  simp only [namesWithHits, List.filter_cons, h, decide_true, if_true, List.map_cons]

theorem namesWithHits_cons_of_not_hasHits {depth : ℕ} {t : SectionTree}
    (h : ¬ HasHits collected t) (rest : List (ℕ × SectionTree)) :
    namesWithHits collected ((depth, t) :: rest) = namesWithHits collected rest := by
  simp only [namesWithHits, List.filter_cons, h, decide_false, Bool.false_eq_true, if_false]

/-- A list of subsections is printed as its sections are, one after the other. -/
theorem printedNames_printSubsections {subsections : List SectionTree}
    {reports : List TimerReport} (h : List.Forall₂ (Mirrors collected) subsections reports)
    (hprint : ∀ s ∈ subsections, ∀ r indent, Mirrors collected s r →
      printedNames (r.printToLog indent) = namesWithHits collected (s.preorder indent))
    (indent : ℕ) : printedNames (printSubsections indent reports) =
      namesWithHits collected (preorders indent subsections) := by
  induction h with
  | nil => rfl
  | @cons s r subsections reports hmirrors _ ih =>
    have hfirst := hprint s List.mem_cons_self r indent hmirrors
    have hrest := ih fun s' hs' => hprint s' (List.mem_cons_of_mem s hs')
    rw [printSubsections, preorders, namesWithHits_append, ← hfirst, ← hrest]
    exact List.filterMap_append

/-- Below a section without hits there is none with hits. -/
theorem namesWithHits_preorders_eq_nil {subsections : List SectionTree}
    (h : ∀ s ∈ subsections, ∀ depth, namesWithHits collected (s.preorder depth) = [])
    (depth : ℕ) : namesWithHits collected (preorders depth subsections) = [] := by
  induction subsections with
  | nil => rfl
  | cons s rest ih =>
    have hrest := ih fun s' hs' => h s' (List.mem_cons_of_mem s hs')
    rw [preorders, namesWithHits_append, h s List.mem_cons_self, hrest, List.append_nil]

theorem namesWithHits_preorder_eq_nil {t : SectionTree} (h : ¬ HasHits collected t) (depth : ℕ) :
    namesWithHits collected (t.preorder depth) = [] := by
  induction t using induction generalizing depth with
  | node name collectorIndex subsections ih =>
    have hbelow : ∀ s ∈ subsections, ¬ HasHits collected s := fun s hs hhits =>
      h (hasHits_node.mpr (.inr ⟨s, hs, hhits⟩))
    rw [preorder, namesWithHits_cons_of_not_hasHits h]
    exact namesWithHits_preorders_eq_nil (fun s hs => ih s hs (hbelow s hs)) (depth + 1)

theorem printedNames_printToLog {t : SectionTree} {report : TimerReport}
    (h : Mirrors collected t report) (indent : ℕ) :
    printedNames (report.printToLog indent) = namesWithHits collected (t.preorder indent) := by
  induction t using induction generalizing report indent with
  | node name collectorIndex subsections ih =>
    cases h with
    | @node _ _ _ data reports entry hentry hname hbuckets hmax hdata hall =>
      by_cases hhits : HasHits collected (.node name collectorIndex subsections)
      -- the name is printed, and then what the subsections print
      · have hrest := printedNames_printSubsections hall (fun s hs r i hr => ih s hs hr i)
          (indent + 1)
        rw [printToLog, if_pos (hdata.mpr hhits), preorder, namesWithHits_cons_of_hasHits hhits,
          ← hrest, ← printedNames_subsections, printedNames_cons (printedNames_statistics ..), hname]
        rfl
      -- nothing is printed, and nothing below has hits
      · rw [printToLog, if_neg (mt hdata.mp hhits)]
        exact (namesWithHits_preorder_eq_nil hhits indent).symm

end SectionTree

namespace Sections
variable {r : Sections}

/-- `subsections_` of a section, in the order of its keys. -/
def sortedSubsections (r : Sections) (x : TimerSection) : List TimerSection :=
  (r.subsections x).insertionSort fun y y' => y.path.headD "" ≤ y'.path.headD ""

def height (r : Sections) : ℕ := (r.tree.map fun x => x.path.length).foldr max 0

def treeOf (r : Sections) : ℕ → TimerSection → SectionTree
  | 0, x => .node (x.path.headD "") x.collectorIndex []
  | levels + 1, x =>
    .node (x.path.headD "") x.collectorIndex ((r.sortedSubsections x).map (r.treeOf levels))

/-- A section with all that is below it. -/
def sectionTree (r : Sections) (x : TimerSection) : SectionTree :=
  r.treeOf (r.height - x.path.length) x

theorem length_le_height {x : TimerSection} (h : x ∈ r.tree) : x.path.length ≤ r.height := by
  have hmem := List.mem_map_of_mem (f := fun x : TimerSection => x.path.length) h
  exact le_foldr_max hmem

theorem mem_sortedSubsections {x y : TimerSection} :
    y ∈ r.sortedSubsections x ↔ y ∈ r.subsections x := List.mem_insertionSort _

/-- A subsection is one level further down, and there are levels enough for it. -/
theorem level_of_mem_subsections {x y : TimerSection} (h : y ∈ r.subsections x) :
    r.height - x.path.length = (r.height - y.path.length) + 1 := by
  obtain ⟨hmem, name, hpath⟩ := mem_subsections.mp h
  have hle := length_le_height hmem
  rw [hpath, List.length_cons] at hle ⊢
  omega

/-- The levels of the tree never run out. -/
theorem sectionTree_eq (r : Sections) (x : TimerSection) :
    r.sectionTree x = .node (x.path.headD "") x.collectorIndex
      ((r.sortedSubsections x).map r.sectionTree) := by
  have hlevel {y : TimerSection} (hy : y ∈ r.sortedSubsections x) :=
    level_of_mem_subsections (mem_sortedSubsections.mp hy)
  unfold sectionTree
  cases hk : r.height - x.path.length with
  | zero =>
    -- no path is longer, so there is nothing below
    have hnil : r.sortedSubsections x = [] := by
      apply List.eq_nil_iff_forall_not_mem.mpr
      intro y hy
      have hy' := hlevel hy
      omega
    rw [treeOf, hnil, List.map_nil]
  | succ k =>
    rw [treeOf]
    refine congrArg (SectionTree.node _ _) (List.map_congr_left fun y hy => ?_)
    have hy' := hlevel hy
    have hyk : r.height - y.path.length = k := by omega
    rw [hyk]

theorem sectionTree_name (r : Sections) (x : TimerSection) :
    (r.sectionTree x).name = x.path.headD "" := by
  rw [sectionTree_eq]
  rfl

theorem Shape.sortedSubsections_names (h : r.Shape) (x : TimerSection) :
    (r.sortedSubsections x).Pairwise fun y y' => y.path.headD "" < y'.path.headD "" := by
  have hnodup : (r.sortedSubsections x).Nodup :=
    (List.perm_insertionSort _ _).nodup_iff.mpr ((h.paths.of_map _).filter _)
  have hsorted : (r.sortedSubsections x).Pairwise fun y y' =>
      y.path.headD "" ≤ y'.path.headD "" := List.pairwise_insertionSort _ _
  refine (hsorted.and hnodup).imp_of_mem fun {y y'} hy hy' hle => ?_
  refine lt_of_le_of_ne hle.1 fun heq => hle.2 ?_
  -- two subsections with one name have the same path
  obtain ⟨hmem, name, hpath⟩ := mem_subsections.mp (mem_sortedSubsections.mp hy)
  obtain ⟨hmem', name', hpath'⟩ := mem_subsections.mp (mem_sortedSubsections.mp hy')
  rw [hpath, hpath', List.headD_cons, List.headD_cons] at heq
  exact h.eq_of_path hmem hmem' (by rw [hpath, hpath', heq])

/-- The tree of a section is what `GetReport` expects. -/
theorem Shape.wellFormed_sectionTree (h : r.Shape) {x : TimerSection} (hx : x ∈ r.tree) :
    (r.sectionTree x).WellFormed := by
  induction hk : r.height - x.path.length using Nat.strong_induction_on generalizing x with
  | _ k ih =>
    rw [sectionTree_eq]
    refine .node (h.capacity x hx) ?_ fun s hs => ?_
    · rw [List.pairwise_map]
      refine (h.sortedSubsections_names x).imp fun {y y'} hlt => ?_
      rw [sectionTree_name, sectionTree_name]
      exact hlt
    · obtain ⟨y, hy, rfl⟩ := List.mem_map.mp hs
      have hsub := mem_sortedSubsections.mp hy
      have hlevel := level_of_mem_subsections hsub
      exact ih _ (by omega) (mem_subsections.mp hsub).1 rfl

/-- Every section below another one is in its tree. -/
theorem Shape.below_sectionTree (h : r.Shape) {x y : TimerSection} (hx : x ∈ r.tree)
    (hy : y ∈ r.tree) (hxy : x.path <:+ y.path) : SectionTree.Below (r.sectionTree x) (r.sectionTree y) := by
  obtain ⟨names, hnames⟩ := hxy
  induction names generalizing y with
  | nil =>
    rw [h.eq_of_path hx hy hnames]
    exact .refl _
  | cons name names ih =>
    -- the section above it is in the tree as well
    have habove : names ++ x.path <:+ y.path := ⟨[name], by rw [← hnames]; rfl⟩
    obtain ⟨z, hz, hpath⟩ :=
      List.mem_map.mp (h.mem_of_between hx hy (List.suffix_append names x.path) habove)
    have hsub : y ∈ r.subsections z := by
      apply mem_subsections.mpr
      exact ⟨hy, name, by rw [hpath, ← hnames]; rfl⟩
    refine (ih hz hpath.symm).trans (.step ?_ (.refl _))
    rw [sectionTree_eq r z]
    exact List.mem_map_of_mem (mem_sortedSubsections.mpr hsub)

end Sections

namespace SectionTree

/-- For every tree of sections and all statistics; the log leaves out the sections without hits of
their own or below them, and no other. -/
theorem report_mirrors_section_tree (collected : Entries) (timingDuration : ℤ) {t : SectionTree}
    (h : t.WellFormed) :
    ∃ report, t.getReport collected timingDuration true = some report ∧
      Mirrors collected t report ∧
      ∀ indent, TimerReport.printedNames (report.printToLog indent) =
        namesWithHits collected (t.preorder indent) := by
  obtain ⟨report, hreport, hmirrors⟩ := @getReport_mirrors collected timingDuration t h
  exact ⟨report, hreport, hmirrors, printedNames_printToLog hmirrors⟩

/-- A section with two subsections, the first of which has one as well. -/
def exampleTree : SectionTree :=
  .node "main" 1 [.node "a" 2 [.node "x" 4 []], .node "b" 3 []]

theorem report_mirrors_example_tree :
    ∃ report, exampleTree.getReport (Entries.sample 4 700) 9 true = some report ∧
      Mirrors (Entries.sample 4 700) exampleTree report ∧
      ∀ indent, TimerReport.printedNames (report.printToLog indent) =
        namesWithHits (Entries.sample 4 700) (exampleTree.preorder indent) := by
  have hleaf (name : String) (index : ℕ) (hlt : index < kCollectorSize) :
      (node name index []).WellFormed := .node hlt .nil fun s hs => nomatch hs
  refine report_mirrors_section_tree (Entries.sample 4 700) 9 (.node (by decide) ?_ ?_)
  · exact .cons (fun s hs => by rw [List.mem_singleton.mp hs]; decide) (List.pairwise_singleton ..)
  · intro s hs
    rcases List.mem_cons.mp hs with rfl | hs
    · refine .node (by decide) (List.pairwise_singleton ..) fun s hs => ?_
      rw [List.mem_singleton.mp hs]
      exact hleaf "x" 4 (by decide)
    · rw [List.mem_singleton.mp hs]
      exact hleaf "b" 3 (by decide)

end SectionTree
end CrisCore.Timer
