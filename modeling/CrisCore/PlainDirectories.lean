import CrisCore.DirectoryCopy
import Mathlib.Data.List.Infix

/-! The directories of a disk that hold no database, beside a `FileSystem`, which leaves them out. -/
namespace CrisCore

namespace FileSystem

abbrev Directories := List (List String)

/-- `fs::create_directories`: the directory and those above it. -/
def createDirectories (dirs : Directories) (dir : List String) : Directories :=
  dirs ++ dir.inits

/-- Nothing is in the directory. -/
def Bare (fs : FileSystem) (dirs : Directories) (dir : List String) : Prop :=
  (∀ d ∈ dirs, dir <+: d → d = dir) ∧ fs.Unused dir

instance (fs : FileSystem) (dirs : Directories) (dir : List String) : Decidable (fs.Bare dirs dir) :=
  inferInstanceAs (Decidable (_ ∧ _))

/-- `std::filesystem::filesystem_error`, with its path. -/
structure FilesystemError where
  path : List String
  deriving DecidableEq

/-- `std::filesystem::is_empty(dir)` without an error code. -/
def isEmpty (fs : FileSystem) (dirs : Directories) (dir : List String) :
    Except FilesystemError Bool :=
  if dir ∈ dirs then .ok (decide (fs.Bare dirs dir)) else .error ⟨dir⟩

/-- `std::filesystem::remove` of an empty directory. -/
def removeDirectory (dirs : Directories) (dir : List String) : Directories :=
  dirs.filter (· ≠ dir)

/-- The directories that `fs::copy` makes; the world may stop it after some of them. -/
def copyDirectories (dirs : Directories) (src dst : List String) (stopsAfter : Option ℕ) :
    Directories :=
  if src <+: dst then dirs
  else
    let copies := (dirs.filter (src <+: ·)).map fun d => dst ++ d.drop src.length
    dirs ++ match stopsAfter with
      | some n => copies.take n
      | none => copies

/-- `fs::remove_all` of a directory: what a file system has below it. -/
def removeBelow (fs : FileSystem) (dir : List String) : FileSystem :=
  { fs with
    nodes := ⟨fs.nodes.entries.filter fun e => ¬ dir <+: e.1.parent,
      fs.nodes.nodupKeys.sublist List.filter_sublist⟩
    links := fs.links.filter fun link => ¬ dir <+: link.1.parent }

def removeDirectories (dirs : Directories) (dir : List String) : Directories :=
  dirs.filter (¬ dir <+: ·)

/-- Everything that is there is in a directory, and so is every directory. -/
structure Housed (fs : FileSystem) (dirs : Directories) : Prop where
  closed : ∀ d ∈ dirs, ∀ d', d' <+: d → d' ∈ dirs
  parent : ∀ p, fs.node p ≠ none → p.parent ∈ dirs

section Lemmas
variable {fs fs' : FileSystem} {dirs : Directories} {dir src dst d : List String} {path : Path}

theorem mem_createDirectories : d ∈ createDirectories dirs dir ↔ d ∈ dirs ∨ d <+: dir := by
  rw [createDirectories, List.mem_append, List.mem_inits]

theorem mem_copyDirectories (hin : ¬ src <+: dst) : d ∈ copyDirectories dirs src dst none ↔
    d ∈ dirs ∨ ∃ d' ∈ dirs, src <+: d' ∧ dst ++ d'.drop src.length = d := by
  simp only [copyDirectories, if_neg hin, List.mem_append, List.mem_map, List.mem_filter,
    decide_eq_true_eq, and_assoc]

theorem copyDirectories_into (hin : src <+: dst) (stopsAfter : Option ℕ) :
    copyDirectories dirs src dst stopsAfter = dirs := if_pos hin

theorem mem_copyDirectories_of_mem {stopsAfter : Option ℕ} (hd : d ∈ dirs) :
    d ∈ copyDirectories dirs src dst stopsAfter := by
  unfold copyDirectories
  split_ifs
  · exact hd
  · exact List.mem_append_left _ hd

theorem mem_removeDirectories : d ∈ removeDirectories dirs dir ↔ d ∈ dirs ∧ ¬ dir <+: d := by
  simp [removeDirectories]

theorem isEmpty_ok (hd : dir ∈ dirs) : fs.isEmpty dirs dir = .ok (decide (fs.Bare dirs dir)) :=
  if_pos hd

theorem isEmpty_error (hd : dir ∉ dirs) : fs.isEmpty dirs dir = .error ⟨dir⟩ :=
  if_neg hd

theorem node_removeBelow (p : Path) (h : (fs.removeBelow dir).node p ≠ none) :
    fs.node p ≠ none ∧ ¬ dir <+: p.parent := by
  have hmem : p ∈ (fs.removeBelow dir).nodes :=
    AList.lookup_isSome.mp (Option.isSome_iff_ne_none.mpr h)
  obtain ⟨e, he, rfl⟩ := List.mem_map.mp hmem
  obtain ⟨hin, hout⟩ := List.mem_filter.mp he
  refine ⟨?_, of_decide_eq_true hout⟩
  have hold : e.1 ∈ fs.nodes := List.mem_map_of_mem hin
  exact Option.isSome_iff_ne_none.mp (AList.lookup_isSome.mpr hold)

end Lemmas

namespace Housed
variable {fs fs' : FileSystem} {dirs : Directories} {dir src dst d : List String} {path : Path}

/-- Whatever is new is in a directory. -/
theorem congr (h : Housed fs dirs)
    (hnode : ∀ p, fs'.node p ≠ none → fs.node p ≠ none ∨ p.parent ∈ dirs) : Housed fs' dirs := by
  refine ⟨h.closed, fun p hp => ?_⟩
  rcases hnode p hp with hold | hnew
  · exact h.parent p hold
  · exact hnew

theorem createDirectories (h : Housed fs dirs) (dir : List String) :
    Housed fs (createDirectories dirs dir) := by
  refine ⟨fun d hd d' hd' => ?_, fun p hp => ?_⟩
  · rw [mem_createDirectories] at hd ⊢
    exact hd.imp (fun hd => h.closed d hd d' hd') hd'.trans
  · rw [mem_createDirectories]
    exact Or.inl (h.parent p hp)

/-- `create_directories` made the directory, or it was there. -/
theorem mem_made {makes : Bool} (h : Housed fs dirs) (hdir : makes = true ∨ dir ∈ dirs)
    (d : List String) :
    d ∈ (if makes then FileSystem.createDirectories dirs dir else dirs) ↔ d ∈ dirs ∨ d <+: dir := by
  split_ifs with hmakes
  · exact mem_createDirectories
  · refine ⟨Or.inl, ?_⟩
    rintro (hd | hd)
    · exact hd
    · exact h.closed dir (hdir.resolve_left hmakes) d hd

theorem made (h : Housed fs dirs) (makes : Bool) (dir : List String) :
    Housed fs (if makes then FileSystem.createDirectories dirs dir else dirs) := by
  split_ifs
  · exact h.createDirectories dir
  · exact h

theorem set (h : Housed fs dirs) (hpath : path.parent ∈ dirs) (n : Node) :
    Housed (fs.set path n) dirs := by
  refine h.congr fun p hp => ?_
  rw [node_set] at hp
  split_ifs at hp with hpp
  · rw [hpp]
    exact Or.inr hpath
  · exact Or.inl hp

theorem removeAll (h : Housed fs dirs) (path : Path) : Housed (fs.removeAll path) dirs := by
  refine h.congr fun p hp => Or.inl ?_
  rw [node_removeAll] at hp
  split_ifs at hp
  · exact absurd rfl hp
  · exact hp

theorem rename {p q : Path} (h : Housed fs dirs) (hpq : p.parent = q.parent)
    (hr : fs.rename p q = some fs') : Housed fs' dirs := by
  obtain ⟨n, hn, rfl⟩ := Option.map_eq_some_iff.mp hr
  have hp : p.parent ∈ dirs := h.parent p (by simp [hn])
  rw [hpq] at hp
  exact (h.removeAll p).set hp n

theorem tryOpen (h : Housed fs dirs) (hpath : path.parent ∈ dirs) (legacy : Bool)
    (attempt : Attempt) : Housed (fs.tryOpen path legacy attempt).2 dirs := by
  refine h.congr fun p hp => ?_
  by_cases hpp : p = path
  · rw [hpp]
    exact Or.inr hpath
  · left
    rcases hopen : fs.tryOpen path legacy attempt with ⟨ok, g⟩
    rw [hopen] at hp
    cases ok with
    | true =>
      rw [(openDatabase_some (tryOpen_true hopen)).2.2.1 p hpp] at hp
      exact hp
    | false =>
      rw [(tryOpen_false hopen).2.2 p (Or.inr hpp)] at hp
      exact hp

theorem put (h : Housed fs dirs) (path : Path) (key value : Bytes) :
    Housed (fs.put path key value) dirs := by
  refine h.congr fun p hp => Or.inl ?_
  by_cases hpp : p = path
  · intro hnone
    rw [hpp] at hnone hp
    simp [FileSystem.put, hnone] at hp
  · rwa [node_put_of_ne fs hpp] at hp

theorem copyNodes (h : Housed fs dirs) {l : List (Σ _ : Path, Node)}
    (hl : ∀ e ∈ l, (e.1.rebase src dst).parent ∈ dirs) :
    Housed (FileSystem.copyNodes src dst fs l).2 dirs := by
  induction l generalizing fs with
  | nil => exact h
  | cons e rest ih =>
    obtain ⟨p, n⟩ := e
    simp only [FileSystem.copyNodes]
    split_ifs
    · exact h
    · exact ih (h.set (hl _ List.mem_cons_self) n) fun e he => hl e (List.mem_cons_of_mem _ he)

/-- A directory that is not there has no copy. -/
theorem src_mem_copyDirectories (h : Housed fs dirs) {stopsAfter : Option ℕ}
    (hsrc : src ∈ copyDirectories dirs src dst stopsAfter) : src ∈ dirs := by
  unfold copyDirectories at hsrc
  split_ifs at hsrc
  · exact hsrc
  · rcases List.mem_append.mp hsrc with hsrc | hsrc
    · exact hsrc
    · have hcopy : src ∈ (dirs.filter (src <+: ·)).map fun d => dst ++ d.drop src.length := by
        cases stopsAfter with
        | none => exact hsrc
        | some n => exact List.mem_of_mem_take hsrc
      obtain ⟨d, hd, -⟩ := List.mem_map.mp hcopy
      obtain ⟨hmem, hunder⟩ := List.mem_filter.mp hd
      exact h.closed d hmem src (of_decide_eq_true hunder)

/-- A copy that nothing stops has a directory for everything that it copies. -/
theorem copy (h : Housed fs dirs) (src : List String) (hdst : dst ∈ dirs) :
    Housed (fs.copy src dst none).2 (copyDirectories dirs src dst none) := by
  by_cases hin : src <+: dst
  · rw [copyDirectories_into hin, FileSystem.copy, if_pos hin]
    exact h
  · have hdirs : Housed fs (copyDirectories dirs src dst none) := by
      refine ⟨fun d hd d' hd' => ?_, fun p hp => ?_⟩
      · rw [mem_copyDirectories hin] at hd ⊢
        rcases hd with hd | ⟨e, he, ⟨rest, rfl⟩, rfl⟩
        · exact Or.inl (h.closed d hd d' hd')
        · -- above a copied directory: above `dst`, or the copy of one above the original
          rw [List.drop_left] at hd'
          rcases List.prefix_or_prefix_of_prefix hd' (List.prefix_append dst rest) with hd' | hd''
          · exact Or.inl (h.closed dst hdst d' hd')
          · obtain ⟨rest', rfl⟩ := hd''
            rw [List.prefix_append_right_inj] at hd'
            refine Or.inr ⟨src ++ rest', ?_, List.prefix_append src rest', by rw [List.drop_left]⟩
            exact h.closed (src ++ rest) he _ ((List.prefix_append_right_inj src).mpr hd')
      · rw [mem_copyDirectories hin]
        exact Or.inl (h.parent p hp)
    have hcopies : ∀ e ∈ fs.nodes.entries.filter fun e => src <+: e.1.parent,
        (e.1.rebase src dst).parent ∈ copyDirectories dirs src dst none := by
      intro e he
      obtain ⟨hmem, hunder⟩ := List.mem_filter.mp he
      have hnode : e.1 ∈ fs.nodes := List.mem_map_of_mem hmem
      rw [mem_copyDirectories hin]
      refine Or.inr ⟨e.1.parent, ?_, of_decide_eq_true hunder, rfl⟩
      exact h.parent e.1 (Option.isSome_iff_ne_none.mp (AList.lookup_isSome.mpr hnode))
    have hcopied := hdirs.copyNodes hcopies
    simp only [FileSystem.copy, if_neg hin]
    split_ifs
    · refine hcopied.congr fun p hp => Or.inl ?_
      unfold copyLinks at hp
      split_ifs at hp <;> exact hp
    · exact hcopied

theorem removeBelow (h : Housed fs dirs) (dir : List String) :
    Housed (fs.removeBelow dir) (removeDirectories dirs dir) := by
  refine ⟨fun d hd d' hd' => ?_, fun p hp => ?_⟩
  · rw [mem_removeDirectories] at hd ⊢
    exact ⟨h.closed d hd.1 d' hd', fun hdir => hd.2 (hdir.trans hd')⟩
  · obtain ⟨hold, hout⟩ := node_removeBelow p hp
    exact mem_removeDirectories.mpr ⟨h.parent p hold, hout⟩

end Housed
end FileSystem
end CrisCore
