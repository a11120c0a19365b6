import CrisCore.RecordDirs

/-! `fs::copy` of a directory with `recursive | copy_symlinks`. -/
namespace CrisCore

namespace Path

/-- What is at the path below `src` goes to the same place below `dst`. -/
def rebase (src dst : List String) (path : Path) : Path :=
  { path with parent := dst ++ path.parent.drop src.length }

variable {src dst : List String} {p q : Path}

theorem rebase_under (src dst : List String) (p : Path) : dst <+: (p.rebase src dst).parent :=
  List.prefix_append _ _

theorem rebase_rebase (hp : src <+: p.parent) : (p.rebase src dst).rebase dst src = p := by
  obtain ⟨rest, hrest⟩ := hp
  obtain ⟨parent, name⟩ := p
  simp only at hrest
  simp [rebase, ← hrest]

theorem rebase_eq_iff (hp : src <+: p.parent) (hq : dst <+: q.parent) :
    p.rebase src dst = q ↔ q.rebase dst src = p := by
  constructor
  · rintro rfl
    exact rebase_rebase hp
  · rintro rfl
    exact rebase_rebase hq

end Path

namespace FileSystem

/-- Copy entries to where there is nothing. -/
def copyNodes (src dst : List String) (fs : FileSystem) :
    List (Σ _ : Path, Node) → Bool × FileSystem
  | [] => (true, fs)
  | ⟨path, n⟩ :: rest =>
    if fs.linkExists (path.rebase src dst) then (false, fs)
    else copyNodes src dst (fs.set (path.rebase src dst) n) rest

def copyLinks (src dst : List String) (fs : FileSystem) (links : List (Path × List String)) :
    Bool × FileSystem :=
  if links.any fun link => fs.linkExists (link.1.rebase src dst) then (false, fs)
  else (true, { fs with
    links := fs.links ++ links.map fun link => (link.1.rebase src dst, link.2) })

/-- Copy the directory `src` to the directory `dst`; the world may stop it after some entries. A
directory is not copied into itself: there would be no end to it. -/
def copy (fs : FileSystem) (src dst : List String) (stopsAfter : Option ℕ) : Bool × FileSystem :=
  if src <+: dst then (false, fs)
  else
    let nodes := fs.nodes.entries.filter fun e => src <+: e.1.parent
    let links := fs.links.filter fun link => src <+: link.1.parent
    match stopsAfter with
    | some n => (false, (copyNodes src dst fs (nodes.take n)).2)
    | none =>
      let copied := copyNodes src dst fs nodes
      if copied.1 then copyLinks src dst copied.2 links else copied

/-- No path under the directory is in use. -/
def Unused (fs : FileSystem) (dir : List String) : Prop :=
  (∀ p ∈ fs.nodes.keys, ¬ dir <+: p.parent) ∧ ∀ link ∈ fs.links, ¬ dir <+: link.1.parent

instance (fs : FileSystem) (dir : List String) : Decidable (fs.Unused dir) :=
  inferInstanceAs (Decidable (_ ∧ _))

variable {fs : FileSystem} {src dst : List String}

theorem Unused.node {dir : List String} (h : fs.Unused dir) {p : Path} (hp : dir <+: p.parent) :
    fs.node p = none := by
  by_contra hn
  have hmem : p ∈ fs.nodes := AList.lookup_isSome.mp (Option.isSome_iff_ne_none.mpr hn)
  exact h.1 p hmem hp

theorem Unused.linkExists {dir : List String} (h : fs.Unused dir) {p : Path}
    (hp : dir <+: p.parent) : fs.linkExists p = false := by
  have hlink : (fs.links.any fun link => link.1 == p) = false := by
    rw [List.any_eq_false]
    intro link hl hlp
    exact h.2 link hl (by rwa [eq_of_beq hlp])
  simp [FileSystem.linkExists, pathExists, h.node hp, hlink]

/-- The copies of entries with different paths appear below the new directory. -/
theorem copyNodes_spec {l : List (Σ _ : Path, Node)} (hnodup : l.NodupKeys)
    (hsrc : ∀ e ∈ l, src <+: e.1.parent)
    (hfree : ∀ e ∈ l, fs.linkExists (e.1.rebase src dst) = false) :
    (copyNodes src dst fs l).1 = true ∧ (copyNodes src dst fs l).2.links = fs.links ∧
      (copyNodes src dst fs l).2.locks = fs.locks ∧
      ∀ q, (copyNodes src dst fs l).2.node q =
        if dst <+: q.parent then (l.dlookup (q.rebase dst src)).or (fs.node q) else fs.node q := by
  induction l generalizing fs with
  | nil => simp [copyNodes]
  | cons e rest ih =>
    obtain ⟨p, n⟩ := e
    obtain ⟨hnot, hrest⟩ := List.nodupKeys_cons.mp hnodup
    have hp : src <+: p.parent := hsrc _ List.mem_cons_self
    have hfreep : fs.linkExists (p.rebase src dst) = false := hfree _ List.mem_cons_self
    -- no other entry is copied to where this one goes
    have hother : ∀ e ∈ rest, (fs.set (p.rebase src dst) n).linkExists (e.1.rebase src dst) =
        false := by
      intro e he
      have hep : e.1.rebase src dst ≠ p.rebase src dst := by
        intro heq
        have hback := (Path.rebase_eq_iff (hsrc e (List.mem_cons_of_mem _ he))
          (Path.rebase_under src dst p)).mp heq
        rw [Path.rebase_rebase hp] at hback
        have hkey := List.mem_keys_of_mem he
        rw [← hback] at hkey
        exact hnot hkey
      have hold := hfree e (List.mem_cons_of_mem _ he)
      simp only [linkExists, pathExists, node_set, if_neg hep] at hold ⊢
      exact hold
    obtain ⟨h1, h2, h3, h4⟩ := ih hrest (fun e he => hsrc e (List.mem_cons_of_mem _ he)) hother
    simp only [copyNodes, hfreep, Bool.false_eq_true, if_false]
    refine ⟨h1, h2, h3, fun q => ?_⟩
    rw [h4, node_set]
    -- below the new directory the lookup decides, elsewhere nothing is written
    by_cases hq : dst <+: q.parent
    · rw [if_pos hq, if_pos hq]
      by_cases hqp : p.rebase src dst = q
      · have hback := (Path.rebase_eq_iff hp hq).mp hqp
        rw [hback, List.dlookup_cons_eq, if_pos hqp.symm, List.dlookup_eq_none.mpr hnot]
        rfl
      · have hback : p ≠ q.rebase dst src := fun h =>
          hqp ((Path.rebase_eq_iff hp hq).mpr h.symm)
        rw [if_neg (Ne.symm hqp), List.dlookup_cons_ne _ _ hback.symm]
    · have hqp : q ≠ p.rebase src dst := by
        rintro rfl
        exact hq (Path.rebase_under src dst p)
      rw [if_neg hq, if_neg hq, if_neg hqp]

/-- A copy that is not stopped, to a directory where there is nothing, takes over everything. -/
theorem copy_spec (hself : ¬ src <+: dst) (hfree : fs.Unused dst)
    (hlinks : ∀ link ∈ fs.links, src <+: link.1.parent → fs.node link.1 = none) :
    (fs.copy src dst none).1 = true ∧ (fs.copy src dst none).2.locks = fs.locks ∧
      (fs.copy src dst none).2.links = fs.links ++
        (fs.links.filter fun link => src <+: link.1.parent).map
          (fun link => (link.1.rebase src dst, link.2)) ∧
      ∀ q, (fs.copy src dst none).2.node q =
        if dst <+: q.parent then fs.node (q.rebase dst src) else fs.node q := by
  set nodes := fs.nodes.entries.filter fun e => src <+: e.1.parent with hnodes
  have hnodup : nodes.NodupKeys := fs.nodes.nodupKeys.sublist List.filter_sublist
  have hsrc : ∀ e ∈ nodes, src <+: e.1.parent := fun e he => by
    simpa using (List.mem_filter.mp he).2
  obtain ⟨hok, hlinks', hlocks, hnode⟩ := copyNodes_spec hnodup hsrc
    fun e _ => hfree.linkExists (Path.rebase_under src dst e.1)
  -- what is below the old directory is looked up among its entries
  have hat (q : Path) : (copyNodes src dst fs nodes).2.node q =
      if dst <+: q.parent then fs.node (q.rebase dst src) else fs.node q := by
    rw [hnode]
    split_ifs with hq
    · have hlook : nodes.dlookup (q.rebase dst src) = fs.node (q.rebase dst src) := by
        ext n
        rw [← Option.mem_def, List.mem_dlookup_iff hnodup, hnodes, List.mem_filter,
          ← List.mem_dlookup_iff fs.nodes.nodupKeys]
        simp [Path.rebase_under, node, AList.lookup]
      rw [hlook, hfree.node hq, Option.or_none]
    · rfl
  -- a link would have to be where an entry was copied to, or be there before
  have hnone : ((fs.links.filter fun link => src <+: link.1.parent).any
      fun link => (copyNodes src dst fs nodes).2.linkExists (link.1.rebase src dst)) = false := by
    rw [List.any_eq_false]
    intro link hl hex
    obtain ⟨hl, hu⟩ := List.mem_filter.mp hl
    have hu : src <+: link.1.parent := by simpa using hu
    have hdstp := Path.rebase_under src dst link.1
    simp only [linkExists, pathExists, hlinks', hat, hdstp, if_true, Path.rebase_rebase hu,
      hlinks link hl hu, Option.isSome_none, Bool.false_or, List.any_eq_true, beq_iff_eq] at hex
    obtain ⟨link', hl', hpath⟩ := hex
    exact hfree.2 link' hl' (hpath ▸ hdstp)
  simp only [copy, if_neg hself, ← hnodes, hok, if_true, copyLinks, hnone, Bool.false_eq_true,
    if_false]
  exact ⟨trivial, hlocks, by rw [hlinks'], hat⟩

end FileSystem
end CrisCore
