import CrisCore.TimerStats
import Mathlib.Data.List.Nodup

/-! The tree of `TimerSection`s under the main section, and the indexes its sections take from
`collector_index_count`. Before this counter wraps no index is taken twice. -/
namespace CrisCore.Timer

/-- The names from a section up to the section at the root. -/
abbrev Path := List String

structure TimerSection where
  path : Path
  collectorIndex : ℕ
  deriving DecidableEq

def mainPath : Path := ["main"]

/-- `GetDummySection`. -/
def dummySection : TimerSection := ⟨["Dummy"], kEmptyCollectorIndex⟩

/-- `collector_index_count`, an atomic `std::size_t`. -/
structure CollectorIndexCount where
  value : UInt64
  /-- History: how many indexes were taken from it. -/
  drawn : ℕ
  value_eq : value = UInt64.ofNat (drawn + 1)

namespace CollectorIndexCount

def ofDrawn (drawn : ℕ) : CollectorIndexCount := ⟨UInt64.ofNat (drawn + 1), drawn, rfl⟩

/-- `fetch_add(1)`, which returns what `value` was. -/
def fetchAdd (c : CollectorIndexCount) : CollectorIndexCount where
  value := c.value + 1
  drawn := c.drawn + 1
  value_eq := by
    rw [UInt64.ofNat_add, ← c.value_eq]
    rfl

theorem eq_ofDrawn (c : CollectorIndexCount) : c = ofDrawn c.drawn := by
  obtain ⟨_, _, rfl⟩ := c
  rfl

theorem fetchAdd_ofDrawn (drawn : ℕ) : (ofDrawn drawn).fetchAdd = ofDrawn (drawn + 1) :=
  eq_ofDrawn _

theorem toNat_value (c : CollectorIndexCount) (h : c.drawn + 1 < 2 ^ 64) :
    c.value.toNat = c.drawn + 1 := by
  rw [c.value_eq, UInt64.toNat_ofNat_of_lt' h]

end CollectorIndexCount

/-- The sections of the tree, each of them in `subsections_` of the section its path goes on with.
Of the calls of `SubSection`, the paths that were not found and have no index yet, and the sections
that have an index and are not inserted. -/
structure Sections where
  collectorIndexCount : CollectorIndexCount
  tree : List TimerSection
  missed : List Path
  pending : List TimerSection

namespace Sections

def initial : Sections := ⟨.ofDrawn 0, [], [], []⟩

def find? (r : Sections) (path : Path) : Option TimerSection :=
  r.tree.find? fun x => x.path = path

/-- `subsections_` of a section. -/
def subsections (r : Sections) (x : TimerSection) : List TimerSection :=
  r.tree.filter fun y => y.path ≠ [] ∧ y.path.tail = x.path

/-- `GetMainSection`, its flush apart. -/
def getMainSection (r : Sections) : TimerSection × Sections :=
  match r.find? mainPath with
  | some x => (x, r)
  | none =>
    let mainSection : TimerSection := ⟨mainPath, r.collectorIndexCount.value.toNat⟩
    (mainSection, { r with
      collectorIndexCount := r.collectorIndexCount.fetchAdd
      tree := r.tree ++ [mainSection] })

/-- The lookup of `SubSection`, with `shared_mtx_` shared: the call returns when the section is
there. -/
def subSection (r : Sections) (parent : Path) (name : String) : Sections :=
  if (r.find? (name :: parent)).isSome then r
  else { r with missed := r.missed ++ [name :: parent] }

/-- A call of `SubSection` takes an index, without a lock. -/
def fetchAdd (r : Sections) (k : ℕ) : Option Sections :=
  match r.missed[k]? with
  | none => none
  | some path => some { r with
      collectorIndexCount := r.collectorIndexCount.fetchAdd
      missed := r.missed.eraseIdx k
      pending := r.pending ++ [⟨path, r.collectorIndexCount.value.toNat⟩] }

/-- The rest of `SubSection`, under `shared_mtx_`: the dummy section when there are too many sections,
and no new section when another call has inserted one with the name. -/
def emplace (r : Sections) (k : ℕ) : Option Sections :=
  match r.pending[k]? with
  | none => none
  | some x => some { r with
      pending := r.pending.eraseIdx k
      tree := if kCollectorSize ≤ x.collectorIndex ∨ (r.find? x.path).isSome then r.tree
        else r.tree ++ [x] }

/-- Only the main section and what `SubSection` returns are there to be asked for a subsection; the
dummy section is returned once an index beyond the collectors was taken. -/
def IsParent (r : Sections) (parent : Path) : Prop :=
  parent ∈ r.tree.map (·.path) ∨
    (parent = dummySection.path ∧ kCollectorSize ≤ r.collectorIndexCount.drawn)

instance (r : Sections) (parent : Path) : Decidable (r.IsParent parent) :=
  inferInstanceAs (Decidable (_ ∨ _))

/-- The counter has not come round to the indexes that were taken first. -/
def NoWrap (r : Sections) : Prop := r.collectorIndexCount.drawn < 2 ^ 64

instance (r : Sections) : Decidable r.NoWrap := inferInstanceAs (Decidable (_ < _))

/-- A path that `SubSection` may look for. -/
def Under (r : Sections) (path : Path) : Prop :=
  ∃ name parent, path = name :: parent ∧
    (parent ∈ r.tree.map (·.path) ∨ parent = dummySection.path)

/-- Without a wrap of the counter a path is below a section of the tree, or its index is beyond the
collectors. -/
def Below (r : Sections) (index : ℕ) (path : Path) : Prop :=
  kCollectorSize ≤ index ∨ ∃ name, ∃ y ∈ r.tree, path = name :: y.path

/-- The sections form trees, under the main section and under the dummy section, with one section of
a path. Nothing is there before the main section. -/
structure Shape (r : Sections) : Prop where
  nonempty : ∀ x ∈ r.tree, x.path ≠ []
  noDummy : ∀ x ∈ r.tree, x.path ≠ dummySection.path
  closed : ∀ x ∈ r.tree, ∀ q, q ≠ [] → q <:+ x.path →
    q ∈ r.tree.map (·.path) ∨ q = dummySection.path
  paths : (r.tree.map (·.path)).Nodup
  capacity : ∀ x ∈ r.tree, x.collectorIndex < kCollectorSize
  parents : ∀ x ∈ r.pending, r.Under x.path
  missing : ∀ path ∈ r.missed, r.Under path
  first : mainPath ∉ r.tree.map (·.path) → r = initial

/-- Without a wrap of the counter all sections are under the main section, and no two have the same
index. -/
structure Inv (r : Sections) : Prop extends Shape r where
  rooted : ∀ x ∈ r.tree, mainPath <:+ x.path
  indexes : ((r.tree ++ r.pending).map (·.collectorIndex)).Nodup
  bound : ∀ x ∈ r.tree ++ r.pending,
    0 < x.collectorIndex ∧ x.collectorIndex ≤ r.collectorIndexCount.drawn
  parentsBelow : ∀ x ∈ r.pending, r.Below x.collectorIndex x.path
  missingBelow : ∀ path ∈ r.missed, r.Below (r.collectorIndexCount.drawn + 1) path

/-- No section goes away, and a new one has an index of its own. -/
structure Grows (r r' : Sections) : Prop where
  kept : ∀ x ∈ r.tree, x ∈ r'.tree
  fresh : ∀ x ∈ r'.tree, x ∈ r.tree ∨
    (0 < x.collectorIndex ∧ ∀ y ∈ r.tree, y.collectorIndex ≠ x.collectorIndex)

theorem Grows.of_tree_eq {r r' : Sections} (h : r'.tree = r.tree) : Grows r r' := by
  constructor
  · intro x hx
    rw [h]
    exact hx
  · intro x hx
    rw [h] at hx
    exact .inl hx

theorem Below.mono {r r' : Sections} {index index' : ℕ} {path : Path} (h : r.Below index path)
    (hindex : index ≤ index') (htree : ∀ x ∈ r.tree, x ∈ r'.tree) : r'.Below index' path := by
  rcases h with hfull | ⟨name, y, hy, hpath⟩
  · exact .inl (hfull.trans hindex)
  · exact .inr ⟨name, y, htree y hy, hpath⟩

theorem Under.mono {r r' : Sections} {path : Path} (h : r.Under path)
    (htree : ∀ x ∈ r.tree, x ∈ r'.tree) : r'.Under path := by
  obtain ⟨name, parent, hpath, hparent⟩ := h
  exact ⟨name, parent, hpath, hparent.imp_left (List.map_subset _ htree ·)⟩

theorem find?_eq_some {r : Sections} {path : Path} {x : TimerSection}
    (h : r.find? path = some x) : x ∈ r.tree ∧ x.path = path := by
  have hpath := List.find?_some h
  exact ⟨List.mem_of_find?_eq_some h, of_decide_eq_true hpath⟩

theorem find?_eq_none {r : Sections} {path : Path} (h : r.find? path = none) :
    path ∉ r.tree.map (·.path) := by
  intro hmem
  obtain ⟨x, hx, hpath⟩ := List.mem_map.mp hmem
  have hne := List.find?_eq_none.mp h x hx
  simp [hpath] at hne

theorem mem_subsections {r : Sections} {x y : TimerSection} :
    y ∈ r.subsections x ↔ y ∈ r.tree ∧ ∃ name, y.path = name :: x.path := by
  rw [subsections, List.mem_filter, decide_eq_true_iff]
  refine and_congr_right fun _ => ?_
  cases y.path with
  | nil => simp
  | cons name path => simp

namespace Shape
variable {r : Sections}

theorem eq_of_path (h : r.Shape) {x y : TimerSection} (hx : x ∈ r.tree) (hy : y ∈ r.tree)
    (hp : x.path = y.path) : x = y :=
  List.inj_on_of_nodup_map h.paths hx hy hp

theorem dummySection_not_mem (h : r.Shape) : dummySection ∉ r.tree :=
  fun hmem => h.noDummy _ hmem rfl

/-- Above a section that is under the main section there are only such sections. -/
theorem mem_of_main (h : r.Shape) {x : TimerSection} (hx : x ∈ r.tree) {q : Path}
    (hq : mainPath <:+ q) (hqx : q <:+ x.path) : q ∈ r.tree.map (·.path) := by
  have hne : q ≠ [] := fun hnil => by
    rw [hnil, List.suffix_nil] at hq
    cases hq
  refine (h.closed x hx q hne hqx).resolve_right fun hdummy => ?_
  rw [hdummy] at hq
  exact absurd hq (by decide)

/-- What is between two sections of the tree is in the tree. -/
theorem mem_of_between (h : r.Shape) {x y : TimerSection} (hx : x ∈ r.tree) (hy : y ∈ r.tree) {q : Path}
    (hxq : x.path <:+ q) (hqy : q <:+ y.path) : q ∈ r.tree.map (·.path) := by
  have hpos := List.length_pos_iff.mpr (h.nonempty x hx)
  have hne : q ≠ [] := List.length_pos_iff.mp (hpos.trans_le hxq.length_le)
  refine (h.closed y hy q hne hqy).resolve_right fun hdummy => h.noDummy x hx ?_
  rw [hdummy] at hxq
  exact hxq.eq_of_length_le hpos

/-- A section that is taken into the tree, below another one or below the dummy section. -/
theorem tree_concat (h : r.Shape) {x : TimerSection} (hnew : x.path ∉ r.tree.map (·.path))
    (habove : r.Under x.path) :
    (∀ z ∈ r.tree ++ [x], z.path ≠ []) ∧ (∀ z ∈ r.tree ++ [x], z.path ≠ dummySection.path) ∧
    (∀ z ∈ r.tree ++ [x], ∀ q, q ≠ [] → q <:+ z.path →
      q ∈ (r.tree ++ [x]).map (·.path) ∨ q = dummySection.path) ∧
    ((r.tree ++ [x]).map (·.path)).Nodup := by
  obtain ⟨name, parent, hpath, hparent⟩ := habove
  have hmap : (r.tree ++ [x]).map (·.path) = r.tree.map (·.path) ++ [x.path] := by
    rw [List.map_append, List.map_singleton]
  have hcons : parent ≠ [] := by
    rintro rfl
    rcases hparent with hmem | hdummy
    · obtain ⟨y, hy, hnil⟩ := List.mem_map.mp hmem
      exact h.nonempty y hy hnil
    · cases hdummy
  refine ⟨?_, ?_, ?_, ?_⟩
  · intro z hz
    rcases List.mem_append.mp hz with hz | hz
    · exact h.nonempty z hz
    · rw [List.mem_singleton.mp hz, hpath]
      exact List.cons_ne_nil _ _
  · intro z hz
    rcases List.mem_append.mp hz with hz | hz
    · exact h.noDummy z hz
    · rw [List.mem_singleton.mp hz, hpath]
      exact fun hdummy => hcons (List.cons.inj hdummy).2
  · intro z hz q hne hqz
    rw [hmap]
    rcases List.mem_append.mp hz with hz | hz
    · exact (h.closed z hz q hne hqz).imp_left (List.mem_append_left _)
    · rw [List.mem_singleton.mp hz, hpath] at hqz
      rcases List.suffix_cons_iff.mp hqz with heq | hqp
      · rw [heq, ← hpath]
        exact .inl (List.mem_append_right _ (List.mem_singleton_self _))
      · rcases hparent with hmem | rfl
        · -- above `x` there is what is above the section of `parent`
          obtain ⟨y, hy, rfl⟩ := List.mem_map.mp hmem
          exact (h.closed y hy q hne hqp).imp_left (List.mem_append_left _)
        · -- above the dummy section there is nothing
          exact .inr (hqp.eq_of_length_le (List.length_pos_iff.mpr hne))
  · rw [hmap]
    exact List.nodup_append_comm.mp (List.nodup_cons.mpr ⟨hnew, h.paths⟩)

end Shape

namespace Inv
variable {r : Sections}

theorem eq_of_index (h : r.Inv) {x y : TimerSection} (hx : x ∈ r.tree) (hy : y ∈ r.tree)
    (hi : x.collectorIndex = y.collectorIndex) : x = y :=
  List.inj_on_of_nodup_map h.indexes (List.mem_append_left _ hx) (List.mem_append_left _ hy) hi

theorem index_ne_next (h : r.Inv) {x : TimerSection} (hx : x ∈ r.tree ++ r.pending) :
    x.collectorIndex ≠ r.collectorIndexCount.drawn + 1 := by
  have hle := (h.bound x hx).2
  omega

end Inv

theorem initial_shape : initial.Shape where
  nonempty _ hx := nomatch hx
  noDummy _ hx := nomatch hx
  closed _ hx := nomatch hx
  paths := List.nodup_nil
  capacity _ hx := nomatch hx
  parents _ hx := nomatch hx
  missing _ hx := nomatch hx
  first _ := rfl

theorem initial_inv : initial.Inv where
  toShape := initial_shape
  rooted _ hx := nomatch hx
  indexes := List.nodup_nil
  bound _ hx := nomatch hx
  parentsBelow _ hx := nomatch hx
  missingBelow _ hx := nomatch hx

/-- The sections after the first call of `GetMainSection`. -/
def onlyMain : Sections := ⟨.ofDrawn 1, [⟨mainPath, 1⟩], [], []⟩

theorem onlyMain_inv : onlyMain.Inv where
  nonempty x hx := by
    rw [List.mem_singleton.mp hx]
    exact List.cons_ne_nil _ _
  noDummy x hx := by
    rw [List.mem_singleton.mp hx]
    decide
  closed x hx q hne hq := by
    rw [List.mem_singleton.mp hx] at hq
    exact .inl (List.mem_singleton.mpr (hq.eq_of_length_le (List.length_pos_iff.mpr hne)))
  paths := List.nodup_singleton _
  capacity x hx := by
    rw [List.mem_singleton.mp hx]
    decide
  parents _ hx := nomatch hx
  missing _ hx := nomatch hx
  first hnew := absurd (List.mem_singleton_self mainPath) hnew
  rooted x hx := by
    rw [List.mem_singleton.mp hx]
  indexes := List.nodup_singleton _
  bound x hx := by
    rw [List.mem_singleton.mp hx]
    decide
  parentsBelow _ hx := nomatch hx
  missingBelow _ hx := nomatch hx

/-- The main section is made by the first call, before there is anything else. -/
theorem getMainSection_cases {r : Sections} (h : r.Shape) :
    (r.getMainSection.2 = r ∧ r.getMainSection.1 ∈ r.tree ∧ r.getMainSection.1.path = mainPath) ∨
    (r = initial ∧ r.getMainSection = (⟨mainPath, 1⟩, onlyMain)) := by
  cases hfind : r.find? mainPath with
  | some x =>
    obtain ⟨hmem, hpath⟩ := find?_eq_some hfind
    have hsame : r.getMainSection = (x, r) := by rw [getMainSection, hfind]
    rw [hsame]
    exact .inl ⟨rfl, hmem, hpath⟩
  | none =>
    obtain rfl := h.first (find?_eq_none hfind)
    exact .inr ⟨rfl, rfl⟩

theorem getMainSection_shape {r : Sections} (h : r.Shape) :
    r.getMainSection.2.Shape ∧ r.getMainSection.1 ∈ r.getMainSection.2.tree ∧
      r.getMainSection.1.path = mainPath := by
  rcases getMainSection_cases h with ⟨hsame, hmem, hpath⟩ | ⟨-, hnew⟩
  · rw [hsame]
    exact ⟨h, hmem, hpath⟩
  · rw [hnew]
    exact ⟨onlyMain_inv.toShape, List.mem_singleton_self _, rfl⟩

theorem getMainSection_spec {r : Sections} (h : r.Inv) :
    r.getMainSection.2.Inv ∧ Grows r r.getMainSection.2 := by
  rcases getMainSection_cases h.toShape with ⟨hsame, -, -⟩ | ⟨rfl, hnew⟩
  · rw [hsame]
    exact ⟨h, .of_tree_eq rfl⟩
  · rw [hnew]
    refine ⟨onlyMain_inv, nofun, fun x hx => .inr ⟨?_, nofun⟩⟩
    exact (onlyMain_inv.bound x (List.mem_append_left _ hx)).1

theorem subSection_tree (r : Sections) (parent : Path) (name : String) :
    (r.subSection parent name).tree = r.tree := by
  unfold subSection
  split <;> rfl

theorem subSection_shape {r : Sections} (h : r.Shape) {parent : Path} (hparent : r.IsParent parent)
    (name : String) : (r.subSection parent name).Shape := by
  unfold subSection
  split
  · exact h
  · refine ⟨h.nonempty, h.noDummy, h.closed, h.paths, h.capacity, h.parents, ?_, ?_⟩
    · intro path hp
      rcases List.mem_append.mp hp with hp | hp
      · exact h.missing path hp
      · exact ⟨name, parent, List.mem_singleton.mp hp, hparent.imp_right (·.1)⟩
    · -- before the main section nobody can ask
      intro hnew
      obtain rfl := h.first hnew
      rcases hparent with hmem | ⟨-, hfull⟩
      · cases hmem
      · exact absurd hfull (by decide)

theorem subSection_spec {r : Sections} (h : r.Inv) {parent : Path} (hparent : r.IsParent parent)
    (name : String) : (r.subSection parent name).Inv := by
  have hshape := subSection_shape h.toShape hparent name
  unfold subSection at hshape ⊢
  split_ifs at hshape ⊢
  · exact h
  · refine ⟨hshape, h.rooted, h.indexes, h.bound, h.parentsBelow, fun path hp => ?_⟩
    rcases List.mem_append.mp hp with hp | hp
    · exact h.missingBelow path hp
    · rw [List.mem_singleton.mp hp]
      rcases hparent with hmem | ⟨-, hfull⟩
      · obtain ⟨y, hy, hpath⟩ := List.mem_map.mp hmem
        exact .inr ⟨name, y, hy, by rw [hpath]⟩
      · exact .inl (Nat.le_succ_of_le hfull)

theorem fetchAdd_tree {r r' : Sections} {k : ℕ} (he : r.fetchAdd k = some r') :
    r'.tree = r.tree := by
  unfold fetchAdd at he
  split at he
  · cases he
  · cases he
    rfl

theorem fetchAdd_shape {r r' : Sections} {k : ℕ} (h : r.Shape) (he : r.fetchAdd k = some r') :
    r'.Shape := by
  unfold fetchAdd at he
  split at he
  · cases he
  · next path hk =>
    cases he
    have hunder := h.missing path (List.mem_of_getElem? hk)
    refine ⟨h.nonempty, h.noDummy, h.closed, h.paths, h.capacity, ?_, ?_, ?_⟩
    · intro x hx
      rcases List.mem_append.mp hx with hx | hx
      · exact h.parents x hx
      · rw [List.mem_singleton.mp hx]
        exact hunder
    · exact fun p hp => h.missing p (List.mem_of_mem_eraseIdx hp)
    · intro hnew
      obtain rfl := h.first hnew
      cases hk

theorem fetchAdd_spec {r r' : Sections} {k : ℕ} (h : r.Inv) (he : r.fetchAdd k = some r')
    (hw : r'.NoWrap) : r'.Inv := by
  have hshape := fetchAdd_shape h.toShape he
  unfold fetchAdd at he
  split at he
  · cases he
  · next path hk =>
    cases he
    have hindex := r.collectorIndexCount.toNat_value hw
    rw [hindex] at hshape ⊢
    refine ⟨hshape, h.rooted, ?_, ?_, ?_, ?_⟩
    · -- nobody has the index yet
      rw [← List.append_assoc, List.map_append]
      apply List.nodup_append_comm.mp
      refine List.nodup_cons.mpr ⟨fun hmem => ?_, h.indexes⟩
      obtain ⟨x, hx, heq⟩ := List.mem_map.mp hmem
      exact h.index_ne_next hx heq
    · intro x hx
      rw [← List.append_assoc] at hx
      rcases List.mem_append.mp hx with hx | hx
      · exact ⟨(h.bound x hx).1, Nat.le_succ_of_le (h.bound x hx).2⟩
      · rw [List.mem_singleton.mp hx]
        exact ⟨Nat.succ_pos _, Nat.le_refl _⟩
    · intro x hx
      rcases List.mem_append.mp hx with hx | hx
      · exact h.parentsBelow x hx
      · rw [List.mem_singleton.mp hx]
        exact h.missingBelow path (List.mem_of_getElem? hk)
    · exact fun p hp =>
        (h.missingBelow p (List.mem_of_mem_eraseIdx hp)).mono (Nat.le_succ _) fun _ => id

/-- The section of a call that gets the lock is dropped, or it is taken into the tree. -/
theorem emplace_cases {r r' : Sections} {k : ℕ} (he : r.emplace k = some r') :
    ∃ x, r.pending[k]? = some x ∧
      (r' = { r with pending := r.pending.eraseIdx k } ∨
      r' = { r with pending := r.pending.eraseIdx k, tree := r.tree ++ [x] } ∧
        x.collectorIndex < kCollectorSize ∧ x.path ∉ r.tree.map (·.path)) := by
  unfold emplace at he
  split at he
  · cases he
  · next x hk =>
    cases he
    refine ⟨x, hk, ?_⟩
    split_ifs with hdrop
    · exact .inl rfl
    · obtain ⟨hsize, hnone⟩ := not_or.mp hdrop
      exact .inr ⟨rfl, Nat.lt_of_not_le hsize,
        find?_eq_none (Option.not_isSome_iff_eq_none.mp hnone)⟩

theorem emplace_shape {r r' : Sections} {k : ℕ} (h : r.Shape) (he : r.emplace k = some r') :
    r'.Shape := by
  have hrest {y : TimerSection} (hy : y ∈ r.pending.eraseIdx k) : y ∈ r.pending :=
    List.mem_of_mem_eraseIdx hy
  obtain ⟨x, hk, rfl | ⟨rfl, hsize, hnew⟩⟩ := emplace_cases he
  · refine ⟨h.nonempty, h.noDummy, h.closed, h.paths, h.capacity, fun y hy => h.parents y (hrest hy),
      h.missing, fun hmain => ?_⟩
    obtain rfl := h.first hmain
    cases hk
  · have hx := List.mem_of_getElem? hk
    have hkept : ∀ y ∈ r.tree, y ∈ r.tree ++ [x] := fun y hy => List.mem_append_left _ hy
    obtain ⟨hnonempty, hdummy, hclosed, hpaths⟩ := h.tree_concat hnew (h.parents x hx)
    refine ⟨hnonempty, hdummy, hclosed, hpaths, ?_, fun y hy => (h.parents y (hrest hy)).mono hkept,
      fun path hp => (h.missing path hp).mono hkept, fun hmain => ?_⟩
    · intro y hy
      rcases List.mem_append.mp hy with hy | hy
      · exact h.capacity y hy
      · rw [List.mem_singleton.mp hy]
        exact hsize
    · have hold : mainPath ∉ r.tree.map (·.path) := fun hmem =>
        hmain (List.map_subset _ (List.subset_append_left _ _) hmem)
      obtain rfl := h.first hold
      cases hk

theorem emplace_spec {r r' : Sections} {k : ℕ} (h : r.Inv) (he : r.emplace k = some r') :
    r'.Inv ∧ Grows r r' := by
  have hshape := emplace_shape h.toShape he
  have hrest {y : TimerSection} (hy : y ∈ r.pending.eraseIdx k) : y ∈ r.pending :=
    List.mem_of_mem_eraseIdx hy
  obtain ⟨x, hk, rfl | ⟨rfl, hsize, hnew⟩⟩ := emplace_cases he
  · -- the index is lost
    refine ⟨⟨hshape, h.rooted, ?_, ?_, fun y hy => h.parentsBelow y (hrest hy), h.missingBelow⟩,
      .of_tree_eq rfl⟩
    · have hsub : (r.tree ++ r.pending.eraseIdx k).Sublist (r.tree ++ r.pending) :=
        (List.Sublist.refl _).append (List.eraseIdx_sublist ..)
      exact h.indexes.sublist (hsub.map _)
    · intro y hy
      rcases List.mem_append.mp hy with hy | hy
      · exact h.bound y (List.mem_append_left _ hy)
      · exact h.bound y (List.mem_append_right _ (hrest hy))
  · -- the section takes its index along from the pending ones into the tree
    have hx := List.mem_of_getElem? hk
    obtain ⟨name, above, habove, hpath⟩ :=
      (h.parentsBelow x hx).resolve_left (Nat.not_le_of_lt hsize)
    have hkept : ∀ y ∈ r.tree, y ∈ r.tree ++ [x] := fun y hy => List.mem_append_left _ hy
    have hperm : (r.tree ++ [x] ++ r.pending.eraseIdx k).Perm (r.tree ++ r.pending) := by
      obtain ⟨hlt, rfl⟩ := List.getElem?_eq_some_iff.mp hk
      rw [List.append_assoc, List.singleton_append]
      exact (List.getElem_cons_eraseIdx_perm hlt).append_left r.tree
    refine ⟨⟨hshape, ?_, ?_, ?_, ?_, ?_⟩, ⟨hkept, ?_⟩⟩
    · intro z hz
      rcases List.mem_append.mp hz with hz | hz
      · exact h.rooted z hz
      · rw [List.mem_singleton.mp hz, hpath]
        exact (h.rooted above habove).trans (List.suffix_cons ..)
    · rw [(hperm.map (·.collectorIndex)).nodup_iff]
      exact h.indexes
    · exact fun y hy => h.bound y (hperm.mem_iff.mp hy)
    · exact fun y hy => (h.parentsBelow y (hrest hy)).mono (Nat.le_refl _) hkept
    · exact fun path hp => (h.missingBelow path hp).mono (Nat.le_refl _) hkept
    · intro y hy
      rcases List.mem_append.mp hy with hy | hy
      · exact .inl hy
      · rw [List.mem_singleton.mp hy]
        refine .inr ⟨(h.bound x (List.mem_append_right _ hx)).1, fun z hz heq => ?_⟩
        have hnodup := h.indexes
        rw [List.map_append, List.nodup_append] at hnodup
        exact hnodup.2.2 _ (List.mem_map_of_mem hz) _ (List.mem_map_of_mem hx) heq

/-- All that is ever done to the sections. -/
inductive Step (r : Sections) : Sections → Prop
  | same : Step r r
  | getMainSection : Step r r.getMainSection.2
  | subSection {parent : Path} {name : String} (hparent : r.IsParent parent) :
      Step r (r.subSection parent name)
  | fetchAdd {k : ℕ} {r' : Sections} (he : r.fetchAdd k = some r') : Step r r'
  | emplace {k : ℕ} {r' : Sections} (he : r.emplace k = some r') : Step r r'

namespace Step
variable {r r' : Sections}

theorem shape (hs : r.Step r') (h : r.Shape) : r'.Shape := by
  cases hs with
  | same => exact h
  | getMainSection => exact (getMainSection_shape h).1
  | subSection hparent => exact subSection_shape h hparent _
  | fetchAdd he => exact fetchAdd_shape h he
  | emplace he => exact emplace_shape h he

theorem inv (hs : r.Step r') (h : r.Inv) (hw : r'.NoWrap) : r'.Inv ∧ Grows r r' := by
  cases hs with
  | same => exact ⟨h, .of_tree_eq rfl⟩
  | getMainSection => exact getMainSection_spec h
  | subSection hparent => exact ⟨subSection_spec h hparent _, .of_tree_eq (subSection_tree ..)⟩
  | fetchAdd he => exact ⟨fetchAdd_spec h he hw, .of_tree_eq (fetchAdd_tree he)⟩
  | emplace he => exact emplace_spec h he

theorem kept (hs : r.Step r') : ∀ x ∈ r.tree, x ∈ r'.tree := by
  intro x hx
  cases hs with
  | same => exact hx
  | getMainSection =>
    unfold Sections.getMainSection
    split
    · exact hx
    · exact List.mem_append_left _ hx
  | subSection => rwa [subSection_tree]
  | fetchAdd he => rwa [fetchAdd_tree he]
  | emplace he =>
    obtain ⟨y, -, rfl | ⟨rfl, -⟩⟩ := emplace_cases he
    · exact hx
    · exact List.mem_append_left _ hx

theorem drawn_le (hs : r.Step r') :
    r.collectorIndexCount.drawn ≤ r'.collectorIndexCount.drawn := by
  cases hs with
  | same => exact Nat.le_refl _
  | getMainSection =>
    unfold Sections.getMainSection
    split
    · exact Nat.le_refl _
    · exact Nat.le_succ _
  | subSection =>
    unfold Sections.subSection
    split <;> exact Nat.le_refl _
  | fetchAdd he =>
    unfold Sections.fetchAdd at he
    split at he
    · cases he
    · cases he
      exact Nat.le_succ _
  | emplace he =>
    obtain ⟨y, -, rfl | ⟨rfl, -⟩⟩ := emplace_cases he <;> exact Nat.le_refl _

theorem noWrap (hs : r.Step r') (hw : r'.NoWrap) : r.NoWrap := hs.drawn_le.trans_lt hw

end Step
end Sections

end CrisCore.Timer
