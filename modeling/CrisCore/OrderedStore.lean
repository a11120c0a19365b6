import Mathlib.Algebra.GroupWithZero.Nat
import Mathlib.Data.List.Basic
import Mathlib.Data.List.Induction
import Mathlib.Data.List.Perm.Subperm

/-! A key-value store that keeps its entries in the order of a comparator, as an association
list. A key that compares equal to an old one replaces it. -/
namespace CrisCore.OrderedStore
variable {κ ν : Type*} {cmp : κ → κ → Ordering} {k : κ} {v : ν} {l : List (κ × ν)}

def put (cmp : κ → κ → Ordering) (k : κ) (v : ν) : List (κ × ν) → List (κ × ν)
  | [] => [(k, v)]
  | e :: l =>
    match cmp k e.1 with
    | .lt => (k, v) :: e :: l
    | .eq => (k, v) :: l
    | .gt => e :: put cmp k v l

theorem mem_put_self (cmp : κ → κ → Ordering) (k : κ) (v : ν) (l : List (κ × ν)) :
    (k, v) ∈ put cmp k v l := by
  induction l with
  | nil => simp [put]
  | cons e l ih =>
    simp only [put]
    split <;> simp [ih]

theorem mem_put_of_mem {e : κ × ν} (h : e ∈ l) (hk : cmp k e.1 ≠ .eq) : e ∈ put cmp k v l := by
  induction l with
  | nil => cases h
  | cons f l ih =>
    simp only [put]
    rcases List.mem_cons.mp h with rfl | h
    · split
      · simp
      · contradiction
      · simp
    · split
      · simp [h]
      · simp [h]
      · simp [ih h]

theorem mem_of_mem_put {e : κ × ν} (h : e ∈ put cmp k v l) : e = (k, v) ∨ e ∈ l := by
  induction l with
  | nil => exact Or.inl (by simpa [put] using h)
  | cons f l ih =>
    simp only [put] at h
    split at h
    · rcases List.mem_cons.mp h with h | h
      · exact Or.inl h
      · exact Or.inr h
    · rcases List.mem_cons.mp h with h | h
      · exact Or.inl h
      · exact Or.inr (List.mem_cons_of_mem f h)
    · rcases List.mem_cons.mp h with rfl | h
      · exact Or.inr (List.mem_cons_self ..)
      · exact (ih h).imp_right (List.mem_cons_of_mem f)

/-- Entries are replaced but never lost to an empty store. -/
theorem put_ne_nil (cmp : κ → κ → Ordering) (k : κ) (v : ν) (l : List (κ × ν)) :
    put cmp k v l ≠ [] :=
  List.ne_nil_of_mem (mem_put_self cmp k v l)

/-- A put adds no more than its own entry. -/
theorem sum_map_put_le (cmp : κ → κ → Ordering) (k : κ) (v : ν) (l : List (κ × ν))
    (f : κ × ν → ℕ) : ((put cmp k v l).map f).sum ≤ (l.map f).sum + f (k, v) := by
  induction l with
  | nil => simp [put]
  | cons e l ih =>
    simp only [put]
    split <;> simp only [List.map_cons, List.sum_cons] <;> omega

/-- A key greater than all others goes to the end. -/
theorem put_eq_append (h : ∀ e ∈ l, cmp k e.1 = .gt) : put cmp k v l = l ++ [(k, v)] := by
  induction l with
  | nil => rfl
  | cons e l ih =>
    simp only [put, h e (List.mem_cons_self ..), List.cons_append]
    rw [ih fun f hf => h f (List.mem_cons_of_mem e hf)]

/-- The store that a sequence of puts leaves. -/
def ofPuts (cmp : κ → κ → Ordering) (l : List (κ × ν)) : List (κ × ν) :=
  l.foldl (fun entries e => put cmp e.1 e.2 entries) []

theorem ofPuts_append (cmp : κ → κ → Ordering) (l : List (κ × ν)) (e : κ × ν) :
    ofPuts cmp (l ++ [e]) = put cmp e.1 e.2 (ofPuts cmp l) := by
  simp only [ofPuts, List.foldl_append, List.foldl_cons, List.foldl_nil]

theorem mem_of_mem_ofPuts {e : κ × ν} (h : e ∈ ofPuts cmp l) : e ∈ l := by
  induction l using List.reverseRecOn with
  | nil => cases h
  | append_singleton l f ih =>
    rw [ofPuts_append] at h
    rcases mem_of_mem_put h with rfl | h
    · simp
    · exact List.mem_append_left _ (ih h)

theorem ofPuts_ne_nil (h : l ≠ []) : ofPuts cmp l ≠ [] := by
  obtain ⟨rest, e, rfl⟩ := (List.eq_nil_or_concat' l).resolve_left h
  rw [ofPuts_append]
  exact put_ne_nil _ _ _ _

/-- Puts with keys that all differ are all kept. -/
theorem mem_ofPuts_iff (h : l.Pairwise fun e f => cmp f.1 e.1 ≠ .eq) {e : κ × ν} :
    e ∈ ofPuts cmp l ↔ e ∈ l := by
  refine ⟨mem_of_mem_ofPuts, fun he => ?_⟩
  induction l using List.reverseRecOn with
  | nil => cases he
  | append_singleton l f ih =>
    obtain ⟨hl, -, hlast⟩ := List.pairwise_append.mp h
    rw [ofPuts_append]
    rcases List.mem_append.mp he with he | he
    · exact mem_put_of_mem (ih hl he) (hlast e he f (List.mem_singleton_self f))
    · rw [List.mem_singleton.mp he]
      exact mem_put_self ..

/-- The keys strictly increase. -/
def Sorted (cmp : κ → κ → Ordering) (l : List (κ × ν)) : Prop :=
  l.Pairwise fun e f => cmp e.1 f.1 = .lt

theorem perm_put (h : ∀ e ∈ l, cmp k e.1 ≠ .eq) : (put cmp k v l).Perm ((k, v) :: l) := by
  induction l with
  | nil => exact List.Perm.refl _
  | cons e l ih =>
    have ih := ih fun f hf => h f (List.mem_cons_of_mem e hf)
    simp only [put]
    cases hc : cmp k e.1 with
    | lt => exact List.Perm.refl _
    | eq => exact absurd hc (h e (List.mem_cons_self ..))
    | gt => exact (ih.cons e).trans (List.Perm.swap ..)

/-- Puts with keys that all differ leave just themselves. -/
theorem perm_ofPuts (h : l.Pairwise fun e f => cmp f.1 e.1 ≠ .eq) : (ofPuts cmp l).Perm l := by
  induction l using List.reverseRecOn with
  | nil => exact List.Perm.refl []
  | append_singleton l e ih =>
    obtain ⟨hl, -, hlast⟩ := List.pairwise_append.mp h
    have hput : (put cmp e.1 e.2 (ofPuts cmp l)).Perm ((e.1, e.2) :: ofPuts cmp l) := by
      apply perm_put
      intro f hf
      exact hlast f (mem_of_mem_ofPuts hf) e (List.mem_singleton_self e)
    rw [ofPuts_append]
    exact hput.trans (((ih hl).cons e).trans (List.perm_append_singleton e l).symm)

section Order
variable [Std.TransCmp cmp]

theorem Sorted.put (h : Sorted cmp l) (k : κ) (v : ν) : Sorted cmp (put cmp k v l) := by
  induction l with
  | nil => exact List.pairwise_singleton ..
  | cons e l ih =>
    obtain ⟨he, hl⟩ := List.pairwise_cons.mp h
    simp only [OrderedStore.put]
    cases hc : cmp k e.1 with
    | lt =>
      refine List.pairwise_cons.mpr ⟨fun f hf => ?_, h⟩
      rcases List.mem_cons.mp hf with rfl | hf
      · exact hc
      · exact Std.TransCmp.lt_trans hc (he f hf)
    | eq =>
      refine List.pairwise_cons.mpr ⟨fun f hf => ?_, hl⟩
      rw [Std.TransCmp.congr_left hc]
      exact he f hf
    | gt =>
      refine List.pairwise_cons.mpr ⟨fun f hf => ?_, ih hl⟩
      rcases mem_of_mem_put hf with rfl | hf
      · exact Std.OrientedCmp.gt_iff_lt.mp hc
      · exact he f hf

/-- Whatever was put, the store is in the order of its comparator. -/
theorem sorted_ofPuts (l : List (κ × ν)) : Sorted cmp (ofPuts cmp l) := by
  induction l using List.reverseRecOn with
  | nil => exact List.Pairwise.nil
  | append_singleton l e ih =>
    rw [ofPuts_append]
    exact ih.put e.1 e.2

/-- Puts in increasing order are kept as they are. -/
theorem Sorted.ofPuts_eq (h : Sorted cmp l) : ofPuts cmp l = l := by
  induction l using List.reverseRecOn with
  | nil => rfl
  | append_singleton l e ih =>
    obtain ⟨hl, -, hlast⟩ := List.pairwise_append.mp h
    rw [ofPuts_append, ih hl]
    apply put_eq_append
    intro f hf
    exact Std.OrientedCmp.gt_iff_lt.mpr (hlast f hf e (List.mem_singleton_self e))

theorem Sorted.nodup (h : Sorted cmp l) : l.Nodup := by
  refine List.Pairwise.imp (fun {e f} hlt heq => ?_) h
  have hself : cmp f.1 f.1 = .eq := Std.ReflCmp.compare_self
  rw [heq, hself] at hlt
  cases hlt

/-- When no put replaced an entry, the puts are what is in the store. -/
theorem perm_of_length_le_ofPuts (h : l.length ≤ (ofPuts cmp l).length) :
    (ofPuts cmp l).Perm l := by
  have hsub : List.Subperm (ofPuts cmp l) l :=
    List.subperm_of_subset (sorted_ofPuts l).nodup fun e he => mem_of_mem_ofPuts he
  exact hsub.perm_of_length_le h

end Order

section Map
variable {κ' : Type*} {cmp' : κ' → κ' → Ordering} {f : κ → κ'}

/-- Keys may be replaced by others that compare in the same way. -/
theorem map_put (h : ∀ a b, cmp' (f a) (f b) = cmp a b) :
    (put cmp k v l).map (Prod.map f id) = put cmp' (f k) v (l.map (Prod.map f id)) := by
  induction l with
  | nil => rfl
  | cons e l ih =>
    simp only [put, List.map_cons, Prod.map_fst, h]
    cases cmp k e.1 with
    | lt => rfl
    | eq => rfl
    | gt => simp only [List.map_cons, ih]

theorem map_ofPuts (h : ∀ a b, cmp' (f a) (f b) = cmp a b) :
    (ofPuts cmp l).map (Prod.map f id) = ofPuts cmp' (l.map (Prod.map f id)) := by
  induction l using List.reverseRecOn with
  | nil => rfl
  | append_singleton l e ih =>
    rw [ofPuts_append, map_put h, ih, List.map_append, List.map_singleton, ofPuts_append]
    rfl

end Map

end CrisCore.OrderedStore
