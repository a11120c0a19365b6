import Mathlib.Data.List.Perm.Basic

/-! Merging sources that each hold a part of one sorted list, by always going on with the source
whose next item is least. -/
namespace CrisCore.PriorityMerge
variable {α ρ ι : Type*}

/-- A way to take the greatest element out of a list, as `std::pop_heap` does. Which one of several
greatest it takes is left open. -/
structure TakeMax (less : α → α → Bool) where
  take : List α → Option (α × List α)
  take_nil : take [] = none
  take_cons : ∀ x l, ∃ y rest, take (x :: l) = some (y, rest) ∧ (y :: rest).Perm (x :: l) ∧
    ∀ z ∈ x :: l, less y z = false

section Scan
variable (less : α → α → Bool)

def scanMax : List α → Option (α × List α)
  | [] => none
  | x :: l =>
    match scanMax l with
    | none => some (x, [])
    | some (y, rest) => if less x y then some (y, x :: rest) else some (x, y :: rest)

variable {less}

theorem scanMax_cons (hirr : ∀ a, less a a = false)
    (hasymm : ∀ a b, less a b = true → less b a = false)
    (htrans : ∀ a b c, less a b = false → less b c = false → less a c = false) (x : α) (l : List α) :
    ∃ y rest, scanMax less (x :: l) = some (y, rest) ∧ (y :: rest).Perm (x :: l) ∧
      ∀ z ∈ x :: l, less y z = false := by
  induction l generalizing x with
  | nil => exact ⟨x, [], rfl, List.Perm.refl _, by simpa using hirr x⟩
  | cons a l ih =>
    obtain ⟨y, rest, hy, hperm, hmax⟩ := ih a
    rw [scanMax, hy]
    by_cases hxy : less x y = true
    · refine ⟨y, x :: rest, by simp [hxy], ?_, ?_⟩
      · exact (List.Perm.swap x y rest).trans (hperm.cons x)
      · rintro z (_ | ⟨_, hz⟩)
        · exact hasymm x y hxy
        · exact hmax z hz
    · have hxy : less x y = false := by simpa using hxy
      refine ⟨x, y :: rest, by simp [hxy], hperm.cons x, ?_⟩
      rintro z (_ | ⟨_, hz⟩)
      · exact hirr x
      · exact htrans x y z hxy (hmax z hz)

/-- A scan through the list takes the greatest element of a total preorder. -/
def TakeMax.scan (hirr : ∀ a, less a a = false) (hasymm : ∀ a b, less a b = true → less b a = false)
    (htrans : ∀ a b c, less a b = false → less b c = false → less a c = false) :
    TakeMax less where
  take := scanMax less
  take_nil := rfl
  take_cons := scanMax_cons hirr hasymm htrans

end Scan

variable [DecidableEq ι] {source : α → ι} {tag : ρ → ι} {Holds : ρ → List α → Prop}
  {log : List α} {queue : List ρ}

/-- The sources in the queue hold what is left of a list, each the items that are its own. -/
structure Feeds (source : α → ι) (tag : ρ → ι) (Holds : ρ → List α → Prop) (log : List α)
    (queue : List ρ) : Prop where
  nodup : (queue.map tag).Nodup
  holds : ∀ r ∈ queue, Holds r (log.filter fun e => source e = tag r)
  needed : ∀ r ∈ queue, ∃ e ∈ log, source e = tag r
  covers : ∀ e ∈ log, ∃ r ∈ queue, tag r = source e

namespace Feeds

theorem perm {queue' : List ρ} (h : Feeds source tag Holds log queue) (hp : queue'.Perm queue) :
    Feeds source tag Holds log queue' where
  nodup := (hp.map tag).nodup_iff.mpr h.nodup
  holds r hr := h.holds r (hp.mem_iff.mp hr)
  needed r hr := h.needed r (hp.mem_iff.mp hr)
  covers e he := (h.covers e he).imp fun _ hr => ⟨hp.mem_iff.mpr hr.1, hr.2⟩

theorem queue_eq_nil (h : Feeds source tag Holds [] queue) : queue = [] := by
  refine List.eq_nil_iff_forall_not_mem.mpr fun r hr => ?_
  obtain ⟨e, he, -⟩ := h.needed r hr
  cases he

theorem ne_nil {e : α} (h : Feeds source tag Holds (e :: log) queue) : queue ≠ [] := by
  obtain ⟨r, hr, -⟩ := h.covers e (by simp)
  exact List.ne_nil_of_mem hr

/-- The source with a least next item is the one that holds the next item of the list. -/
theorem tag_of_least {lt : α → α → Prop} {e : α} {r : ρ}
    (h : Feeds source tag Holds (e :: log) queue) (hsorted : (e :: log).Pairwise lt) (hr : r ∈ queue)
    (hleast : ∀ r' ∈ queue, ∀ l l' x y, Holds r (x :: l) → Holds r' (y :: l') → ¬ lt y x) :
    tag r = source e := by
  obtain ⟨r₀, hr₀, hid₀⟩ := h.covers e (by simp)
  have hhead : Holds r₀ (e :: log.filter fun e => source e = tag r₀) := by
    have := h.holds r₀ hr₀
    rwa [List.filter_cons_of_pos (by simp [hid₀])] at this
  -- the least item of any other source comes later than `e`
  by_contra hne
  have hrest : Holds r (log.filter fun e => source e = tag r) := by
    have := h.holds r hr
    rwa [List.filter_cons_of_neg (by simpa using fun he => hne he.symm)] at this
  obtain ⟨x, hx, hxid⟩ := h.needed r hr
  cases hl : log.filter fun e => source e = tag r with
  | nil =>
    -- but the queue has sources only that hold something
    rcases List.mem_cons.mp hx with rfl | hx
    · exact hne hxid.symm
    · have hmem : x ∈ log.filter fun e => source e = tag r := List.mem_filter.mpr ⟨hx, by simpa⟩
      rw [hl] at hmem
      cases hmem
  | cons y l =>
    rw [hl] at hrest
    have hy : y ∈ log := by
      have hmem : y ∈ log.filter fun e => source e = tag r := by simp [hl]
      exact List.mem_of_mem_filter hmem
    exact hleast r₀ hr₀ l _ y e hrest hhead ((List.pairwise_cons.mp hsorted).1 y hy)

theorem frame {e : α} {r : ρ} (h : Feeds source tag Holds (e :: log) (r :: queue))
    (hid : tag r = source e) : ∀ r' ∈ queue, tag r' ≠ source e := by
  intro r' hr' he
  have hn := (List.nodup_cons.mp h.nodup).1
  rw [hid, ← he] at hn
  exact hn (List.mem_map_of_mem hr')

/-- The sources in the rest of the queue hold what they held, and that is not nothing. -/
theorem others {e : α} {r : ρ} (h : Feeds source tag Holds (e :: log) (r :: queue))
    (hid : tag r = source e) (q : ρ) (hq : q ∈ queue) :
    Holds q (log.filter fun x => source x = tag q) ∧ ∃ x ∈ log, source x = tag q := by
  have hne : tag q ≠ source e := h.frame hid q hq
  have hholds := h.holds q (List.mem_cons_of_mem r hq)
  rw [List.filter_cons_of_neg (by simpa using hne.symm)] at hholds
  obtain ⟨x, hx, hxq⟩ := h.needed q (List.mem_cons_of_mem r hq)
  refine ⟨hholds, x, ?_, hxq⟩
  rcases List.mem_cons.mp hx with rfl | hx
  · exact absurd hxq.symm hne
  · exact hx

/-- The source of the item just taken goes back to the queue while it holds more. -/
theorem next {e : α} {r r' : ρ} (h : Feeds source tag Holds (e :: log) (r :: queue))
    (hid : tag r = source e) (hid' : tag r' = tag r)
    (hholds : Holds r' (log.filter fun e => source e = tag r)) (hmore : ∃ x ∈ log, source x = tag r) :
    Feeds source tag Holds log (r' :: queue) := by
  refine ⟨?_, ?_, ?_, fun x hx => ?_⟩
  · simpa only [List.map_cons, hid'] using h.nodup
  · rintro q (_ | ⟨_, hq⟩)
    · rwa [hid']
    · exact (h.others hid q hq).1
  · rintro q (_ | ⟨_, hq⟩)
    · rwa [hid']
    · exact (h.others hid q hq).2
  · obtain ⟨q, hq, hqx⟩ := h.covers x (List.mem_cons_of_mem e hx)
    rcases List.mem_cons.mp hq with rfl | hq
    · exact ⟨r', by simp, hid'.trans hqx⟩
    · exact ⟨q, List.mem_cons_of_mem r' hq, hqx⟩

/-- A source that holds no more leaves the queue. -/
theorem done {e : α} {r : ρ} (h : Feeds source tag Holds (e :: log) (r :: queue))
    (hid : tag r = source e) (hno : ∀ x ∈ log, source x ≠ tag r) :
    Feeds source tag Holds log queue := by
  refine ⟨(List.nodup_cons.mp h.nodup).2, fun q hq => (h.others hid q hq).1,
    fun q hq => (h.others hid q hq).2, fun x hx => ?_⟩
  · obtain ⟨q, hq, hqx⟩ := h.covers x (List.mem_cons_of_mem e hx)
    rcases List.mem_cons.mp hq with rfl | hq
    · exact absurd hqx.symm (hno x hx)
    · exact ⟨q, hq, hqx⟩

end Feeds

/-! A merge seen from its result. -/

/-- The list takes the items of all the lists, each once, those of one list in their order. -/
inductive Interleaves : List (List α) → List α → Prop
  | nil {ls : List (List α)} (h : ∀ l ∈ ls, l = []) : Interleaves ls []
  | cons {ls rest : List (List α)} {x : α} {l out : List α} (h : ls.Perm ((x :: l) :: rest))
      (hout : Interleaves (l :: rest) out) : Interleaves ls (x :: out)

namespace Interleaves
variable {ls ls' : List (List α)} {out l : List α}

theorem of_perm (h : Interleaves ls out) (hp : ls'.Perm ls) : Interleaves ls' out := by
  cases h with
  | nil hnil => exact .nil fun l hl => hnil l (hp.mem_iff.mp hl)
  | cons hls hout => exact .cons (hp.trans hls) hout

/-- A list without items may join. -/
theorem cons_nil (h : Interleaves ls out) : Interleaves ([] :: ls) out := by
  induction h with
  | nil hnil =>
    refine .nil fun l hl => ?_
    rcases List.mem_cons.mp hl with rfl | hl
    · rfl
    · exact hnil l hl
  | @cons ls rest x l out hls hout ih =>
    have hp : ([] :: ls).Perm ((x :: l) :: [] :: rest) :=
      (hls.cons []).trans (List.Perm.swap (x :: l) [] rest)
    exact .cons hp (ih.of_perm (List.Perm.swap [] l rest))

theorem flatten_eq (h : Interleaves ls out) : out.Perm ls.flatten := by
  induction h with
  | @nil ls hnil =>
    have hflat : ls.flatten = [] := List.flatten_eq_nil_iff.mpr hnil
    rw [hflat]
  | @cons ls rest x l out hls hout ih => exact (ih.cons x).trans hls.flatten.symm

theorem sublist (h : Interleaves ls out) (hl : l ∈ ls) : l.Sublist out := by
  induction h generalizing l with
  | nil hnil =>
    rw [hnil l hl]
  | @cons ls rest x l' out hls hout ih =>
    rcases List.mem_cons.mp (hls.mem_iff.mp hl) with rfl | hl
    · exact (ih List.mem_cons_self).cons_cons x
    · exact (ih (List.mem_cons_of_mem l' hl)).cons x

end Interleaves
end CrisCore.PriorityMerge
