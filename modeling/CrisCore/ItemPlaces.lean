import Mathlib.Data.List.Perm.Basic
import Mathlib.Data.List.Nodup
import Mathlib.Logic.Function.Basic

/-! Items that move between places, one at a time, and are never in two places. -/
namespace CrisCore

/-- No place holds an item twice and no two places hold the same item. -/
structure Exclusive {P ι : Type*} (held : P → List ι) : Prop where
  nodup : ∀ p, (held p).Nodup
  apart : ∀ p q, p ≠ q → List.Disjoint (held p) (held q)

namespace Exclusive
variable {P ι : Type*} {held held' : P → List ι} {p q : P} {item : ι}

theorem of_empty (h : ∀ p, held p = []) : Exclusive held :=
  ⟨fun p => by simp [h p], fun p q _ => by simp [h p]⟩

/-- A new item is put down. -/
theorem add (h : Exclusive held) (hq : (held' q).Perm (item :: held q))
    (hnew : ∀ r, item ∉ held r) (hr : ∀ r, r ≠ q → held' r = held r) : Exclusive held' := by
  have hfresh (r : P) (hne : r ≠ q) : List.Disjoint (held' q) (held r) := by
    intro x hx hx'
    rcases List.mem_cons.mp (hq.mem_iff.mp hx) with rfl | hx
    · exact hnew r hx'
    · exact h.apart q r hne.symm hx hx'
  constructor
  · intro r
    by_cases hrq : r = q
    · rw [hrq, hq.nodup_iff]
      exact List.nodup_cons.mpr ⟨hnew q, h.nodup q⟩
    · rw [hr r hrq]
      exact h.nodup r
  · intro r r' hne
    by_cases hrq : r = q
    · rw [hrq, hr r' fun hr' => hne (hrq.trans hr'.symm)]
      exact hfresh r' fun hr' => hne (hrq.trans hr'.symm)
    · rw [hr r hrq]
      by_cases hrq' : r' = q
      · rw [hrq']
        exact fun x hx hx' => hfresh r hrq hx' hx
      · rw [hr r' hrq']
        exact h.apart r r' hne

/-- An item is given up for good. -/
theorem drop (h : Exclusive held) (hp : (held p).Perm (item :: held' p))
    (hr : ∀ r, r ≠ p → held' r = held r) :
    Exclusive held' ∧ ∀ r, item ∉ held' r := by
  have hsub (r : P) : ∀ x ∈ held' r, x ∈ held r := by
    intro x hx
    by_cases hrp : r = p
    · subst hrp
      exact hp.mem_iff.mpr (List.mem_cons_of_mem item hx)
    · rwa [hr r hrp] at hx
  have hnodup : (item :: held' p).Nodup := hp.nodup_iff.mp (h.nodup p)
  have hitem : item ∈ held p := hp.mem_iff.mpr List.mem_cons_self
  refine ⟨⟨fun r => ?_, fun r r' hne x hx hx' => ?_⟩, fun r hx => ?_⟩
  · by_cases hrp : r = p
    · rw [hrp]
      exact (List.nodup_cons.mp hnodup).2
    · rw [hr r hrp]
      exact h.nodup r
  · exact h.apart r r' hne (hsub r x hx) (hsub r' x hx')
  · by_cases hrp : r = p
    · rw [hrp] at hx
      exact (List.nodup_cons.mp hnodup).1 hx
    · exact h.apart p r (Ne.symm hrp) hitem (hsub r item hx)

/-- An item goes from one place to another. -/
theorem move [DecidableEq P] (h : Exclusive held) (hne : p ≠ q)
    (hp : (held p).Perm (item :: held' p)) (hq : (held' q).Perm (item :: held q))
    (hr : ∀ r, r ≠ p → r ≠ q → held' r = held r) : Exclusive held' := by
  let between := Function.update held p (held' p)
  have hbetween (r : P) (hrp : r ≠ p) : between r = held r := Function.update_of_ne hrp _ _
  have hself : between p = held' p := Function.update_self ..
  obtain ⟨hdropped, hnew⟩ : Exclusive between ∧ ∀ r, item ∉ between r :=
    h.drop (by rwa [hself]) hbetween
  apply hdropped.add (q := q) (by rwa [hbetween q hne.symm]) hnew
  intro r hrq
  by_cases hrp : r = p
  · rw [hrp, hself]
  · rw [hbetween r hrp, hr r hrp hrq]

/-- A move neither makes an item nor loses one. -/
theorem exists_mem_move (hp : (held p).Perm (item :: held' p))
    (hq : (held' q).Perm (item :: held q)) (hr : ∀ r, r ≠ p → r ≠ q → held' r = held r)
    (x : ι) : (∃ r, x ∈ held' r) ↔ ∃ r, x ∈ held r := by
  constructor
  · rintro ⟨r, hx⟩
    by_cases hrp : r = p
    · exact ⟨p, hp.mem_iff.mpr (List.mem_cons_of_mem item (hrp ▸ hx))⟩
    by_cases hrq : r = q
    · rcases List.mem_cons.mp (hq.mem_iff.mp (hrq ▸ hx)) with rfl | hx
      · exact ⟨p, hp.mem_iff.mpr List.mem_cons_self⟩
      · exact ⟨q, hx⟩
    · exact ⟨r, hr r hrp hrq ▸ hx⟩
  · rintro ⟨r, hx⟩
    by_cases hrp : r = p
    · rcases List.mem_cons.mp (hp.mem_iff.mp (hrp ▸ hx)) with rfl | hx
      · exact ⟨q, hq.mem_iff.mpr List.mem_cons_self⟩
      · exact ⟨p, hx⟩
    by_cases hrq : r = q
    · exact ⟨q, hq.mem_iff.mpr (List.mem_cons_of_mem item (hrq ▸ hx))⟩
    · exact ⟨r, (hr r hrp hrq).symm ▸ hx⟩

/-- A place gets new items in place of what it held. -/
theorem add_all {items : List ι} (h : Exclusive held) (hq' : held' q = items)
    (hnodup : items.Nodup) (hnew : ∀ x ∈ items, ∀ r, x ∉ held r)
    (hr : ∀ r, r ≠ q → held' r = held r) : Exclusive held' := by
  have hfresh (r : P) (hne : r ≠ q) : List.Disjoint (held' q) (held' r) := by
    intro x hx hx'
    rw [hr r hne] at hx'
    exact hnew x (hq' ▸ hx) r hx'
  constructor
  · intro r
    by_cases hrq : r = q
    · rw [hrq, hq']
      exact hnodup
    · rw [hr r hrq]
      exact h.nodup r
  · intro r r' hne
    by_cases hrq : r = q
    · rw [hrq]
      exact hfresh r' fun hr' => hne (hrq.trans hr'.symm)
    by_cases hrq' : r' = q
    · rw [hrq']
      exact fun x hx hx' => hfresh r hrq hx' hx
    · rw [hr r hrq, hr r' hrq']
      exact h.apart r r' hne

end Exclusive
end CrisCore
