import Mathlib.Data.List.Forall2
import Mathlib.Data.List.Perm.Basic

/-! Two lists that go along with each other, entry by entry, when one place of both is changed. -/
namespace CrisCore.PairedLists
open List (Forall₂)
variable {α β : Type*} {R : α → β → Prop} {l : List α} {m : List β} {k : ℕ} {a : α}

theorem getElem?_left (h : Forall₂ R l m) (hk : l[k]? = some a) : ∃ b, m[k]? = some b ∧ R a b := by
  obtain ⟨hlt, rfl⟩ := List.getElem?_eq_some_iff.mp hk
  have hlt' : k < m.length := h.length_eq ▸ hlt
  exact ⟨m[k], List.getElem?_eq_getElem hlt', h.get hlt hlt'⟩

theorem exists_left {b : β} (h : Forall₂ R l m) (hb : b ∈ m) : ∃ a ∈ l, R a b := by
  obtain ⟨k, hk⟩ := List.mem_iff_getElem?.mp hb
  obtain ⟨a, ha, hab⟩ := getElem?_left h.flip hk
  exact ⟨a, List.mem_of_getElem? ha, hab⟩

theorem imp_of_mem {S : α → β → Prop} (h : Forall₂ R l m) (hRS : ∀ a ∈ l, ∀ b, R a b → S a b) :
    Forall₂ S l m := by
  have hboth := (List.forall₂_and_left (p := (· ∈ l)) l m).mpr ⟨fun a ha => ha, h⟩
  exact hboth.imp fun a b ⟨ha, hab⟩ => hRS a ha b hab

theorem eraseIdx (h : Forall₂ R l m) (k : ℕ) : Forall₂ R (l.eraseIdx k) (m.eraseIdx k) := by
  induction h generalizing k with
  | nil => exact .nil
  | cons hab hrest ih =>
    cases k with
    | zero => exact hrest
    | succ k => exact .cons hab (ih k)

theorem concat {b : β} (h : Forall₂ R l m) (hab : R a b) : Forall₂ R (l ++ [a]) (m ++ [b]) :=
  List.rel_append h (.cons hab .nil)

/-- The entry at one place is replaced, the others may be looked at anew. -/
theorem set_modify {b : β} {f : β → β} (h : Forall₂ R (l.eraseIdx k) (m.eraseIdx k))
    (hm : m[k]? = some b) (hlen : l.length = m.length) (hab : R a (f b)) :
    Forall₂ R (l.set k a) (m.modify k f) := by
  induction l generalizing m k with
  | nil =>
    rw [List.length_nil, eq_comm, List.length_eq_zero_iff] at hlen
    rw [hlen] at hm
    cases hm
  | cons x l ih =>
    cases m with
    | nil => cases hm
    | cons y m =>
      cases k with
      | zero =>
        cases hm
        exact .cons hab h
      | succ k =>
        cases h with
        | cons hxy h => exact .cons hxy (ih h hm (Nat.succ.inj hlen))

theorem set {b : β} (h : Forall₂ R (l.eraseIdx k) (m.eraseIdx k)) (hm : m[k]? = some b)
    (hlen : l.length = m.length) (hab : R a b) : Forall₂ R (l.set k a) m := by
  have hset := set_modify (f := id) h hm hlen hab
  rw [List.modify_id] at hset
  exact hset

theorem mem_modify_self {f : β → β} {b : β} (hm : m[k]? = some b) : f b ∈ m.modify k f := by
  apply List.mem_iff_getElem?.mpr
  refine ⟨k, ?_⟩
  rw [List.getElem?_modify_eq, hm]
  rfl

/-- Only the entry that is changed may be gone. -/
theorem mem_modify_of_mem {f : β → β} {b c : β} (hm : m[k]? = some b) (hc : c ∈ m) :
    c ∈ m.modify k f ∨ c = b := by
  obtain ⟨j, hj⟩ := List.mem_iff_getElem?.mp hc
  by_cases hkj : k = j
  · subst hkj
    exact .inr (Option.some.inj (hj.symm.trans hm))
  · refine .inl (List.mem_iff_getElem?.mpr ⟨j, ?_⟩)
    rw [List.getElem?_modify_ne f m hkj]
    exact hj

theorem mem_eraseIdx_of_mem {b c : β} (hm : m[k]? = some b) (hc : c ∈ m) :
    c ∈ m.eraseIdx k ∨ c = b := by
  obtain ⟨hlt, rfl⟩ := List.getElem?_eq_some_iff.mp hm
  have hperm := (List.getElem_cons_eraseIdx_perm hlt).mem_iff.mpr hc
  exact (List.mem_cons.mp hperm).symm

end CrisCore.PairedLists
