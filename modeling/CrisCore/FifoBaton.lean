import CrisCore.TransitionSystem
import Mathlib.Data.List.Infix
import Mathlib.Data.List.Nodup

/-! A baton that is passed in the order of arrival: the abstract purpose of a serializer.
At most one member holds the baton, the others wait in a queue. A member that arrives when the
baton is free and nobody waits may seize it at once. -/
namespace CrisCore

structure FifoBaton (α : Type*) where
  ended : List α := []
  holder : Option α := none
  waiting : List α := []

namespace FifoBaton
variable {α : Type*}

inductive Op (α : Type*)
  | join (a : α)
  | seize (a : α)
  | take
  | pass
  | clear

/-- The order of arrival of everybody who arrived and was not cleared away. -/
def arrivals (b : FifoBaton α) : List α :=
  b.ended ++ b.holder.toList ++ b.waiting

def step (b : FifoBaton α) : Op α → Option (FifoBaton α)
  | .join a => some { b with waiting := b.waiting ++ [a] }
  | .seize a =>
    if b.holder.isNone && b.waiting.isEmpty then some { b with holder := some a } else none
  | .take =>
    if b.holder.isNone then
      some { b with holder := b.waiting.head?, waiting := b.waiting.tail } else none
  | .pass =>
    match b.holder with
    | none => none
    | some a =>
      some { ended := b.ended ++ [a], holder := b.waiting.head?, waiting := b.waiting.tail }
  | .clear => some { b with waiting := [] }

def system (α : Type*) : TransitionSystem (FifoBaton α) (Op α) where
  init b := b = {}
  step := step

theorem head?_toList_append_tail (l : List α) : l.head?.toList ++ l.tail = l := by
  cases l <;> rfl

/-- Every operation but `clear` leaves the order of arrival as it is or adds to its end. -/
theorem arrivals_step {b c : FifoBaton α} {op : Op α} (h : b.step op = some c)
    (hop : op ≠ .clear) : ∃ l, c.arrivals = b.arrivals ++ l := by
  cases op with
  | join a =>
    cases h
    exact ⟨[a], by simp [arrivals]⟩
  -- nobody waits, so the one who seizes arrives last
  | seize a =>
    obtain ⟨ended, holder, waiting⟩ := b
    simp only [step] at h
    split at h
    case isTrue hc =>
      obtain ⟨hh, hw⟩ : holder = none ∧ waiting = [] := by simpa using hc
      cases h
      exact ⟨[a], by simp [arrivals, hh, hw]⟩
    case isFalse => cases h
  | take =>
    obtain ⟨ended, holder, waiting⟩ := b
    simp only [step] at h
    split at h
    case isTrue hc =>
      have hh : holder = none := by simpa using hc
      cases h
      -- the holder comes from the front of those who wait
      refine ⟨[], ?_⟩
      simp only [arrivals, hh, Option.toList_none, List.append_nil, List.append_assoc]
      rw [head?_toList_append_tail]
    case isFalse => cases h
  | pass =>
    obtain ⟨ended, holder, waiting⟩ := b
    simp only [step] at h
    cases holder with
    | none => cases h
    | some a =>
      cases h
      refine ⟨[], ?_⟩
      simp only [arrivals, Option.toList_some, List.append_nil, List.append_assoc]
      rw [head?_toList_append_tail]
  | clear => exact absurd rfl hop

/-- Whoever had arrived before another one came has ended when that one holds the baton. -/
theorem mem_ended_of_before {b c : FifoBaton α} {l : List α} (hl : c.arrivals = b.arrivals ++ l)
    {a x : α} (ha : a ∈ b.arrivals) (hx : x ∉ b.arrivals)
    (hc : x ∈ c.ended ∨ c.holder = some x) : a ∈ c.ended := by
  have hsplit : c.ended ++ (c.holder.toList ++ c.waiting) = b.arrivals ++ l := by
    rw [← List.append_assoc]
    exact hl
  rcases List.append_eq_append_iff.mp hsplit with ⟨t, hb, ht⟩ | ⟨t, hb, ht⟩
  · have hh : c.holder = some x := by
      refine hc.resolve_left fun h => hx ?_
      rw [hb]
      exact List.mem_append_left _ h
    rw [hh] at ht
    cases t with
    | nil =>
      rw [hb, List.append_nil] at ha
      exact ha
    | cons y t =>
      have hy : x = y := by
        simp only [Option.toList_some, List.cons_append, List.cons.injEq] at ht
        exact ht.1
      exact absurd (by simp [hb, hy]) hx
  · rw [hb]
    exact List.mem_append_left _ ha

end FifoBaton
end CrisCore
