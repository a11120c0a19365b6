import CrisCore.ItemPlaces
import CrisCore.TransitionSystem
import Mathlib.Data.List.Range

/-! Numbered items that are brought by callers, put into first-in first-out queues, and taken out one
by one to be held until they are finished, or to be thrown away. Any callers, queues and holders take
their turns in any order. -/
namespace CrisCore

structure Ledger (C Q R : Type*) where
  /-- The items brought so far are the numbers below it. -/
  count : ℕ
  carried : C → List ℕ
  queue : Q → List ℕ
  held : R → Option ℕ
  finished : List ℕ
  discarded : Q → List ℕ
  /-- History: the items put into a queue, and those taken from it to be held. -/
  pushed : Q → List ℕ
  taken : Q → List ℕ

namespace Ledger
variable {C Q R : Type*}

def empty : Ledger C Q R where
  count := 0
  carried := fun _ => []
  queue := fun _ => []
  held := fun _ => none
  finished := []
  discarded := fun _ => []
  pushed := fun _ => []
  taken := fun _ => []

inductive Op (C Q R : Type*)
  | bring (c : C) (n : ℕ)
  | push (c : C) (q : Q)
  | take (r : R) (q : Q)
  | finish (r : R)
  | discard (q : Q)

section Operations
variable [DecidableEq C] [DecidableEq Q] [DecidableEq R]

/-- Nothing is taken from a queue any more once it is being thrown away. -/
def apply (l : Ledger C Q R) : Op C Q R → Option (Ledger C Q R)
  | .bring c n =>
    if l.carried c = [] then
      some { l with
        count := l.count + n
        carried := Function.update l.carried c (List.range' l.count n) }
    else none
  | .push c q =>
    match l.carried c with
    | item :: left => some { l with
        carried := Function.update l.carried c left
        queue := Function.update l.queue q (l.queue q ++ [item])
        pushed := Function.update l.pushed q (l.pushed q ++ [item]) }
    | [] => none
  | .take r q =>
    match l.queue q with
    | item :: rest =>
      if l.held r = none ∧ l.discarded q = [] then
        some { l with
          queue := Function.update l.queue q rest
          held := Function.update l.held r (some item)
          taken := Function.update l.taken q (l.taken q ++ [item]) }
      else none
    | [] => none
  | .finish r =>
    match l.held r with
    | some item => some { l with
        held := Function.update l.held r none
        finished := l.finished ++ [item] }
    | none => none
  | .discard q =>
    match l.queue q with
    | item :: rest => some { l with
        queue := Function.update l.queue q rest
        discarded := Function.update l.discarded q (l.discarded q ++ [item]) }
    | [] => none

def system : TransitionSystem (Ledger C Q R) (Op C Q R) where
  init l := l = empty
  step := apply

inductive Place (C Q R : Type*)
  | carried (c : C)
  | queue (q : Q)
  | held (r : R)
  | finished
  | discarded (q : Q)
  deriving DecidableEq

def at_ (l : Ledger C Q R) : Place C Q R → List ℕ
  | .carried c => l.carried c
  | .queue q => l.queue q
  | .held r => (l.held r).toList
  | .finished => l.finished
  | .discarded q => l.discarded q

/-- What an operation does, with the state it leads to. -/
inductive Step (l : Ledger C Q R) : Op C Q R → Ledger C Q R → Prop
  | bring {c : C} (n : ℕ) (hc : l.carried c = []) : Step l (.bring c n) { l with
      count := l.count + n
      carried := Function.update l.carried c (List.range' l.count n) }
  | push {c : C} (q : Q) {item : ℕ} {left : List ℕ} (hc : l.carried c = item :: left) :
    Step l (.push c q) { l with
      carried := Function.update l.carried c left
      queue := Function.update l.queue q (l.queue q ++ [item])
      pushed := Function.update l.pushed q (l.pushed q ++ [item]) }
  | take {r : R} {q : Q} {item : ℕ} {rest : List ℕ} (hq : l.queue q = item :: rest)
      (hr : l.held r = none) (hd : l.discarded q = []) : Step l (.take r q) { l with
      queue := Function.update l.queue q rest
      held := Function.update l.held r (some item)
      taken := Function.update l.taken q (l.taken q ++ [item]) }
  | finish {r : R} {item : ℕ} (hr : l.held r = some item) : Step l (.finish r) { l with
      held := Function.update l.held r none
      finished := l.finished ++ [item] }
  | discard {q : Q} {item : ℕ} {rest : List ℕ} (hq : l.queue q = item :: rest) :
    Step l (.discard q) { l with
      queue := Function.update l.queue q rest
      discarded := Function.update l.discarded q (l.discarded q ++ [item]) }

variable {l l' : Ledger C Q R} {op : Op C Q R}

theorem step_of_apply (h : l.apply op = some l') : Step l op l' := by
  cases op with
  | bring c n =>
    simp only [apply] at h
    split_ifs at h with hc
    cases h
    exact .bring n hc
  | push c q =>
    simp only [apply] at h
    split at h
    · cases h
      exact .push q ‹_›
    · cases h
  | take r q =>
    simp only [apply] at h
    split at h
    · split_ifs at h with hr
      cases h
      exact .take ‹_› hr.1 hr.2
    · cases h
  | finish r =>
    simp only [apply] at h
    split at h
    · cases h
      exact .finish ‹_›
    · cases h
  | discard q =>
    simp only [apply] at h
    split at h
    · cases h
      exact .discard ‹_›
    · cases h

/-- Every item brought is in one place; a queue gives its items up in the order it got them. -/
structure Inv (l : Ledger C Q R) : Prop where
  exclusive : Exclusive l.at_
  placed : ∀ item, item < l.count ↔ ∃ p, item ∈ l.at_ p
  fifo : ∀ q, l.taken q ++ l.discarded q ++ l.queue q = l.pushed q

/-- An item that goes from one place to another, everything else staying where it is. -/
theorem inv_move {p q : Place C Q R} {i : ℕ} (h : Inv l) (hne : p ≠ q)
    (hp : l.at_ p = i :: l'.at_ p) (hq : (l'.at_ q).Perm (i :: l.at_ q))
    (hr : ∀ r, r ≠ p → r ≠ q → l'.at_ r = l.at_ r) (hcount : l'.count = l.count)
    (hfifo : ∀ q, l'.taken q ++ l'.discarded q ++ l'.queue q = l'.pushed q) : Inv l' := by
  have hperm := List.Perm.of_eq hp
  refine ⟨h.exclusive.move hne hperm hq hr, fun x => ?_, hfifo⟩
  rw [hcount, h.placed, Exclusive.exists_mem_move hperm hq hr]

theorem inv_bring {c : C} {n : ℕ} (h : Inv l) (hc : l.carried c = []) :
    Inv { l with
      count := l.count + n
      carried := Function.update l.carried c (List.range' l.count n) } := by
  have hnew (x : ℕ) (hx : x ∈ List.range' l.count n) (r : Place C Q R) : x ∉ l.at_ r := by
    intro hmem
    have hlt := (h.placed x).mpr ⟨r, hmem⟩
    rw [List.mem_range'_1] at hx
    omega
  have hother (r : Place C Q R) (hr : r ≠ .carried c) :
      at_ { l with
        count := l.count + n
        carried := Function.update l.carried c (List.range' l.count n) } r = l.at_ r := by
    cases r with
    | carried c' => exact Function.update_of_ne (fun heq => hr (congrArg Place.carried heq)) ..
    | _ => rfl
  have hself := Function.update_self c (List.range' l.count n) l.carried
  refine ⟨h.exclusive.add_all (q := .carried c) hself List.nodup_range' hnew hother,
    fun x => ?_, h.fifo⟩
  -- the new numbers are in the call, and the others where they were
  constructor
  · intro hx
    by_cases hold : x < l.count
    · obtain ⟨p, hp⟩ := (h.placed x).mp hold
      have hpc : p ≠ .carried c := by
        rintro rfl
        simp [at_, hc] at hp
      exact ⟨p, by rwa [hother p hpc]⟩
    · refine ⟨.carried c, ?_⟩
      change x ∈ Function.update l.carried c (List.range' l.count n) c
      rw [hself, List.mem_range'_1]
      exact ⟨Nat.le_of_not_lt hold, hx⟩
  · rintro ⟨p, hp⟩
    by_cases hpc : p = .carried c
    · subst hpc
      change x ∈ Function.update l.carried c (List.range' l.count n) c at hp
      rw [hself, List.mem_range'_1] at hp
      exact hp.2
    · rw [hother p hpc] at hp
      exact Nat.lt_of_lt_of_le ((h.placed x).mpr ⟨p, hp⟩) (Nat.le_add_right ..)

theorem inv_step (h : Inv l) (hs : Step l op l') : Inv l' := by
  cases hs with
  | bring n hc => exact inv_bring h hc
  | @push c q item left hc =>
    apply inv_move h (p := .carried c) (q := .queue q) (i := item) (by simp)
    · simp only [at_, Function.update_self, hc]
    · simp only [at_, Function.update_self]
      exact List.perm_append_singleton ..
    · intro r hp hq
      cases r with
      | carried c' => exact Function.update_of_ne (fun heq => hp (congrArg Place.carried heq)) ..
      | queue q' => exact Function.update_of_ne (fun heq => hq (congrArg Place.queue heq)) ..
      | _ => rfl
    · rfl
    · intro q'
      rcases eq_or_ne q' q with rfl | hne
      · simp only [Function.update_self, ← List.append_assoc, h.fifo]
      · simp only [Function.update_of_ne hne, h.fifo]
  | @take r q item rest hq hr hd =>
    apply inv_move h (p := .queue q) (q := .held r) (i := item) (by simp)
    · simp only [at_, Function.update_self, hq]
    · simp only [at_, Function.update_self, hr, Option.toList_some, Option.toList_none]
      exact List.Perm.refl _
    · intro p hp hq
      cases p with
      | queue q' => exact Function.update_of_ne (fun heq => hp (congrArg Place.queue heq)) ..
      | held r' =>
        have hne : r' ≠ r := fun heq => hq (congrArg Place.held heq)
        exact congrArg Option.toList (Function.update_of_ne hne ..)
      | _ => rfl
    · rfl
    · intro q'
      rcases eq_or_ne q' q with rfl | hne
      -- nothing of this queue was discarded, so its oldest item comes right after those taken
      · have hfifo := h.fifo q'
        rw [hd, hq, List.append_nil] at hfifo
        simp only [Function.update_self, hd, List.append_nil, List.append_assoc,
          List.cons_append, List.nil_append, hfifo]
      · simp only [Function.update_of_ne hne, h.fifo]
  | @finish r item hr =>
    apply inv_move h (p := .held r) (q := .finished) (i := item) (by simp)
    · simp only [at_, Function.update_self, hr, Option.toList_some, Option.toList_none]
    · exact List.perm_append_singleton ..
    · intro p hp hq
      cases p with
      | held r' =>
        have hne : r' ≠ r := fun heq => hp (congrArg Place.held heq)
        exact congrArg Option.toList (Function.update_of_ne hne ..)
      | finished => exact absurd rfl hq
      | _ => rfl
    · rfl
    · exact h.fifo
  | @discard q item rest hq =>
    apply inv_move h (p := .queue q) (q := .discarded q) (i := item) (by simp)
    · simp only [at_, Function.update_self, hq]
    · simp only [at_, Function.update_self]
      exact List.perm_append_singleton ..
    · intro p hp hq
      cases p with
      | queue q' => exact Function.update_of_ne (fun heq => hp (congrArg Place.queue heq)) ..
      | discarded q' => exact Function.update_of_ne (fun heq => hq (congrArg Place.discarded heq)) ..
      | _ => rfl
    · rfl
    · intro q'
      rcases eq_or_ne q' q with rfl | hne
      -- what is discarded comes after those taken, and before the rest of the queue
      · have hfifo := h.fifo q'
        rw [hq] at hfifo
        simp only [Function.update_self, List.append_assoc, List.cons_append, List.nil_append]
        simpa only [List.append_assoc] using hfifo
      · simp only [Function.update_of_ne hne, h.fifo]

end Operations

variable {l : Ledger C Q R}

/-- The items a caller still carries, and those that have been put into a queue. -/
def handed (l : Ledger C Q R) : C ⊕ Q → List ℕ := Sum.elim l.carried l.pushed

/-- No item is put into a queue twice, and the items taken out are those held or finished. -/
structure History (l : Ledger C Q R) : Prop where
  once : Exclusive l.handed
  lt_count : ∀ p, ∀ item ∈ l.handed p, item < l.count
  taken_iff : ∀ item, (∃ q, item ∈ l.taken q) ↔ (∃ r, l.held r = some item) ∨ item ∈ l.finished

theorem history_push [DecidableEq C] [DecidableEq Q] {m : Ledger C Q R} {c : C} {q : Q} {item : ℕ}
    {left : List ℕ} (h : History l) (hc : l.carried c = item :: left)
    (hl : m.handed = Sum.elim (Function.update l.carried c left)
      (Function.update l.pushed q (l.pushed q ++ [item])))
    (hcount : m.count = l.count) :
    Exclusive m.handed ∧ ∀ p, ∀ item ∈ m.handed p, item < m.count := by
  have hfrom : (l.handed (.inl c)).Perm (item :: m.handed (.inl c)) := by
    rw [hl, Sum.elim_inl, Function.update_self]
    exact List.Perm.of_eq hc
  have hto : (m.handed (.inr q)).Perm (item :: l.handed (.inr q)) := by
    rw [hl, Sum.elim_inr, Function.update_self]
    exact List.perm_append_singleton ..
  have hother (p : C ⊕ Q) (hp : p ≠ .inl c) (hq : p ≠ .inr q) : m.handed p = l.handed p := by
    rw [hl]
    cases p with
    | inl c' => exact Function.update_of_ne (fun heq => hp (congrArg Sum.inl heq)) ..
    | inr q' => exact Function.update_of_ne (fun heq => hq (congrArg Sum.inr heq)) ..
  refine ⟨h.once.move (by simp) hfrom hto hother, fun p x hx => ?_⟩
  obtain ⟨p', hp'⟩ := (Exclusive.exists_mem_move hfrom hto hother x).mp ⟨p, hx⟩
  rw [hcount]
  exact h.lt_count p' x hp'

theorem history_bring [DecidableEq C] {m : Ledger C Q R} {c : C} {n : ℕ} (h : History l)
    (hl : m.handed = Sum.elim (Function.update l.carried c (List.range' l.count n)) l.pushed)
    (hcount : m.count = l.count + n) :
    Exclusive m.handed ∧ ∀ p, ∀ item ∈ m.handed p, item < m.count := by
  have hself : m.handed (.inl c) = List.range' l.count n := by
    rw [hl]
    exact Function.update_self ..
  have hother (p : C ⊕ Q) (hp : p ≠ .inl c) : m.handed p = l.handed p := by
    rw [hl]
    cases p with
    | inl c' => exact Function.update_of_ne (fun heq => hp (congrArg Sum.inl heq)) ..
    | inr q' => rfl
  have hnew (x : ℕ) (hx : x ∈ List.range' l.count n) (p : C ⊕ Q) : x ∉ l.handed p := by
    intro hmem
    have hlt := h.lt_count p x hmem
    rw [List.mem_range'_1] at hx
    omega
  refine ⟨h.once.add_all (q := .inl c) hself List.nodup_range' hnew hother, fun p x hx => ?_⟩
  rw [hcount]
  by_cases hp : p = .inl c
  · rw [hp, hself, List.mem_range'_1] at hx
    exact hx.2
  · rw [hother p hp] at hx
    exact Nat.lt_of_lt_of_le (h.lt_count p x hx) (Nat.le_add_right ..)

theorem taken_take [DecidableEq Q] [DecidableEq R] {r : R} {q : Q} {item : ℕ} (h : History l)
    (hr : l.held r = none) (x : ℕ) :
    (∃ q', x ∈ Function.update l.taken q (l.taken q ++ [item]) q') ↔
      (∃ r', Function.update l.held r (some item) r' = some x) ∨ x ∈ l.finished := by
  -- both sides gain the item and nothing else
  have htaken : (∃ q', x ∈ Function.update l.taken q (l.taken q ++ [item]) q') ↔
      x = item ∨ ∃ q', x ∈ l.taken q' := by
    constructor
    · rintro ⟨q', hx⟩
      rcases eq_or_ne q' q with rfl | hne
      · rw [Function.update_self, List.mem_append, List.mem_singleton] at hx
        exact hx.symm.imp_right fun hx => ⟨q', hx⟩
      · rw [Function.update_of_ne hne] at hx
        exact .inr ⟨q', hx⟩
    · rintro (rfl | ⟨q', hx⟩)
      · exact ⟨q, by simp⟩
      · refine ⟨q', ?_⟩
        rcases eq_or_ne q' q with rfl | hne
        · rw [Function.update_self]
          exact List.mem_append_left _ hx
        · rwa [Function.update_of_ne hne]
  have hheld : (∃ r', Function.update l.held r (some item) r' = some x) ↔
      x = item ∨ ∃ r', l.held r' = some x := by
    constructor
    · rintro ⟨r', hx⟩
      rcases eq_or_ne r' r with rfl | hne
      · rw [Function.update_self, Option.some_inj] at hx
        exact .inl hx.symm
      · rw [Function.update_of_ne hne] at hx
        exact .inr ⟨r', hx⟩
    · rintro (rfl | ⟨r', hx⟩)
      · exact ⟨r, Function.update_self ..⟩
      · have hne : r' ≠ r := fun heq => by rw [heq, hr] at hx; cases hx
        exact ⟨r', by rwa [Function.update_of_ne hne]⟩
  rw [htaken, hheld, h.taken_iff, or_assoc]

theorem taken_finish [DecidableEq R] {r : R} {item : ℕ} (h : History l)
    (hr : l.held r = some item) (x : ℕ) :
    (∃ q, x ∈ l.taken q) ↔
      (∃ r', Function.update l.held r none r' = some x) ∨ x ∈ l.finished ++ [item] := by
  rw [h.taken_iff, List.mem_append, List.mem_singleton]
  constructor
  · rintro (⟨r', hx⟩ | hx)
    · rcases eq_or_ne r' r with rfl | hne
      · exact .inr (.inr (Option.some.inj (hx.symm.trans hr)))
      · exact .inl ⟨r', by rwa [Function.update_of_ne hne]⟩
    · exact .inr (.inl hx)
  · rintro (⟨r', hx⟩ | hx | rfl)
    · rcases eq_or_ne r' r with rfl | hne
      · rw [Function.update_self] at hx
        cases hx
      · rw [Function.update_of_ne hne] at hx
        exact .inl ⟨r', hx⟩
    · exact .inr hx
    · exact .inl ⟨r, hr⟩

theorem inv_empty : Inv (empty : Ledger C Q R) := by
  have hnone (p : Place C Q R) : (empty : Ledger C Q R).at_ p = [] := by cases p <;> rfl
  refine ⟨.of_empty hnone, fun item => ⟨fun hlt => absurd hlt (Nat.not_lt_zero _), ?_⟩, fun _ => rfl⟩
  rintro ⟨p, hp⟩
  rw [hnone p] at hp
  cases hp

theorem history_empty : History (empty : Ledger C Q R) := by
  have hnone (p : C ⊕ Q) : (empty : Ledger C Q R).handed p = [] := by cases p <;> rfl
  refine ⟨.of_empty hnone, fun p item hp => ?_, fun item => ⟨?_, ?_⟩⟩
  · rw [hnone p] at hp
    cases hp
  · rintro ⟨q, hq⟩
    cases hq
  · rintro (⟨r, hr⟩ | hf)
    · cases hr
    · cases hf

section Runs
variable [DecidableEq C] [DecidableEq Q] [DecidableEq R]
variable {l' : Ledger C Q R} {op : Op C Q R}

theorem history_step (h : History l) (hs : Step l op l') : History l' := by
  cases hs with
  | @bring c n hc =>
    obtain ⟨honce, hlt⟩ := history_bring (m := { l with
      count := l.count + n
      carried := Function.update l.carried c (List.range' l.count n) }) h rfl rfl
    exact ⟨honce, hlt, h.taken_iff⟩
  | @push c q item left hc =>
    obtain ⟨honce, hlt⟩ := history_push (m := { l with
      carried := Function.update l.carried c left
      queue := Function.update l.queue q (l.queue q ++ [item])
      pushed := Function.update l.pushed q (l.pushed q ++ [item]) }) h hc rfl rfl
    exact ⟨honce, hlt, h.taken_iff⟩
  | take hq hr hd => exact ⟨h.once, h.lt_count, taken_take h hr⟩
  | finish hr => exact ⟨h.once, h.lt_count, taken_finish h hr⟩
  | discard hq => exact ⟨h.once, h.lt_count, h.taken_iff⟩

/-- What has been put into a queue and taken from it stays so. -/
theorem grows_step (hs : Step l op l') (q : Q) :
    l.pushed q <+: l'.pushed q ∧ l.taken q <+: l'.taken q := by
  have hupdate (f : Q → List ℕ) (q' : Q) (item : ℕ) :
      f q <+: Function.update f q' (f q' ++ [item]) q := by
    rcases eq_or_ne q q' with rfl | hne
    · rw [Function.update_self]
      exact List.prefix_append ..
    · have hsame : Function.update f q' (f q' ++ [item]) q = f q := Function.update_of_ne hne ..
      exact hsame.symm ▸ List.prefix_rfl
  cases hs with
  | bring | finish | discard => exact ⟨List.prefix_rfl, List.prefix_rfl⟩
  | push q' hc => exact ⟨hupdate _ _ _, List.prefix_rfl⟩
  | take hq hr hd => exact ⟨List.prefix_rfl, hupdate _ _ _⟩

theorem reachable_inv (h : system.Reachable l) : Inv l ∧ History l := by
  refine h.invariant (P := fun l => Inv l ∧ History l) ?_ ?_
  · rintro l rfl
    exact ⟨inv_empty, history_empty⟩
  · intro l op l' hl hs
    have hstep := step_of_apply hs
    exact ⟨inv_step hl.1 hstep, history_step hl.2 hstep⟩

theorem grows_exec {ops : List (Op C Q R)} (h : system.exec l ops = some l') (q : Q) :
    l.pushed q <+: l'.pushed q ∧ l.taken q <+: l'.taken q := by
  refine TransitionSystem.exec_induction (M := system)
    (P := fun u => l.pushed q <+: u.pushed q ∧ l.taken q <+: u.taken q)
    ⟨List.prefix_rfl, List.prefix_rfl⟩ ?_ h
  intro u op v hu hs
  have hgrows := grows_step (step_of_apply hs) q
  exact ⟨hu.1.trans hgrows.1, hu.2.trans hgrows.2⟩

/-- Of two items of one queue the one put in first is taken first. -/
theorem taken_in_order {x y : ℕ} {q : Q} (h : Inv l') {ops : List (Op C Q R)}
    (hrun : system.exec l ops = some l') (hx : x ∈ l.pushed q) (hy : y ∉ l.pushed q)
    (htaken : y ∈ l'.taken q) : [x, y].Sublist (l'.taken q) := by
  have htook : l'.taken q <+: l'.pushed q := by
    rw [← h.fifo q, List.append_assoc]
    exact List.prefix_append ..
  have hpushed := (grows_exec hrun q).1
  have hcovers : l.pushed q <+: l'.taken q := by
    rcases List.prefix_or_prefix_of_prefix hpushed htook with hle | hle
    · exact hle
    · exact absurd (hle.subset htaken) hy
  obtain ⟨rest, hrest⟩ := hcovers
  rw [← hrest] at htaken ⊢
  have hyrest : y ∈ rest := (List.mem_append.mp htaken).resolve_left hy
  exact (List.singleton_sublist.mpr hx).append (List.singleton_sublist.mpr hyrest)

end Runs

end Ledger
end CrisCore
