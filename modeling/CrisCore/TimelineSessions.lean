import CrisCore.TransitionSystem
import Mathlib.Data.List.Basic
import Mathlib.Logic.Function.Basic

/-! The sessions of `Timeline` on one thread: `start`, `pause` and `stop`, and the objects whose
constructors and destructors call them. -/
namespace CrisCore.Timeline

/-- The address of a session's name. -/
abbrev SessionName := ℕ

structure Sessions where
  sessStack : List SessionName
  sessCnt : SessionName → ℕ

namespace Sessions

def initial : Sessions where
  sessStack := []
  sessCnt := fun _ => 0

def setCnt (s : Sessions) (sess : SessionName) (cnt : ℕ) : Sessions :=
  { s with sessCnt := Function.update s.sessCnt sess cnt }

/-- `start`, with what it returns; `none` where it asks an empty stack for its top. -/
def start (s : Sessions) (sess : SessionName) : Option (Option SessionName × Sessions) :=
  if s.sessCnt sess = 0 then
    some (some sess, { s.setCnt sess 1 with sessStack := sess :: s.sessStack })
  else
    match s.sessStack with
    | [] => none
    | top :: _ =>
      if top ≠ sess then some (none, s) else some (some sess, s.setCnt sess (s.sessCnt sess + 1))

/-- What `pause` and `stop` share; `ended` says whether the session has left the stack. -/
structure Left where
  returned : Option SessionName
  ended : Bool
  sessions : Sessions

def leave (s : Sessions) : Option Left :=
  match s.sessStack with
  | [] => none
  | sess :: rest =>
    if s.sessCnt sess = 0 then some ⟨none, false, s⟩
    else
      let cnt := s.sessCnt sess - 1
      if cnt = 0 then some ⟨some sess, true, { s.setCnt sess cnt with sessStack := rest }⟩
      else some ⟨some sess, false, s.setCnt sess cnt⟩

def pause (s : Sessions) : Option (Option SessionName × Sessions) :=
  s.leave.map fun left => (left.returned, left.sessions)

/-- `stop` also says which session it pushes to `sess_ready_`. -/
def stop (s : Sessions) : Option (Option SessionName × Option SessionName × Sessions) :=
  s.leave.map fun left =>
    (left.returned, if left.ended then left.returned else none, left.sessions)

/-- The stack holds the sessions that are counted, each once. -/
structure Counted (s : Sessions) : Prop where
  nodup : s.sessStack.Nodup
  mem : ∀ n, n ∈ s.sessStack ↔ 0 < s.sessCnt n

theorem counted_initial : Counted initial :=
  ⟨List.nodup_nil, by simp [initial]⟩

theorem Counted.start {s s' : Sessions} {sess : SessionName} {returned : Option SessionName}
    (h : Counted s) (hs : s.start sess = some (returned, s')) : Counted s' := by
  unfold Sessions.start at hs
  split_ifs at hs with hcnt
  · cases hs
    have hnot : sess ∉ s.sessStack := fun hm => absurd ((h.mem sess).mp hm) (by omega)
    refine ⟨List.nodup_cons.mpr ⟨hnot, h.nodup⟩, fun n => ?_⟩
    by_cases hn : n = sess
    · simp [hn, setCnt]
    · simp [hn, setCnt, h.mem]
  · split at hs
    · cases hs
    · split_ifs at hs with htop
      · cases hs
        exact h
      · cases hs
        refine ⟨h.nodup, fun n => ?_⟩
        by_cases hn : n = sess
        · simp only [setCnt, hn, Function.update_self, h.mem]
          omega
        · simp [setCnt, hn, h.mem]

/-- `leave` ends the session on top, which is counted. -/
theorem Counted.leave {s : Sessions} {left : Left} (h : Counted s) (hs : s.leave = some left) :
    Counted left.sessions ∧ ∃ sess, s.sessStack.head? = some sess ∧ left.returned = some sess := by
  unfold Sessions.leave at hs
  split at hs
  · cases hs
  · next sess rest hstack =>
    have hpos : 0 < s.sessCnt sess := (h.mem sess).mp (by simp [hstack])
    have hnodup := h.nodup
    rw [hstack] at hnodup
    obtain ⟨hnot, hrest⟩ := List.nodup_cons.mp hnodup
    rw [if_neg (Nat.ne_of_gt hpos)] at hs
    simp only at hs
    split_ifs at hs with hlast
    · cases hs
      refine ⟨⟨hrest, fun n => ?_⟩, sess, by rw [hstack]; rfl, rfl⟩
      by_cases hn : n = sess
      · simp [hn, hnot, setCnt, hlast]
      · have hmem := h.mem n
        rw [hstack] at hmem
        simpa [setCnt, hn] using hmem
    · cases hs
      refine ⟨⟨h.nodup, fun n => ?_⟩, sess, by rw [hstack]; rfl, rfl⟩
      by_cases hn : n = sess
      · simp only [setCnt, hn, Function.update_self, h.mem]
        omega
      · simp [setCnt, hn, h.mem]

/-- The names of the open objects, innermost first, and the stack that they lead to when none of them
was refused. -/
inductive Nested : List SessionName → List SessionName → Prop
  | nil : Nested [] []
  | first {names stack : List SessionName} {n : SessionName} (h : Nested names stack)
      (hn : n ∉ names) : Nested (n :: names) (n :: stack)
  | again {names stack : List SessionName} {n : SessionName} (h : Nested (n :: names) stack) :
      Nested (n :: n :: names) stack

theorem Nested.head? {names stack : List SessionName} (h : Nested names stack) :
    stack.head? = names.head? := by
  induction h with
  | nil => rfl
  | first h hn ih => rfl
  | again h ih => exact ih

/-- Every open object has its share of the count. -/
structure Follows (s : Sessions) (names : List SessionName) : Prop where
  nested : Nested names s.sessStack
  count : ∀ n, s.sessCnt n = names.count n

theorem follows_initial : Follows initial [] :=
  ⟨.nil, fun _ => rfl⟩

/-- A name may be opened that is not open, or that the innermost object has. -/
def Openable (names : List SessionName) (n : SessionName) : Prop :=
  n ∉ names ∨ names.head? = some n

instance (names : List SessionName) (n : SessionName) : Decidable (Openable names n) :=
  inferInstanceAs (Decidable (_ ∨ _))

theorem Follows.start {s : Sessions} {names : List SessionName} {n : SessionName}
    (h : Follows s names) (ho : Openable names n) :
    ∃ s', s.start n = some (some n, s') ∧ Follows s' (n :: names) := by
  have hcount (s' : Sessions) (hcnt : s'.sessCnt = Function.update s.sessCnt n (names.count n + 1))
      (m : SessionName) : s'.sessCnt m = (n :: names).count m := by
    rw [hcnt, Function.update_apply, List.count_cons]
    split_ifs with hm hm' hm'
    · rw [hm]
    · exact absurd (beq_iff_eq.mpr hm.symm) hm'
    · exact absurd (beq_iff_eq.mp hm').symm hm
    · exact h.count m
  unfold Sessions.start
  by_cases hn : n ∈ names
  · have hhead : names.head? = some n := ho.resolve_left (not_not.mpr hn)
    have hpos : s.sessCnt n ≠ 0 := by
      rw [h.count]
      exact Nat.ne_of_gt (List.count_pos_iff.mpr hn)
    obtain ⟨rest, hstack⟩ : ∃ rest, s.sessStack = n :: rest := by
      rw [← h.nested.head?] at hhead
      exact ⟨_, List.eq_cons_of_mem_head? hhead⟩
    obtain ⟨names', rfl⟩ : ∃ names', names = n :: names' := ⟨_, List.eq_cons_of_mem_head? hhead⟩
    refine ⟨s.setCnt n (s.sessCnt n + 1), by simp [hpos, hstack], h.nested.again, ?_⟩
    exact hcount _ (by rw [setCnt, h.count])
  · have hzero : s.sessCnt n = 0 := by rw [h.count, List.count_eq_zero.mpr hn]
    refine ⟨_, by rw [if_pos hzero], h.nested.first hn, ?_⟩
    exact hcount _ (by rw [List.count_eq_zero.mpr hn]; rfl)

/-- A name that is open further out is refused. -/
theorem Follows.start_refused {s : Sessions} {names : List SessionName} {n : SessionName}
    (h : Follows s names) (ho : ¬ Openable names n) : s.start n = some (none, s) := by
  obtain ⟨hn, hhead⟩ := not_or.mp ho
  have hn := not_not.mp hn
  have hpos : s.sessCnt n ≠ 0 := by
    rw [h.count]
    exact Nat.ne_of_gt (List.count_pos_iff.mpr hn)
  rw [← h.nested.head?] at hhead
  unfold Sessions.start
  rw [if_neg hpos]
  cases hstack : s.sessStack with
  | nil =>
    have hempty := h.nested.head?
    rw [hstack] at hempty
    rw [List.head?_eq_none_iff.mp hempty.symm] at hn
    cases hn
  | cons top rest =>
    rw [hstack] at hhead
    exact if_pos fun he => hhead (by rw [he]; rfl)

theorem Follows.leave {s : Sessions} {names : List SessionName} {n : SessionName}
    (h : Follows s (n :: names)) : ∃ left, s.leave = some left ∧ left.returned = some n ∧
      left.ended = !decide (n ∈ names) ∧ Follows left.sessions names := by
  have hpos : s.sessCnt n = names.count n + 1 := by rw [h.count, List.count_cons_self]
  have hcount (s' : Sessions) (hcnt : s'.sessCnt = Function.update s.sessCnt n (names.count n))
      (m : SessionName) : s'.sessCnt m = names.count m := by
    rw [hcnt, Function.update_apply]
    split_ifs with hm
    · rw [hm]
    · rw [h.count, List.count_cons_of_ne (Ne.symm hm)]
  obtain ⟨rest, hstack⟩ : ∃ rest, s.sessStack = n :: rest :=
    ⟨_, List.eq_cons_of_mem_head? (h.nested.head?.trans rfl)⟩
  have hnested := h.nested
  rw [hstack] at hnested
  unfold Sessions.leave
  rw [hstack]
  simp only [hpos, Nat.add_sub_cancel]
  cases hnested with
  | first hnested hn =>
    have hzero : names.count n = 0 := List.count_eq_zero.mpr hn
    refine ⟨_, by rw [if_neg (Nat.succ_ne_zero _), if_pos hzero], rfl, by simp [hn], hnested, ?_⟩
    exact hcount _ rfl
  | again hnested =>
    refine ⟨_, by rw [if_neg (Nat.succ_ne_zero _), if_neg (by simp)], rfl, by simp,
      by rw [← hstack] at hnested; exact hnested, ?_⟩
    exact hcount _ rfl

end Sessions
end CrisCore.Timeline
