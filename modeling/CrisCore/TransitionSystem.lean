import Mathlib.Data.List.Induction

/-! Finite runs of a labelled transition system whose step is a partial function.
A label names everything a step may choose, so that a run is evaluated from its labels. -/
namespace CrisCore

structure TransitionSystem (σ α : Type*) where
  init : σ → Prop
  step : σ → α → Option σ

namespace TransitionSystem
variable {σ α : Type*} (M : TransitionSystem σ α)

/-- Perform the labels of a list one after the other. -/
def exec : σ → List α → Option σ
  | s, [] => some s
  | s, a :: as => (M.step s a).bind fun t => exec t as

def Run (as : List α) (s : σ) : Prop :=
  ∃ s₀, M.init s₀ ∧ M.exec s₀ as = some s

def Reachable (s : σ) : Prop :=
  ∃ as, M.Run as s

@[simp] theorem exec_nil (s : σ) : M.exec s [] = some s := rfl

@[simp] theorem exec_cons (s : σ) (a : α) (as : List α) :
    M.exec s (a :: as) = (M.step s a).bind fun t => M.exec t as := rfl

theorem exec_append (s : σ) (as bs : List α) :
    M.exec s (as ++ bs) = (M.exec s as).bind fun t => M.exec t bs := by
  induction as generalizing s with
  | nil => rfl
  | cons a as ih =>
    simp only [List.cons_append, exec_cons, Option.bind_assoc]
    congr 1
    funext t
    exact ih t

theorem exec_append_some {s t : σ} {as : List α} (h : M.exec s as = some t) (bs : List α) :
    M.exec s (as ++ bs) = M.exec t bs := by
  rw [exec_append, h, Option.bind_some]

theorem exec_snoc {s u : σ} {as : List α} {a : α} :
    M.exec s (as ++ [a]) = some u ↔ ∃ t, M.exec s as = some t ∧ M.step t a = some u := by
  rw [exec_append, Option.bind_eq_some_iff]
  simp only [exec_cons, exec_nil, Option.bind_fun_some]

/-- Where a list of labels leads; one that cannot be performed leads nowhere. -/
def after (s : σ) (as : List α) : σ :=
  (M.exec s as).getD s

theorem exec_after {s : σ} {as : List α} (h : (M.exec s as).isSome = true) :
    M.exec s as = some (M.after s as) := by
  obtain ⟨t, ht⟩ := Option.isSome_iff_exists.mp h
  rw [after, ht, Option.getD_some]

theorem exec_after_append {s : σ} {as bs : List α} (h : (M.exec s (as ++ bs)).isSome = true) :
    M.exec (M.after s as) bs = some (M.after s (as ++ bs)) := by
  obtain ⟨t, ht⟩ := Option.isSome_iff_exists.mp h
  obtain ⟨u, hu, hb⟩ := Option.bind_eq_some_iff.mp ((M.exec_append s as bs) ▸ ht)
  simp only [after, ht, hu, Option.getD_some, hb]

variable {M}

theorem Run.append {as bs : List α} {s t : σ} (h : M.Run as s) (hb : M.exec s bs = some t) :
    M.Run (as ++ bs) t := by
  obtain ⟨s₀, hi, he⟩ := h
  exact ⟨s₀, hi, (M.exec_append_some he bs).trans hb⟩

theorem Reachable.init {s : σ} (h : M.init s) : M.Reachable s :=
  ⟨[], s, h, rfl⟩

theorem Reachable.after {s : σ} (h : M.init s) (as : List α) : M.Reachable (M.after s as) := by
  unfold TransitionSystem.after
  cases he : M.exec s as with
  | none => exact ⟨[], s, h, rfl⟩
  | some t => exact ⟨as, s, h, he⟩

theorem Reachable.exec {s t : σ} {as : List α} (h : M.Reachable s) (he : M.exec s as = some t) :
    M.Reachable t := by
  obtain ⟨bs, hr⟩ := h
  exact ⟨bs ++ as, hr.append he⟩

theorem Reachable.step {s t : σ} {a : α} (h : M.Reachable s) (hs : M.step s a = some t) :
    M.Reachable t := by
  have he : M.exec s [a] = some t := by simp [hs]
  exact h.exec he

/-- Induction along a sequence of steps, last step first. -/
theorem exec_induction {P : σ → Prop} {s t : σ} {as : List α} (h0 : P s)
    (hstep : ∀ u a v, P u → M.step u a = some v → P v) (h : M.exec s as = some t) : P t := by
  induction as generalizing s with
  | nil =>
    cases h
    exact h0
  | cons a as ih =>
    obtain ⟨u, hu, he⟩ := Option.bind_eq_some_iff.mp h
    exact ih (hstep s a u h0 hu) he

/-- The invariant rule: what the initial states have and every step keeps, all states have. -/
theorem Reachable.invariant {P : σ → Prop} {s : σ} (h : M.Reachable s)
    (h0 : ∀ s, M.init s → P s) (hstep : ∀ u a v, P u → M.step u a = some v → P v) : P s := by
  obtain ⟨as, s₀, hi, he⟩ := h
  exact exec_induction (h0 s₀ hi) hstep he

/-- The same rule, where a step needs more of the state before it than the invariant itself, which
other invariants give. -/
theorem Reachable.invariant_of_reachable {P : σ → Prop} {s : σ} (h : M.Reachable s)
    (h0 : ∀ s, M.init s → P s)
    (hstep : ∀ u a v, M.Reachable u → P u → M.step u a = some v → P v) : P s := by
  have hboth : M.Reachable s ∧ P s := by
    refine h.invariant (P := fun s => M.Reachable s ∧ P s) (fun s hs => ⟨.init hs, h0 s hs⟩) ?_
    intro u a v hu hs
    exact ⟨hu.1.step hs, hstep u a v hu.1 hu.2 hs⟩
  exact hboth.2

/-- Every step of the sequence meets `C`, a condition on the state before it and its label. -/
def StepsMeet (M : TransitionSystem σ α) (C : σ → α → Prop) : σ → List α → Prop
  | _, [] => True
  | s, a :: as => C s a ∧ ∀ t, M.step s a = some t → M.StepsMeet C t as

instance decidableStepsMeet {C : σ → α → Prop} [∀ s a, Decidable (C s a)] :
    (s : σ) → (as : List α) → Decidable (M.StepsMeet C s as)
  | _, [] => .isTrue trivial
  | s, a :: as =>
    have : Decidable (∀ t, M.step s a = some t → M.StepsMeet C t as) :=
      match M.step s a with
      | none => .isTrue fun _ ht => nomatch ht
      | some u =>
        have : Decidable (M.StepsMeet C u as) := decidableStepsMeet u as
        decidable_of_iff (M.StepsMeet C u as)
          ⟨fun hu _ ht => Option.some.inj ht ▸ hu, fun hall => hall u rfl⟩
    inferInstanceAs (Decidable (C s a ∧ ∀ t, M.step s a = some t → M.StepsMeet C t as))

/-- Every state the sequence passes through, its first and last included, has `P`. -/
def StatesMeet (M : TransitionSystem σ α) (P : σ → Prop) : σ → List α → Prop
  | s, [] => P s
  | s, a :: as => P s ∧ ∀ t, M.step s a = some t → M.StatesMeet P t as

theorem StatesMeet.first {P : σ → Prop} {s : σ} {as : List α} (h : M.StatesMeet P s as) : P s := by
  cases as with
  | nil => exact h
  | cons a as => exact h.1

theorem StatesMeet.last {P : σ → Prop} {s t : σ} {as : List α} (h : M.StatesMeet P s as)
    (he : M.exec s as = some t) : P t := by
  induction as generalizing s with
  | nil =>
    cases he
    exact h
  | cons a as ih =>
    obtain ⟨u, hu, he⟩ := Option.bind_eq_some_iff.mp he
    exact ih (h.2 u hu) he

theorem StepsMeet.drop {C : σ → α → Prop} {s u : σ} {as bs : List α}
    (h : M.StepsMeet C s (as ++ bs)) (he : M.exec s as = some u) : M.StepsMeet C u bs := by
  induction as generalizing s with
  | nil =>
    cases he
    exact h
  | cons a as ih =>
    obtain ⟨v, hv, he⟩ := Option.bind_eq_some_iff.mp he
    exact ih (h.2 v hv) he

theorem StepsMeet.append {C : σ → α → Prop} {s u : σ} {as bs : List α}
    (h : M.StepsMeet C s as) (he : M.exec s as = some u) (h' : M.StepsMeet C u bs) :
    M.StepsMeet C s (as ++ bs) := by
  induction as generalizing s with
  | nil =>
    cases he
    exact h'
  | cons a as ih =>
    refine ⟨h.1, fun v hv => ih (h.2 v hv) ?_⟩
    obtain ⟨w, hw, he⟩ := Option.bind_eq_some_iff.mp he
    cases hv.symm.trans hw
    exact he

theorem StatesMeet.mono {P Q : σ → Prop} {s : σ} {as : List α} (h : M.StatesMeet P s as)
    (hPQ : ∀ u, P u → Q u) : M.StatesMeet Q s as := by
  induction as generalizing s with
  | nil => exact hPQ s h
  | cons a as ih => exact ⟨hPQ s h.1, fun t ht => ih (h.2 t ht)⟩

theorem stepsMeet_snoc {C : σ → α → Prop} {s u : σ} {as : List α} {a : α}
    (h : M.exec s as = some u) :
    M.StepsMeet C s (as ++ [a]) ↔ M.StepsMeet C s as ∧ C u a := by
  induction as generalizing s with
  | nil =>
    cases h
    simp [StepsMeet]
  | cons b as ih =>
    obtain ⟨v, hv, he⟩ := Option.bind_eq_some_iff.mp h
    simp only [List.cons_append, StepsMeet, hv, Option.some.injEq, forall_eq', ih he, and_assoc]

/-- When a condition is exactly what one step needs to keep a property, it is exactly what a
whole sequence of steps needs. -/
theorem statesMeet_iff_stepsMeet {I P : σ → Prop} {C : σ → α → Prop} {s t : σ} {as : List α}
    (hinv : ∀ u a v, I u → M.step u a = some v → I v)
    (hstep : ∀ u a v, I u → P u → M.step u a = some v → (P v ↔ C u a)) (hI : I s) (h0 : P s)
    (h : M.exec s as = some t) : M.StatesMeet P s as ↔ M.StepsMeet C s as := by
  induction as generalizing s with
  | nil => exact ⟨fun _ => trivial, fun _ => h0⟩
  | cons a as ih =>
    obtain ⟨u, hu, he⟩ := Option.bind_eq_some_iff.mp h
    have hIu := hinv s a u hI hu
    constructor
    · intro hs
      have hP := (hs.2 u hu).first
      refine ⟨(hstep s a u hI h0 hu).mp hP, fun v hv => ?_⟩
      cases hu.symm.trans hv
      exact (ih hIu hP he).mp (hs.2 u hu)
    · intro hc
      have hP := (hstep s a u hI h0 hu).mpr hc.1
      refine ⟨h0, fun v hv => ?_⟩
      cases hu.symm.trans hv
      exact (ih hIu hP he).mpr (hc.2 u hu)

/-- Where the steps that meet a condition keep an invariant and the others break a property at once,
a sequence whose states all have the property has met the condition throughout. -/
theorem stepsMeet_of_statesMeet {I P : σ → Prop} {C : σ → α → Prop} {s t : σ} {as : List α}
    (hkept : ∀ u a v, I u → C u a → M.step u a = some v → I v)
    (hbroken : ∀ u a v, I u → ¬ C u a → M.step u a = some v → ¬ P v) (h0 : I s)
    (h : M.exec s as = some t) (hP : M.StatesMeet P s as) : M.StepsMeet C s as := by
  induction as generalizing s with
  | nil => trivial
  | cons a as ih =>
    obtain ⟨u, hu, he⟩ := Option.bind_eq_some_iff.mp h
    have hc : C s a := by
      by_contra hc
      exact hbroken s a u h0 hc hu (hP.2 u hu).first
    refine ⟨hc, fun v hv => ?_⟩
    cases hu.symm.trans hv
    exact ih (hkept s a u h0 hc hu) he (hP.2 u hu)

/-- Two conditions on steps that agree wherever an invariant holds agree on whole sequences. -/
theorem stepsMeet_congr {P : σ → Prop} {C D : σ → α → Prop} {s t : σ} {as : List α} (h0 : P s)
    (hstep : ∀ u a v, P u → M.step u a = some v → P v)
    (hCD : ∀ u a, P u → (C u a ↔ D u a)) (h : M.exec s as = some t) :
    M.StepsMeet C s as ↔ M.StepsMeet D s as := by
  induction as generalizing s with
  | nil => exact Iff.rfl
  | cons a as ih =>
    obtain ⟨u, hu, he⟩ := Option.bind_eq_some_iff.mp h
    have hrest := ih (hstep s a u h0 hu) he
    refine and_congr (hCD s a h0) ⟨fun hc v hv => ?_, fun hc v hv => ?_⟩ <;> cases hu.symm.trans hv
    · exact hrest.mp (hc u hu)
    · exact hrest.mpr (hc u hu)

/-- Steps that meet one condition keep an invariant, which gives another condition. -/
theorem StepsMeet.imp_of_kept {P : σ → Prop} {C D : σ → α → Prop} {s : σ} {as : List α}
    (hc : M.StepsMeet C s as) (h0 : P s)
    (hstep : ∀ u a v, P u → C u a → M.step u a = some v → P v)
    (hCD : ∀ u a, P u → C u a → D u a) : M.StepsMeet D s as := by
  induction as generalizing s with
  | nil => trivial
  | cons a as ih => exact ⟨hCD s a h0 hc.1, fun t ht => ih (hc.2 t ht) (hstep s a t h0 hc.1 ht)⟩

/-- Two conditions that agree under an invariant, which the steps that meet them keep. -/
theorem stepsMeet_congr_of_kept {P : σ → Prop} {C D : σ → α → Prop} {s : σ} {as : List α} (h0 : P s)
    (hstep : ∀ u a v, P u → C u a → M.step u a = some v → P v)
    (hCD : ∀ u a, P u → (C u a ↔ D u a)) : M.StepsMeet C s as ↔ M.StepsMeet D s as := by
  constructor
  · exact fun hc => hc.imp_of_kept h0 hstep fun u a hP => (hCD u a hP).mp
  · intro hd
    exact hd.imp_of_kept h0 (fun u a v hP hD hv => hstep u a v hP ((hCD u a hP).mpr hD) hv)
      fun u a hP => (hCD u a hP).mpr

theorem statesMeet_of_invariant {P : σ → Prop} {s : σ} (h0 : P s)
    (hstep : ∀ u a v, P u → M.step u a = some v → P v) (as : List α) : M.StatesMeet P s as := by
  induction as generalizing s with
  | nil => exact h0
  | cons a as ih => exact ⟨h0, fun t ht => ih (hstep s a t h0 ht)⟩

/-- A condition that follows from an invariant is met by every step. -/
theorem stepsMeet_of_invariant {I : σ → Prop} {C : σ → α → Prop} {s : σ}
    (hinv : ∀ u a v, I u → M.step u a = some v → I v) (hC : ∀ u a, I u → C u a) (hI : I s)
    (as : List α) : M.StepsMeet C s as := by
  induction as generalizing s with
  | nil => trivial
  | cons a as ih => exact ⟨hC s a hI, fun t ht => ih (hinv s a t hI ht)⟩

/-- Invariant rule for runs whose steps all meet a condition. -/
theorem StepsMeet.invariant {P : σ → Prop} {C : σ → α → Prop} {s t : σ} {as : List α}
    (hc : M.StepsMeet C s as) (h0 : P s)
    (hstep : ∀ u a v, P u → C u a → M.step u a = some v → P v) (h : M.exec s as = some t) :
    P t := by
  induction as generalizing s with
  | nil =>
    cases h
    exact h0
  | cons a as ih =>
    obtain ⟨u, hu, he⟩ := Option.bind_eq_some_iff.mp h
    exact ih (hc.2 u hu) (hstep s a u h0 hc.1 hu) he

/-- The same rule for the states passed through. -/
theorem StepsMeet.statesMeet {P : σ → Prop} {C : σ → α → Prop} {s : σ} {as : List α}
    (hc : M.StepsMeet C s as) (h0 : P s)
    (hstep : ∀ u a v, P u → C u a → M.step u a = some v → P v) : M.StatesMeet P s as := by
  induction as generalizing s with
  | nil => exact h0
  | cons a as ih => exact ⟨h0, fun t ht => ih (hc.2 t ht) (hstep s a t h0 hc.1 ht)⟩

theorem StepsMeet.and {C D : σ → α → Prop} {s : σ} {as : List α} (hc : M.StepsMeet C s as)
    (hd : M.StepsMeet D s as) : M.StepsMeet (fun s a => C s a ∧ D s a) s as := by
  induction as generalizing s with
  | nil => trivial
  | cons a as ih => exact ⟨⟨hc.1, hd.1⟩, fun t ht => ih (hc.2 t ht) (hd.2 t ht)⟩

/-- Steps that do not touch what a relation looks at can be left out of a sequence. -/
theorem StepsMeet.exec_filter {R : σ → σ → Prop} {C : σ → α → Prop} {keep : α → Bool} {s t u : σ}
    {as : List α} (hc : M.StepsMeet C s as) (hR : R s u)
    (hskip : ∀ s a t u, R s u → C s a → keep a = false → M.step s a = some t → R t u)
    (hstep : ∀ s a t u, R s u → C s a → keep a = true → M.step s a = some t →
      ∃ v, M.step u a = some v ∧ R t v)
    (h : M.exec s as = some t) : ∃ v, M.exec u (as.filter keep) = some v ∧ R t v := by
  induction as generalizing s u with
  | nil =>
    cases h
    exact ⟨u, rfl, hR⟩
  | cons a as ih =>
    obtain ⟨w, hw, he⟩ := Option.bind_eq_some_iff.mp h
    cases hk : keep a with
    | false =>
      rw [List.filter_cons_of_neg (by simp [hk])]
      exact ih (hc.2 w hw) (hskip s a w u hR hc.1 hk hw) he
    | true =>
      obtain ⟨x, hx, hRx⟩ := hstep s a w u hR hc.1 hk hw
      obtain ⟨v, hv, hRv⟩ := ih (hc.2 w hw) hRx he
      refine ⟨v, ?_, hRv⟩
      rw [List.filter_cons_of_pos hk, exec_cons, hx]
      exact hv

end TransitionSystem
end CrisCore
