import CrisCore.CallAnswers
import CrisCore.TransitionSystem
import Mathlib.Logic.Function.Basic

/-! An object that many threads call, one lock for all its calls. A call runs in small steps and holds
the lock from its first step to its last; any thread may step between any two of them. The calls
answer as if they were made one after the other, in the order in which they took the lock. -/
namespace CrisCore

/-- How the calls of an object run. A step of a call leads to the rest of it or to its answer. -/
structure SmallSteps (σ κ ℓ β : Type*) where
  enter : κ → ℓ
  next : σ → ℓ → σ × (ℓ ⊕ β)

namespace SmallSteps
variable {σ κ ℓ β : Type*} {O : SmallSteps σ κ ℓ β}

/-- Left alone, the rest of a call ends with this object and this answer. -/
inductive Ends (O : SmallSteps σ κ ℓ β) : σ → ℓ → σ × β → Prop
  | answer {s u : σ} {l : ℓ} {b : β} (h : O.next s l = (u, .inr b)) : O.Ends s l (u, b)
  | work {s u : σ} {l l' : ℓ} {r : σ × β} (h : O.next s l = (u, .inl l'))
      (rest : O.Ends u l' r) : O.Ends s l r

/-- Left alone, a call does to the object what `call` says. -/
def Performs (O : SmallSteps σ κ ℓ β) (call : σ → κ → σ × β) : Prop :=
  ∀ s c, O.Ends s (O.enter c) (call s c)

end SmallSteps

namespace GuardedCalls
variable {θ σ κ ℓ β : Type*}

/-- Where a thread stands. The calls are numbered in the order in which they are made. -/
inductive Place (κ ℓ β : Type*)
  | outside
  | waiting (n : ℕ) (c : κ)
  | inside (n : ℕ) (l : ℓ)
  | leaving (n : ℕ) (b : β)

structure State (θ σ κ ℓ β : Type*) where
  object : σ
  /-- The thread that holds the lock. -/
  holder : Option θ
  place : θ → Place κ ℓ β
  calls : List κ
  /-- The calls that took the lock, in that order. -/
  entered : List (ℕ × κ)
  returned : List (ℕ × β)

def initial (s₀ : σ) : State θ σ κ ℓ β where
  object := s₀
  holder := none
  place _ := .outside
  calls := []
  entered := []
  returned := []

inductive Action (θ κ : Type*)
  | call (t : θ) (c : κ)
  | lock (t : θ)
  | work (t : θ)
  | unlock (t : θ)

section Steps
variable [DecidableEq θ]

def State.setPlace (s : State θ σ κ ℓ β) (t : θ) (p : Place κ ℓ β) : State θ σ κ ℓ β :=
  { s with place := Function.update s.place t p }

def step (O : SmallSteps σ κ ℓ β) (s : State θ σ κ ℓ β) :
    Action θ κ → Option (State θ σ κ ℓ β)
  | .call t c =>
    match s.place t with
    | .outside =>
      some { s.setPlace t (.waiting s.calls.length c) with calls := s.calls ++ [c] }
    | _ => none
  | .lock t =>
    match s.place t, s.holder with
    | .waiting n c, none =>
      some { s.setPlace t (.inside n (O.enter c)) with
        holder := some t
        entered := s.entered ++ [(n, c)] }
    | _, _ => none
  | .work t =>
    match s.place t with
    | .inside n l =>
      match O.next s.object l with
      | (u, .inl l') => some { s.setPlace t (.inside n l') with object := u }
      | (u, .inr b) => some { s.setPlace t (.leaving n b) with object := u }
    | _ => none
  | .unlock t =>
    match s.place t with
    | .leaving n b =>
      some { s.setPlace t .outside with
        holder := none
        returned := s.returned ++ [(n, b)] }
    | _ => none

def system (θ : Type*) [DecidableEq θ] (O : SmallSteps σ κ ℓ β) (s₀ : σ) :
    TransitionSystem (State θ σ κ ℓ β) (Action θ κ) where
  init s := s = initial s₀
  step := step O

/-- All that a step can do. -/
inductive Step (O : SmallSteps σ κ ℓ β) (s : State θ σ κ ℓ β) :
    Action θ κ → State θ σ κ ℓ β → Prop
  | call {t : θ} {c : κ} (h : s.place t = .outside) :
      Step O s (.call t c)
        { s.setPlace t (.waiting s.calls.length c) with calls := s.calls ++ [c] }
  | lock {t : θ} {n : ℕ} {c : κ} (h : s.place t = .waiting n c) (hfree : s.holder = none) :
      Step O s (.lock t)
        { s.setPlace t (.inside n (O.enter c)) with
          holder := some t
          entered := s.entered ++ [(n, c)] }
  | work {t : θ} {n : ℕ} {l l' : ℓ} {u : σ} (h : s.place t = .inside n l)
      (hnext : O.next s.object l = (u, .inl l')) :
      Step O s (.work t) { s.setPlace t (.inside n l') with object := u }
  | answer {t : θ} {n : ℕ} {l : ℓ} {b : β} {u : σ} (h : s.place t = .inside n l)
      (hnext : O.next s.object l = (u, .inr b)) :
      Step O s (.work t) { s.setPlace t (.leaving n b) with object := u }
  | unlock {t : θ} {n : ℕ} {b : β} (h : s.place t = .leaving n b) :
      Step O s (.unlock t)
        { s.setPlace t .outside with holder := none, returned := s.returned ++ [(n, b)] }

variable {O : SmallSteps σ κ ℓ β} {s s' : State θ σ κ ℓ β} {t : θ}

theorem step_iff {a : Action θ κ} : step O s a = some s' ↔ Step O s a s' := by
  constructor
  · intro h
    cases a with
    | call t c =>
      simp only [step] at h
      split at h
      · cases h
        exact .call ‹_›
      · cases h
    | lock t =>
      simp only [step] at h
      split at h
      · cases h
        exact .lock ‹_› ‹_›
      · cases h
    | work t =>
      simp only [step] at h
      split at h
      · split at h
        · cases h
          exact .work ‹_› ‹_›
        · cases h
          exact .answer ‹_› ‹_›
      · cases h
    | unlock t =>
      simp only [step] at h
      split at h
      · cases h
        exact .unlock ‹_›
      · cases h
  · intro h
    cases h with
    | call h => simp only [step, h]
    | lock h hfree => simp only [step, h, hfree]
    | work h hnext => simp only [step, h, hnext]
    | answer h hnext => simp only [step, h, hnext]
    | unlock h => simp only [step, h]

@[simp] theorem setPlace_self (p : Place κ ℓ β) : (s.setPlace t p).place t = p := by
  simp [State.setPlace]

theorem setPlace_of_ne {t' : θ} (p : Place κ ℓ β) (h : t' ≠ t) :
    (s.setPlace t p).place t' = s.place t' := by
  simp [State.setPlace, h]

theorem setPlace_eq_waiting_iff {t' : θ} {p : Place κ ℓ β} {n : ℕ} {c : κ}
    (hp : ∀ n c, s.place t ≠ .waiting n c) (hp' : ∀ n c, p ≠ .waiting n c) :
    (s.setPlace t p).place t' = .waiting n c ↔ s.place t' = .waiting n c := by
  by_cases ht : t' = t
  · subst ht
    rw [setPlace_self]
    exact iff_of_false (hp' n c) (hp n c)
  · rw [setPlace_of_ne p ht]

end Steps

/-- The object after the calls of a history, made one after the other. -/
def objectAfter (call : σ → κ → σ × β) (s₀ : σ) (history : List (ℕ × κ)) : σ :=
  afterCalls call s₀ (history.map Prod.snd)

/-- The numbers of the calls of a history, each with what it is answered. -/
def answersOf (call : σ → κ → σ × β) (s₀ : σ) (history : List (ℕ × κ)) : List (ℕ × β) :=
  (history.map Prod.fst).zip (answersTo call s₀ (history.map Prod.snd))

section Histories
variable (call : σ → κ → σ × β) (s₀ : σ) (history : List (ℕ × κ)) (n : ℕ) (c : κ)

theorem objectAfter_concat :
    objectAfter call s₀ (history ++ [(n, c)]) = (call (objectAfter call s₀ history) c).1 := by
  rw [objectAfter, List.map_append]
  exact afterCalls_concat call s₀ _ c

theorem answersOf_concat :
    answersOf call s₀ (history ++ [(n, c)]) =
      answersOf call s₀ history ++ [(n, (call (objectAfter call s₀ history) c).2)] := by
  have hlen : (history.map Prod.fst).length =
      (answersTo call s₀ (history.map Prod.snd)).length := by simp
  simp only [answersOf, List.map_append, List.map_cons, List.map_nil, answersTo_concat]
  rw [List.zip_append hlen]
  rfl

theorem map_fst_answersOf : (answersOf call s₀ history).map Prod.fst = history.map Prod.fst := by
  apply List.map_fst_zip
  simp

end Histories

/-- The thread runs call `n`, which will end with `r`. -/
def Finishing (O : SmallSteps σ κ ℓ β) (object : σ) (n : ℕ) (r : σ × β) : Place κ ℓ β → Prop
  | .inside m l => m = n ∧ O.Ends object l r
  | .leaving m b => m = n ∧ r = (object, b)
  | .outside | .waiting _ _ => False

/-- Each number stands for one call, that is waiting or has taken the lock once. -/
structure Numbered (s : State θ σ κ ℓ β) : Prop where
  named : ∀ e ∈ s.entered, s.calls[e.1]? = some e.2
  once : (s.entered.map Prod.fst).Nodup
  waits : ∀ t n c, s.place t = .waiting n c →
    s.calls[n]? = some c ∧ n ∉ s.entered.map Prod.fst
  apart : ∀ t t' n c c', s.place t = .waiting n c → s.place t' = .waiting n c' → t = t'
  present : ∀ n, n < s.calls.length →
    n ∈ s.entered.map Prod.fst ∨ ∃ t c, s.place t = .waiting n c

namespace Numbered
variable {s s' : State θ σ κ ℓ β} {t : θ} {n : ℕ} {c : κ}

theorem lt_of_mem_entered (h : Numbered s) (hn : n ∈ s.entered.map Prod.fst) :
    n < s.calls.length := by
  obtain ⟨e, he, rfl⟩ := List.mem_map.mp hn
  exact (List.getElem?_eq_some_iff.mp (h.named e he)).1

theorem lt_of_waiting (h : Numbered s) (hp : s.place t = .waiting n c) : n < s.calls.length :=
  (List.getElem?_eq_some_iff.mp (h.waits t n c hp).1).1

/-- The numbers are about the threads that wait, not about those inside a call. -/
theorem of_waiting_iff (h : Numbered s) (hcalls : s'.calls = s.calls)
    (hentered : s'.entered = s.entered)
    (hwait : ∀ t n c, s'.place t = .waiting n c ↔ s.place t = .waiting n c) : Numbered s' := by
  constructor
  · rw [hcalls, hentered]
    exact h.named
  · rw [hentered]
    exact h.once
  · intro t n c hp
    rw [hcalls, hentered]
    exact h.waits t n c ((hwait t n c).mp hp)
  · intro t t' n c c' hp hp'
    exact h.apart t t' n c c' ((hwait t n c).mp hp) ((hwait t' n c').mp hp')
  · intro n hn
    rw [hcalls] at hn
    simp only [hentered, hwait]
    exact h.present n hn

end Numbered

/-- The state is that of calls made one after the other, but for the call that holds the lock, which
is on its way to what it will answer. -/
structure Serial (O : SmallSteps σ κ ℓ β) (call : σ → κ → σ × β) (s₀ : σ)
    (s : State θ σ κ ℓ β) : Prop where
  numbered : Numbered s
  others : ∀ t, s.holder ≠ some t →
    s.place t = .outside ∨ ∃ n c, s.place t = .waiting n c
  free : s.holder = none →
    s.object = objectAfter call s₀ s.entered ∧ s.returned = answersOf call s₀ s.entered
  held : ∀ t, s.holder = some t → ∃ done n c, s.entered = done ++ [(n, c)] ∧
    s.returned = answersOf call s₀ done ∧
    Finishing O s.object n (call (objectAfter call s₀ done) c) (s.place t)

theorem serial_initial (O : SmallSteps σ κ ℓ β) (call : σ → κ → σ × β) (s₀ : σ) :
    Serial O call s₀ (initial s₀ : State θ σ κ ℓ β) where
  numbered :=
    { named := fun e he => absurd he List.not_mem_nil
      once := List.nodup_nil
      waits := fun t n c hp => by cases hp
      apart := fun t t' n c c' hp => by cases hp
      present := fun n hn => absurd hn (Nat.not_lt_zero n) }
  others t ht := .inl rfl
  free h := ⟨rfl, rfl⟩
  held t ht := by cases ht

section Kept
variable [DecidableEq θ]
variable {O : SmallSteps σ κ ℓ β} {call : σ → κ → σ × β} {s₀ : σ} {s : State θ σ κ ℓ β} {t : θ}
  {n : ℕ} {c : κ} {l : ℓ} {b : β}

theorem Numbered.call_step (h : Numbered s) (hp : s.place t = .outside) :
    Numbered { s.setPlace t (.waiting s.calls.length c) with calls := s.calls ++ [c] } := by
  have hkept {m : ℕ} {d : κ} (hm : s.calls[m]? = some d) : (s.calls ++ [c])[m]? = some d := by
    rw [List.getElem?_append_left (List.getElem?_eq_some_iff.mp hm).1]
    exact hm
  have hself : (s.setPlace t (.waiting s.calls.length c)).place t = .waiting s.calls.length c :=
    setPlace_self _
  have hplace {t' : θ} (ht : t' ≠ t) :
      (s.setPlace t (.waiting s.calls.length c)).place t' = s.place t' :=
    setPlace_of_ne _ ht
  -- the number of the new call is beyond those of the other threads
  have hnew {t' : θ} {d : κ} (ht : t' ≠ t)
      (hw : (s.setPlace t (.waiting s.calls.length c)).place t' = .waiting s.calls.length d) :
      False :=
    Nat.lt_irrefl _ (h.lt_of_waiting ((hplace ht).symm.trans hw))
  constructor
  · intro e he
    exact hkept (h.named e he)
  · exact h.once
  · intro t' m d hw
    by_cases ht : t' = t
    · subst ht
      cases hself.symm.trans hw
      refine ⟨by simp, fun hm => ?_⟩
      exact Nat.lt_irrefl _ (h.lt_of_mem_entered hm)
    · obtain ⟨hm, hout⟩ := h.waits t' m d ((hplace ht).symm.trans hw)
      exact ⟨hkept hm, hout⟩
  · intro t₁ t₂ m d₁ d₂ h₁ h₂
    by_cases ht₁ : t₁ = t <;> by_cases ht₂ : t₂ = t
    · rw [ht₁, ht₂]
    · subst ht₁
      cases hself.symm.trans h₁
      exact (hnew ht₂ h₂).elim
    · subst ht₂
      cases hself.symm.trans h₂
      exact (hnew ht₁ h₁).elim
    · exact h.apart t₁ t₂ m d₁ d₂ ((hplace ht₁).symm.trans h₁) ((hplace ht₂).symm.trans h₂)
  · intro m hm
    rw [List.length_append, List.length_singleton] at hm
    rcases Nat.lt_succ_iff_lt_or_eq.mp hm with hm | rfl
    · rcases h.present m hm with hin | ⟨t', d, hw⟩
      · exact .inl hin
      · have ht : t' ≠ t := by
          rintro rfl
          rw [hp] at hw
          cases hw
        exact .inr ⟨t', d, (hplace ht).trans hw⟩
    · exact .inr ⟨t, c, hself⟩

theorem Numbered.lock_step (h : Numbered s) (hp : s.place t = .waiting n c) :
    Numbered { s.setPlace t (.inside n l) with
      holder := some t
      entered := s.entered ++ [(n, c)] } := by
  obtain ⟨hn, hfresh⟩ := h.waits t n c hp
  have hids : (s.entered ++ [(n, c)]).map Prod.fst = s.entered.map Prod.fst ++ [n] := by simp
  have hplace {t' : θ} (ht : t' ≠ t) : (s.setPlace t (.inside n l)).place t' = s.place t' :=
    setPlace_of_ne _ ht
  have hold {t' : θ} {m : ℕ} {d : κ}
      (hw : (s.setPlace t (.inside n l)).place t' = .waiting m d) :
      t' ≠ t ∧ s.place t' = .waiting m d := by
    have ht : t' ≠ t := by
      rintro rfl
      rw [setPlace_self] at hw
      cases hw
    exact ⟨ht, (hplace ht).symm.trans hw⟩
  constructor
  · intro e he
    rcases List.mem_append.mp he with he | he
    · exact h.named e he
    · rw [List.mem_singleton.mp he]
      exact hn
  · show ((s.entered ++ [(n, c)]).map Prod.fst).Nodup
    rw [hids]
    refine List.nodup_append.mpr ⟨h.once, by simp, ?_⟩
    intro m hm m' hm' heq
    rw [heq, List.mem_singleton.mp hm'] at hm
    exact hfresh hm
  · intro t' m d hw
    obtain ⟨ht, hwait⟩ := hold hw
    obtain ⟨hm, hout⟩ := h.waits t' m d hwait
    refine ⟨hm, ?_⟩
    show m ∉ (s.entered ++ [(n, c)]).map Prod.fst
    rw [hids, List.mem_append, List.mem_singleton]
    rintro (hmem | rfl)
    · exact hout hmem
    · exact ht (h.apart t' t m d c hwait hp)
  · intro t₁ t₂ m d₁ d₂ h₁ h₂
    exact h.apart t₁ t₂ m d₁ d₂ (hold h₁).2 (hold h₂).2
  · intro m hm
    show m ∈ (s.entered ++ [(n, c)]).map Prod.fst ∨ _
    rw [hids, List.mem_append, List.mem_singleton]
    rcases h.present m hm with hmem | ⟨t', d, hw⟩
    · exact .inl (.inl hmem)
    · by_cases ht : t' = t
      · subst ht
        cases hw.symm.trans hp
        exact .inl (.inr rfl)
      · exact .inr ⟨t', d, (hplace ht).trans hw⟩

namespace Serial
variable (h : Serial O call s₀ s)
include h

/-- Only the holder of the lock is inside a call. -/
theorem holder_eq (hout : s.place t ≠ .outside) (hwait : ∀ n c, s.place t ≠ .waiting n c) :
    s.holder = some t := by
  by_contra hne
  rcases h.others t hne with hp | ⟨n, c, hp⟩
  · exact hout hp
  · exact hwait n c hp

theorem holder_of_inside (hp : s.place t = .inside n l) : s.holder = some t :=
  h.holder_eq (by simp [hp]) (by simp [hp])

theorem holder_of_leaving (hp : s.place t = .leaving n b) : s.holder = some t :=
  h.holder_eq (by simp [hp]) (by simp [hp])

/-- Another thread than the one that steps stays outside or waiting. -/
theorem other_place {t' : θ} (p : Place κ ℓ β) (ht : t' ≠ t) (hne : s.holder ≠ some t') :
    (s.setPlace t p).place t' = .outside ∨
      ∃ n c, (s.setPlace t p).place t' = .waiting n c := by
  rw [setPlace_of_ne p ht]
  exact h.others t' hne

theorem call_step (hp : s.place t = .outside) :
    Serial O call s₀
      { s.setPlace t (.waiting s.calls.length c) with calls := s.calls ++ [c] } where
  numbered := h.numbered.call_step hp
  others t' hne := by
    by_cases ht : t' = t
    · subst ht
      exact .inr ⟨_, _, setPlace_self _⟩
    · exact h.other_place _ ht hne
  free := h.free
  held t' ht' := by
    obtain ⟨done, m, d, hentered, hreturned, hf⟩ := h.held t' ht'
    have ht : t' ≠ t := by
      rintro rfl
      rw [hp] at hf
      exact hf
    refine ⟨done, m, d, hentered, hreturned, ?_⟩
    show Finishing O s.object m _ ((s.setPlace t (.waiting s.calls.length c)).place t')
    rw [setPlace_of_ne _ ht]
    exact hf

theorem lock_step (hO : O.Performs call) (hp : s.place t = .waiting n c) (hfree : s.holder = none) :
    Serial O call s₀
      { s.setPlace t (.inside n (O.enter c)) with
        holder := some t
        entered := s.entered ++ [(n, c)] } where
  numbered := h.numbered.lock_step hp
  others t' hne := by
    have ht : t' ≠ t := by
      rintro rfl
      exact hne rfl
    exact h.other_place _ ht (by simp [hfree])
  free hnone := by cases hnone
  held t' ht' := by
    cases ht'
    obtain ⟨hobject, hreturned⟩ := h.free hfree
    refine ⟨s.entered, n, c, rfl, hreturned, ?_⟩
    show Finishing O s.object n _ ((s.setPlace t (.inside n (O.enter c))).place t)
    rw [setPlace_self, ← hobject]
    exact ⟨rfl, hO s.object c⟩

/-- A step inside a call, which leaves the thread inside it or about to leave it. -/
theorem inside_step {p : Place κ ℓ β} {u : σ} (hp : s.place t = .inside n l)
    (hnew : ∀ r, O.Ends s.object l r → Finishing O u n r p) :
    Serial O call s₀ { s.setPlace t p with object := u } := by
  have hholder := h.holder_of_inside hp
  obtain ⟨done, m, d, hentered, hreturned, hf⟩ := h.held t hholder
  rw [hp] at hf
  obtain ⟨rfl, hends⟩ := hf
  have hfin := hnew _ hends
  have hwait (m : ℕ) (d : κ) : p ≠ .waiting m d := by
    rintro rfl
    exact hfin
  constructor
  · refine h.numbered.of_waiting_iff rfl rfl ?_
    intro t' m d
    exact setPlace_eq_waiting_iff (by simp [hp]) hwait
  · intro t' hne
    have ht : t' ≠ t := by
      rintro rfl
      exact hne hholder
    exact h.other_place _ ht hne
  · intro hnone
    cases hnone.symm.trans hholder
  · intro t' ht'
    cases ht'.symm.trans hholder
    refine ⟨done, n, d, hentered, hreturned, ?_⟩
    show Finishing O u n _ ((s.setPlace t p).place t)
    rw [setPlace_self]
    exact hfin

theorem unlock_step (hp : s.place t = .leaving n b) :
    Serial O call s₀
      { s.setPlace t .outside with holder := none, returned := s.returned ++ [(n, b)] } := by
  have hholder := h.holder_of_leaving hp
  obtain ⟨done, m, d, hentered, hreturned, hf⟩ := h.held t hholder
  rw [hp] at hf
  obtain ⟨rfl, hr⟩ := hf
  constructor
  · refine h.numbered.of_waiting_iff rfl rfl ?_
    intro t' m d
    exact setPlace_eq_waiting_iff (by simp [hp]) (by simp)
  · intro t' _
    by_cases ht : t' = t
    · subst ht
      exact .inl (setPlace_self _)
    · apply h.other_place _ ht
      rw [hholder]
      intro heq
      exact ht (Option.some.inj heq).symm
  · intro _
    have hobject : s.object = objectAfter call s₀ s.entered := by
      rw [hentered, objectAfter_concat, hr]
    have hanswers : s.returned ++ [(n, b)] = answersOf call s₀ s.entered := by
      rw [hentered, answersOf_concat, hreturned, hr]
    exact ⟨hobject, hanswers⟩
  · intro t' ht'
    cases ht'

end Serial

theorem serial_step {a : Action θ κ} {s' : State θ σ κ ℓ β} (hO : O.Performs call)
    (h : Serial O call s₀ s) (hs : Step O s a s') : Serial O call s₀ s' := by
  cases hs with
  | call hp => exact h.call_step hp
  | lock hp hfree => exact h.lock_step hO hp hfree
  | work hp hnext =>
    apply h.inside_step hp
    intro r hr
    cases hr with
    | answer hans => cases hnext.symm.trans hans
    | work hwork rest =>
      cases hnext.symm.trans hwork
      exact ⟨rfl, rest⟩
  | answer hp hnext =>
    apply h.inside_step hp
    intro r hr
    cases hr with
    | answer hans =>
      cases hnext.symm.trans hans
      exact ⟨rfl, rfl⟩
    | work hwork _ => cases hnext.symm.trans hwork
  | unlock hp => exact h.unlock_step hp

theorem serial_of_reachable (hO : O.Performs call) (h : (system θ O s₀).Reachable s) :
    Serial O call s₀ s := by
  apply h.invariant (P := Serial O call s₀)
  · rintro s rfl
    exact serial_initial O call s₀
  · intro u a v hu hs
    exact serial_step hO hu (step_iff.mp hs)

theorem step_of {a : Action θ κ} {s' : State θ σ κ ℓ β} (hs : Step O s a s') :
    (system θ O s₀).step s a = some s' :=
  step_iff.mpr hs

/-- What has happened stays, in the order in which it happened. -/
theorem grows_of_exec {as : List (Action θ κ)} {u : State θ σ κ ℓ β}
    (h : (system θ O s₀).exec s as = some u) :
    s.calls <+: u.calls ∧ s.entered <+: u.entered ∧ s.returned <+: u.returned := by
  refine TransitionSystem.exec_induction (P := fun u =>
    s.calls <+: u.calls ∧ s.entered <+: u.entered ∧ s.returned <+: u.returned) ?_ ?_ h
  · exact ⟨List.prefix_rfl, List.prefix_rfl, List.prefix_rfl⟩
  · rintro u a v ⟨hcalls, hentered, hreturned⟩ hs
    cases step_iff.mp hs with
    | call _ => exact ⟨hcalls.trans (List.prefix_append _ _), hentered, hreturned⟩
    | lock _ _ => exact ⟨hcalls, hentered.trans (List.prefix_append _ _), hreturned⟩
    | work _ _ | answer _ _ => exact ⟨hcalls, hentered, hreturned⟩
    | unlock _ => exact ⟨hcalls, hentered, hreturned.trans (List.prefix_append _ _)⟩

/-- The thread goes through the rest of its call while the others stand still. -/
theorem exec_work (s₀ : σ) {object : σ} {r : σ × β} (hends : O.Ends object l r)
    (hobject : s.object = object) (hp : s.place t = .inside n l) :
    ∃ as u, (system θ O s₀).exec s as = some u ∧ u.place t = .leaving n r.2 ∧
      u.calls = s.calls ∧ u.entered = s.entered := by
  induction hends generalizing s with
  | @answer object v l b hnext =>
    subst hobject
    have he : (system θ O s₀).exec s [.work t] =
        some { s.setPlace t (.leaving n b) with object := v } := by
      rw [TransitionSystem.exec_cons, step_of (O := O) (.answer hp hnext), Option.bind_some,
        TransitionSystem.exec_nil]
    exact ⟨_, _, he, setPlace_self _, rfl, rfl⟩
  | @work object v l l' r hnext rest ih =>
    subst hobject
    have hin : ({ s.setPlace t (.inside n l') with object := v } : State θ σ κ ℓ β).place t =
        .inside n l' :=
      setPlace_self _
    obtain ⟨as, u, he, hleaving, hcalls, hentered⟩ := ih rfl hin
    refine ⟨.work t :: as, u, ?_, hleaving, hcalls, hentered⟩
    rw [TransitionSystem.exec_cons, step_of (O := O) (.work hp hnext), Option.bind_some]
    exact he

theorem exec_unlock (O : SmallSteps σ κ ℓ β) (s₀ : σ) (hp : s.place t = .leaving n b) :
    ∃ u, (system θ O s₀).exec s [.unlock t] = some u ∧ u.holder = none ∧
      u.calls = s.calls ∧ u.entered = s.entered := by
  have he : (system θ O s₀).exec s [.unlock t] =
      some { s.setPlace t .outside with holder := none, returned := s.returned ++ [(n, b)] } := by
    rw [TransitionSystem.exec_cons, step_of (O := O) (.unlock hp), Option.bind_some,
      TransitionSystem.exec_nil]
  exact ⟨_, he, rfl, rfl, rfl⟩

namespace Serial
variable (h : Serial O call s₀ s)
include h

/-- The call that holds the lock comes to its end by the steps of its own thread. -/
theorem exec_free :
    ∃ as u, (system θ O s₀).exec s as = some u ∧ u.holder = none ∧ u.calls = s.calls ∧
      u.entered = s.entered := by
  cases hholder : s.holder with
  | none => exact ⟨[], s, rfl, hholder, rfl, rfl⟩
  | some t =>
    obtain ⟨done, n, c, -, -, hf⟩ := h.held t hholder
    cases hp : s.place t with
    | outside | waiting _ _ =>
      rw [hp] at hf
      exact hf.elim
    | leaving m b =>
      obtain ⟨u, he, hu⟩ := exec_unlock O s₀ hp
      exact ⟨_, u, he, hu⟩
    | inside m l =>
      rw [hp] at hf
      obtain ⟨as, u, he, hleaving, hcalls, hentered⟩ := exec_work s₀ hf.2 rfl hp
      obtain ⟨v, he', hnone, hcalls', hentered'⟩ := exec_unlock O s₀ hleaving
      refine ⟨as ++ [.unlock t], v, ?_, hnone, hcalls'.trans hcalls, hentered'.trans hentered⟩
      rw [TransitionSystem.exec_append_some _ he]
      exact he'

omit [DecidableEq θ] in
theorem mem_returned_of_free (hnone : s.holder = none) (hn : n ∈ s.entered.map Prod.fst) :
    n ∈ s.returned.map Prod.fst := by
  rw [(h.free hnone).2, map_fst_answersOf]
  exact hn

/-- No call is stuck: the threads can go on so that it returns. -/
theorem can_return (hO : O.Performs call) (hn : n < s.calls.length) :
    ∃ as u, (system θ O s₀).exec s as = some u ∧ n ∈ u.returned.map Prod.fst := by
  have hserial {u v : State θ σ κ ℓ β} {as : List (Action θ κ)} (hu : Serial O call s₀ u)
      (he : (system θ O s₀).exec u as = some v) : Serial O call s₀ v := by
    refine TransitionSystem.exec_induction hu ?_ he
    intro u a v hu hs
    exact serial_step hO hu (step_iff.mp hs)
  obtain ⟨as, u, he, hnone, hcalls, -⟩ := h.exec_free
  have hu := hserial h he
  rw [← hcalls] at hn
  rcases hu.numbered.present n hn with hin | ⟨t, c, hp⟩
  · exact ⟨as, u, he, hu.mem_returned_of_free hnone hin⟩
  · -- the call takes the lock, which is free, and goes through
    have hlock := serial_step hO hu (.lock hp hnone)
    obtain ⟨bs, v, he', hnone', -, hentered⟩ := hlock.exec_free
    refine ⟨as ++ .lock t :: bs, v, ?_, (hserial hlock he').mem_returned_of_free hnone' ?_⟩
    · rw [TransitionSystem.exec_append_some _ he, TransitionSystem.exec_cons,
        step_of (O := O) (.lock hp hnone), Option.bind_some]
      exact he'
    · rw [hentered]
      simp

end Serial

end Kept

/-- The calls have been answered as if one thread had made the entered ones, in that order, on the
object `s₀` with the calls `call`. At most one of them is still to return. -/
structure Linearizable {τ : Type*} (call : τ → κ → τ × β) (s₀ : τ) (s : State θ σ κ ℓ β) :
    Prop where
  named : ∀ e ∈ s.entered, s.calls[e.1]? = some e.2
  once : (s.entered.map Prod.fst).Nodup
  answers : s.returned <+: answersOf call s₀ s.entered
  pending : s.entered.length ≤ s.returned.length + 1

section Linearized
variable {τ : Type*} {O : SmallSteps σ κ ℓ β} {call : σ → κ → σ × β} {call' : τ → κ → τ × β}
  {R : σ → τ → Prop} {s₀ : σ} {t₀ : τ} {s : State θ σ κ ℓ β}

theorem Serial.length_returned (h : Serial O call s₀ s) :
    s.entered.length ≤ s.returned.length + 1 := by
  have hlen (history : List (ℕ × κ)) :
      (answersOf call s₀ history).length = history.length := by
    rw [← List.length_map (f := Prod.fst), map_fst_answersOf, List.length_map]
  cases hholder : s.holder with
  | none =>
    rw [(h.free hholder).2, hlen]
    exact Nat.le_succ _
  | some t =>
    obtain ⟨done, n, c, hentered, hreturned, -⟩ := h.held t hholder
    apply Nat.le_of_eq
    rw [hentered, hreturned, hlen, List.length_append, List.length_singleton]

theorem Serial.returned_prefix (h : Serial O call s₀ s) :
    s.returned <+: answersOf call s₀ s.entered := by
  cases hholder : s.holder with
  | none =>
    have hall := (h.free hholder).2
    exact ⟨[], by rw [List.append_nil, hall]⟩
  | some t =>
    obtain ⟨done, n, c, hentered, hreturned, -⟩ := h.held t hholder
    rw [hentered, hreturned, answersOf_concat]
    exact List.prefix_append _ _

/-- An object that answers alike may be put for the one that is called. -/
theorem Serial.linearizable (h : Serial O call s₀ s) (ha : AnswersAlike call call' R)
    (hR : R s₀ t₀) : Linearizable call' t₀ s where
  named := h.numbered.named
  once := h.numbered.once
  answers := by
    have halike : answersOf call s₀ s.entered = answersOf call' t₀ s.entered := by
      rw [answersOf, ha.answersTo hR, answersOf]
    rw [← halike]
    exact h.returned_prefix
  pending := h.length_returned

theorem Linearizable.mem_entered (h : Linearizable call' t₀ s) {n : ℕ}
    (hn : n ∈ s.returned.map Prod.fst) : n ∈ s.entered.map Prod.fst := by
  rw [← map_fst_answersOf call' t₀]
  exact (h.answers.map Prod.fst).subset hn

/-- A call that had returned when another was made comes before it. -/
theorem sublist_entered [DecidableEq θ] {as : List (Action θ κ)} {u : State θ σ κ ℓ β} {n m : ℕ}
    (h : Linearizable call' t₀ s) (he : (system θ O s₀).exec s as = some u)
    (hn : n ∈ s.returned.map Prod.fst) (hm : s.calls.length ≤ m)
    (hentered : m ∈ u.entered.map Prod.fst) : [n, m].Sublist (u.entered.map Prod.fst) := by
  obtain ⟨rest, hrest⟩ := (grows_of_exec he).2.1
  rw [← hrest, List.map_append, List.mem_append] at hentered
  have hold : m ∉ s.entered.map Prod.fst := by
    intro hmem
    obtain ⟨e, hin, rfl⟩ := List.mem_map.mp hmem
    have hlt := (List.getElem?_eq_some_iff.mp (h.named e hin)).1
    omega
  rw [← hrest, List.map_append]
  exact (List.singleton_sublist.mpr (h.mem_entered hn)).append
    (List.singleton_sublist.mpr (hentered.resolve_left hold))

end Linearized

end GuardedCalls
end CrisCore
