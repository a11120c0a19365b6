import CrisCore.StrandTurns

/-! At most one job of a strand is active, and `has_ready_job_` says whether one is. -/
namespace CrisCore.Strand
variable {s : State}

theorem reachable_refines (h : system.Reachable s) : Coherent s ∧ ∃ b, Refines s b := by
  refine h.invariant (P := fun s => Coherent s ∧ ∃ b, Refines s b) ?_ ?_
  · rintro s rfl
    exact ⟨coherent_initial, {}, refines_initial⟩
  · rintro s e t ⟨hs, b, hb⟩ hst
    obtain ⟨he, rfl⟩ := step_eq_some.mp hst
    obtain ⟨c, hc, -⟩ := refines_step he hs hb
    exact ⟨coherent_step he hs, c, hc⟩

/-- The holder of the baton is the only active job. -/
theorem Refines.active_unique {b : FifoBaton JobId} (hb : Refines s b) {j k : JobId}
    (hj : Active s j) (hk : Active s k) : j = k :=
  Option.some.inj (((hb.holder j).mp hj).symm.trans ((hb.holder k).mp hk))

/-- Outside the section nobody is about to write the flag. -/
theorem Refines.ready_of_unlocked {b : FifoBaton JobId} (hs : Coherent s) (hb : Refines s b)
    (hl : s.locked = false) : s.hasReadyJob = b.holder.isSome := by
  have hout (a) : (s.pc a).inSection ≠ true := by simp [hs.lock.outside hl a]
  exact hb.ready (fun a h => hout a (Pc.inSection_of_turn (Or.inl h)))
    (fun a n h => hout a (Pc.inSection_of_turn (Or.inr (Or.inr ⟨n, h⟩))))

/-- A started job whose token is referenced from anywhere has not released it. -/
theorem active_of_referenced (hs : Coherent s) {j : JobId} (hp : (s.phase j).entered = true)
    (ht : s.ownsToken j = true ∨ 0 < s.sharedTokens j) : Active s j := by
  refine ⟨hp, fun hd => ?_⟩
  have hr := released_of_decided hd
  have hn : (s.view j).released = false :=
    ht.elim (hs.job j).released_of_owns (hs.job j).released_of_shared
  rw [hr] at hn
  cases hn

theorem active_of_waiting (hc : Coherent s) {j : JobId}
    (hp : (∃ w, s.phase j = .queued w) ∨ ∃ b, s.phase j = .popped b) : Active s j := by
  have hok := hc.job j
  rcases hp with ⟨w, hp⟩ | ⟨b, hp⟩ <;> simp only [JobOk, State.view, hp] at hok <;>
    exact active_of_referenced hc (by rw [hp]; rfl) (Or.inl hok.2.2.1)

/-- A job that executes is active, unless it gave its token away and all copies are gone. -/
theorem active_of_running (hs : Coherent s) {j : JobId} (hp : s.phase j = .running) :
    Active s j ∨ (s.handedOver j = true ∧ s.ownsToken j = false ∧ s.sharedTokens j = 0) := by
  have hj := hs.job j
  by_cases ht : s.ownsToken j = true ∨ 0 < s.sharedTokens j
  · exact Or.inl (active_of_referenced hs (by rw [hp]; rfl) ht)
  · have ho : s.ownsToken j = false ∧ s.sharedTokens j = 0 := by simpa using ht
    simp only [JobOk, State.view, hp] at hj
    exact Or.inr ⟨hj.2.1 ho.1, ho⟩

/-- In every reachable state at most one job is active; two started jobs never hold their tokens
at once; two jobs execute at once only when one of them gave its token away and every copy is
gone; outside the section the flag is set exactly when a job is active. -/
theorem strand_mutual_exclusion (h : system.Reachable s) :
    (∀ j k, Active s j → Active s k → j = k) ∧
      (∀ j k, (s.phase j).entered = true → (s.ownsToken j = true ∨ 0 < s.sharedTokens j) →
        (s.phase k).entered = true → (s.ownsToken k = true ∨ 0 < s.sharedTokens k) → j = k) ∧
      (∀ j k, s.phase j = .running → s.phase k = .running → j ≠ k →
        ∃ i, (i = j ∨ i = k) ∧ s.handedOver i = true ∧ s.ownsToken i = false ∧
          s.sharedTokens i = 0) ∧
      (s.locked = false → (s.hasReadyJob = true ↔ ∃ j, Active s j)) := by
  obtain ⟨hs, b, hb⟩ := reachable_refines h
  refine ⟨fun j k => hb.active_unique, ?_, ?_, ?_⟩
  · intro j k hj tj hk tk
    exact hb.active_unique (active_of_referenced hs hj tj) (active_of_referenced hs hk tk)
  · intro j k hj hk hne
    rcases active_of_running hs hj with aj | hj
    · rcases active_of_running hs hk with ak | hk
      · exact absurd (hb.active_unique aj ak) hne
      · exact ⟨k, Or.inr rfl, hk⟩
    · exact ⟨j, Or.inl rfl, hj⟩
  · intro hl
    rw [hb.ready_of_unlocked hs hl, Option.isSome_iff_exists]
    exact exists_congr fun j => (hb.holder j).symm

/-- Job 0 runs in place, moves its token to somebody who drops it, and keeps executing while
job 1 starts in place. -/
def handOverRun : List Action :=
  [.call 0 .forceRunImmediately, .tryLock 0, .testEmpty 0, .setReady 0, .unlockForce 0 true,
    .handOverToken 0, .dropToken 0, .lock (.aliveToken, 0), .testReady (.aliveToken, 0),
    .consumeOne (.aliveToken, 0), .storeReady (.aliveToken, 0) none,
    .unlock (.aliveToken, 0) none, .call 1 .forceRunImmediately, .tryLock 1, .testEmpty 1,
    .setReady 1, .unlockForce 1 true]

theorem strand_mutual_exclusion_handOverRun :
    ((afterRun handOverRun).phase 0 = .running ∧ (afterRun handOverRun).phase 1 = .running ∧
      (afterRun handOverRun).locked = false) ∧
      ((afterRun handOverRun).hasReadyJob = true ↔ ∃ j, Active (afterRun handOverRun) j) :=
  have hrun : (afterRun handOverRun).phase 0 = .running ∧
      (afterRun handOverRun).phase 1 = .running ∧ (afterRun handOverRun).locked = false := by
    decide
  ⟨hrun, (strand_mutual_exclusion (reachable_afterRun handOverRun)).2.2.2 hrun.2.2⟩

/-- Two jobs of one strand can execute at the same time. -/
theorem two_jobs_execute_at_once :
    ¬ ∀ s, system.Reachable s →
      ∀ j k, s.phase j = .running → s.phase k = .running → j = k := by
  intro h
  have h01 := h _ (reachable_afterRun handOverRun) 0 1 (by decide) (by decide)
  cases h01

end CrisCore.Strand
