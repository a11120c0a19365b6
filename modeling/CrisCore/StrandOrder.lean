import CrisCore.StrandHistory

/-! The order in which the jobs of a strand start. -/
namespace CrisCore.Strand
variable {s : State}

/-- `AddJob` returned and had taken the job. -/
def Accepted (s : State) (j : JobId) : Prop :=
  s.pc (.addJob, j) = .returned .finished ∨ s.pc (.addJob, j) = .returned .enqueued

theorem mem_arrivals {b : FifoBaton JobId} (hs : Coherent s) (hb : Refines s b) {j : JobId} :
    j ∈ b.arrivals ↔ s.phase j = .pending ∨ (s.phase j).entered = true := by
  simp only [FifoBaton.arrivals, List.mem_append, Option.mem_toList, hb.waiting,
    hs.place.mem_pending, ← hb.ended, ← hb.holder, Active]
  constructor
  · rintro ((hd | ha) | hp)
    · exact Or.inr (entered_of_released hs (released_of_decided hd))
    · exact Or.inr ha.1
    · exact Or.inl hp
  · rintro (hp | he)
    · exact Or.inr hp
    · by_cases hd : Decided s j
      · exact Or.inl (Or.inl hd)
      · exact Or.inl (Or.inr ⟨he, hd⟩)

theorem accepted_phase (hs : Coherent s) (hr : Recorded s) (ha : s.strandAlive = true) {j : JobId}
    (h : Accepted s j) : s.phase j = .pending ∨ (s.phase j).entered = true := by
  have hj := hs.job j
  have hd := hr.noLoss.dropped ha j
  have hstage : (s.view j).stage = .ranInPlace ∨ (s.view j).stage = .enqueued := by
    rcases h with h | h <;> simp [State.view, h, Pc.stage]
  unfold JobOk at hj
  split at hj <;> simp_all [State.view, Phase.entered]

/-- While the strand lives the order of arrival only grows at its end. -/
theorem arrivals_exec {t : State} {as : List Action} {b : FifoBaton JobId} (hs : Coherent s)
    (hb : Refines s b) (h : system.exec s as = some t) :
    Coherent t ∧ ∃ c, Refines t c ∧
      (t.strandAlive = true → s.strandAlive = true ∧ ∃ l, c.arrivals = b.arrivals ++ l) := by
  refine TransitionSystem.exec_induction (P := fun t => Coherent t ∧ ∃ c, Refines t c ∧
    (t.strandAlive = true → s.strandAlive = true ∧ ∃ l, c.arrivals = b.arrivals ++ l))
    ⟨hs, b, hb, fun ha => ⟨ha, [], by simp⟩⟩ ?_ h
  rintro u e v ⟨hu, c, hc, hl⟩ hst
  obtain ⟨he, rfl⟩ := step_eq_some.mp hst
  obtain ⟨d, hd, hop⟩ := refines_step he hu hc
  refine ⟨coherent_step he hu, d, hd, fun ha => ?_⟩
  rw [next_strandAlive] at ha
  simp only [Bool.and_eq_true, bne_iff_ne] at ha
  obtain ⟨hsa, l, hl⟩ := hl ha.1
  refine ⟨hsa, ?_⟩
  rcases hop with rfl | ⟨op, hop, hclear⟩
  · exact ⟨l, hl⟩
  · obtain ⟨l', hl'⟩ := FifoBaton.arrivals_step hop fun h => ha.2 (hclear h)
    exact ⟨l ++ l', by rw [hl', hl, List.append_assoc]⟩

/-- A job that starts had left the queue before. -/
theorem entered_of_start {e : Action} {j : JobId} (he : Enabled s e) (hs : Coherent s)
    (hj : s.phase j ≠ .running) (hj' : (next s e).phase j = .running) :
    (s.phase j).entered = true := by
  have hok := hs.job j
  rcases view_step he hs.place j with hv | hv
  · have hp : (next s e).phase j = s.phase j := congrArg JobView.phase hv
    exact absurd (hp.symm.trans hj') hj
  · have hw : ((next s e).view j).phase = .running := hj'
    have hn : (s.view j).phase ≠ .running := hj
    change ((s.view j).phase).entered = true
    generalize s.view j = v at hv hn hok
    generalize (next s e).view j = w at hv hw
    cases hv with
    | startInPlace h => rw [hok.phase_of_claimed h]; rfl
    | start _ h => rw [h]; rfl
    | claim | enqueue | pop | hand | drop | finish | discardPopped | discardQueued =>
      cases hw
    | share | handOver | dropToken | return_ => exact absurd hw hn

/-- Once every reference is gone, the job finished or had given its token away. -/
theorem started_of_decided (hs : Coherent s) (hr : Recorded s) (ha : s.runnerAlive = true)
    {j : JobId} (h : Decided s j) :
    s.phase j = .finished ∨ (s.phase j = .running ∧ s.handedOver j = true) := by
  have hj := hs.job j
  have hd := hr.noLoss.discarded ha j
  have hrel := released_of_decided h
  rcases hj.phase_of_released hrel with hp | hp | hp
  · have hp' : s.phase j = .running := hp
    simp only [JobOk, hp] at hj
    exact Or.inr ⟨hp', hj.2.1 (hj.2.2 hrel).1⟩
  · exact Or.inl hp
  · exact absurd hp hd

theorem handed_prefix (hr : Recorded s) (ha : s.strandAlive = true)
    (hra : s.runnerAlive = true) : s.handed <+: s.pushed := by
  obtain ⟨flight, h, -⟩ := hr.inOrder ha hra
  rw [h, List.append_assoc]
  exact List.prefix_append _ _

/-- If the call that adds `A` returned before the call that adds `B` starts, `B` starts only after
the last reference to the token of `A` was released, so `A` has finished or had given its token
away; and the runner gets the pushed jobs in the order of the pushes. -/
theorem strand_order :
    (∀ s₀ s t as e A B, system.Reachable s₀ → Accepted s₀ A → s₀.pc (.addJob, B) = .idle →
      system.exec s₀ as = some s → system.step s e = some t →
      t.strandAlive = true → t.runnerAlive = true →
      s.phase B ≠ .running → t.phase B = .running →
      Decided s A ∧
        (s.phase A = .finished ∨ (s.phase A = .running ∧ s.handedOver A = true))) ∧
      ∀ s, system.Reachable s → s.strandAlive = true → s.runnerAlive = true →
        s.handed <+: s.pushed := by
  refine ⟨?_, fun s h ha hra => handed_prefix (reachable_recorded h) ha hra⟩
  intro s₀ s t as e A B h hA hB hrun hstep ha hra hb hb'
  obtain ⟨hs₀, b₀, hb₀⟩ := reachable_refines h
  have hr₀ := reachable_recorded h
  obtain ⟨he, rfl⟩ := step_eq_some.mp hstep
  rw [next_strandAlive] at ha
  rw [next_runnerAlive] at hra
  simp only [Bool.and_eq_true, bne_iff_ne] at ha hra
  obtain ⟨hs, c, hc, harr⟩ := arrivals_exec hs₀ hb₀ hrun
  obtain ⟨ha₀, l, hl⟩ := harr ha.1
  -- `A` had arrived before, `B` had not
  have hAin : A ∈ b₀.arrivals := (mem_arrivals hs₀ hb₀).mpr (accepted_phase hs₀ hr₀ ha₀ hA)
  have hBout : B ∉ b₀.arrivals := by
    rw [mem_arrivals hs₀ hb₀]
    have hp : s₀.phase B = .absent :=
      (hs₀.job B).phase_of_unaccepted (by simp [State.view, hB, Pc.stage])
    simp [hp, Phase.entered]
  -- when `B` starts it holds the baton, so everybody before it has ended
  have hBc : B ∈ c.ended ∨ c.holder = some B := by
    rw [← hc.ended, ← hc.holder]
    by_cases hd : Decided s B
    · exact Or.inl hd
    · exact Or.inr ⟨entered_of_start he hs hb hb', hd⟩
  have hd : Decided s A := (hc.ended A).mpr (FifoBaton.mem_ended_of_before hl hAin hBout hBc)
  have hr : Recorded s := reachable_recorded (h.exec hrun)
  exact ⟨hd, started_of_decided hs hr hra.1 hd⟩

/-- Job 0 goes through the queue, gives its token away and keeps executing. -/
def queuedRun : List Action :=
  [.call 0 .enqueue, .push 0, .lock (.addJob, 0), .testReady (.addJob, 0),
    .consumeOne (.addJob, 0), .storeReady (.addJob, 0) (some 0), .unlock (.addJob, 0) (some 0),
    .pushToRunner (.addJob, 0) 0 0, .return_ 0]

/-- Then its token is released and job 1 starts in place. -/
def overtakingRun : List Action :=
  [.startJob 0 0, .handOverToken 0, .dropToken 0, .lock (.aliveToken, 0),
    .testReady (.aliveToken, 0), .consumeOne (.aliveToken, 0), .storeReady (.aliveToken, 0) none,
    .unlock (.aliveToken, 0) none, .call 1 .forceRunImmediately, .tryLock 1, .testEmpty 1,
    .setReady 1]

theorem exec_overtakingRun :
    system.exec (afterRun queuedRun) overtakingRun =
      some (afterRun (queuedRun ++ overtakingRun)) :=
  exec_afterRun (by decide)

theorem step_overtakingRun :
    system.step (afterRun (queuedRun ++ overtakingRun)) (.unlockForce 1 true) =
      some (afterRun (queuedRun ++ overtakingRun ++ [.unlockForce 1 true])) := by
  have h : system.exec (afterRun (queuedRun ++ overtakingRun)) [.unlockForce 1 true] =
      some (afterRun (queuedRun ++ overtakingRun ++ [.unlockForce 1 true])) :=
    exec_afterRun (by decide)
  simpa using h

theorem strand_order_overtakingRun :
    Decided (afterRun (queuedRun ++ overtakingRun)) 0 ∧
      ((afterRun (queuedRun ++ overtakingRun)).phase 0 = .finished ∨
        ((afterRun (queuedRun ++ overtakingRun)).phase 0 = .running ∧
          (afterRun (queuedRun ++ overtakingRun)).handedOver 0 = true)) :=
  strand_order.1 _ _ _ overtakingRun (.unlockForce 1 true) 0 1 (reachable_afterRun queuedRun)
    (Or.inr (by decide)) (by decide) exec_overtakingRun step_overtakingRun (by decide)
    (by decide) (by decide) (by decide)

/-- An earlier job may still be executing when a later one starts. -/
theorem later_job_starts_while_earlier_executes :
    ¬ ∀ s₀ s t as e A B, system.Reachable s₀ → Accepted s₀ A → s₀.pc (.addJob, B) = .idle →
      system.exec s₀ as = some s → system.step s e = some t →
      t.strandAlive = true → t.runnerAlive = true →
      s.phase B ≠ .running → t.phase B = .running → s.phase A = .finished := by
  intro h
  have h0 := h _ _ _ overtakingRun (.unlockForce 1 true) 0 1 (reachable_afterRun queuedRun)
    (Or.inr (by decide)) (by decide) exec_overtakingRun step_overtakingRun (by decide)
    (by decide) (by decide) (by decide)
  exact absurd h0 (by decide)

end CrisCore.Strand
