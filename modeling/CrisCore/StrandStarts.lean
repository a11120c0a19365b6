import CrisCore.StrandEnqueue
import CrisCore.StrandOrder

/-! The order in which workers start the jobs of a strand whose runner lives. -/
namespace CrisCore.Strand
variable {s : State} {e : Action}

theorem handed_next (h : ∀ a k w, e ≠ .pushToRunner a k w) : (next s e).handed = s.handed := by
  cases e <;> simp only [next, State.destroyJob_eq, State.releaseToken_eq] <;>
    (repeat' split) <;> simp_all [State.setPc, State.setPhase]

theorem jobQueue_next (h : ∀ a k w, e ≠ .pushToRunner a k w) (hs : ∀ w k, e ≠ .startJob w k)
    (hd : ∀ w k, e ≠ .discardQueued w k) : (next s e).jobQueue = s.jobQueue := by
  cases e <;> simp only [next, State.destroyJob_eq, State.releaseToken_eq] <;>
    (repeat' split) <;> simp_all [State.setPc, State.setPhase]

/-- The job a worker starts. -/
def Action.started : Action → List JobId
  | .startJob _ j => [j]
  | _ => []

/-- The jobs that workers have started are the ones handed to the runner, in that order, but for
one that may still wait in a queue. -/
def StartOrder (s : State) (started : List JobId) : Prop :=
  ∃ waiting : Option JobId, s.handed = started ++ waiting.toList ∧
    ∀ k, waiting = some k ↔ ∃ w, k ∈ s.jobQueue w

theorem startOrder_initial : StartOrder initial [] :=
  ⟨none, rfl, by simp [initial]⟩

theorem startOrder_step {b : FifoBaton JobId} {started : List JobId} (he : Enabled s e)
    (hs : Coherent s) (hb : Refines s b) (hr : s.runnerAlive = true) (h : StartOrder s started) :
    StartOrder (next s e) (started ++ e.started) := by
  obtain ⟨waiting, h1, h2⟩ := h
  -- nobody waits when the next job is handed over
  by_cases hpush : ∃ a k w, e = .pushToRunner a k w
  · obtain ⟨a, k, w, rfl⟩ := hpush
    have hk : s.phase k = .popped a := (hs.place.carried a k).mp (by rw [he]; rfl)
    have hnone : ∀ j w, j ∉ s.jobQueue w := by
      intro j w' hj
      have hq := (hs.place.mem_queue w' j).mp hj
      -- both would be the active job
      have heq := hb.active_unique (active_of_waiting hs (Or.inl ⟨w', hq⟩))
        (active_of_waiting hs (Or.inr ⟨a, hk⟩))
      rw [heq, hk] at hq
      cases hq
    have hw : waiting = none := by
      cases hw : waiting with
      | none => rfl
      | some j =>
        obtain ⟨w', hj⟩ := (h2 j).mp hw
        exact absurd hj (hnone j w')
    refine ⟨some k, ?_, fun j => ?_⟩
    · simp [next, hr, State.setPc, State.setPhase, h1, hw, Action.started]
    · simp only [next, hr, if_true, State.setPc, State.setPhase, Option.some.injEq]
      constructor
      · rintro rfl
        exact ⟨w, by simp⟩
      · rintro ⟨w', hj⟩
        rw [Function.update_apply] at hj
        split_ifs at hj with hww
        · rcases List.mem_append.mp hj with hj | hj
          · exact absurd hj (hnone j w)
          · exact (List.mem_singleton.mp hj).symm
        · exact absurd hj (hnone j w')
  -- the one who waits starts
  by_cases hstart : ∃ w k, e = .startJob w k
  · obtain ⟨w, k, rfl⟩ := hstart
    have hk : k ∈ s.jobQueue w := List.mem_of_head? he
    have hw : waiting = some k := (h2 k).mpr ⟨w, hk⟩
    refine ⟨none, ?_, fun j => ?_⟩
    · simp [next, State.setPhase, h1, hw, Action.started]
    · obtain ⟨rest, hq⟩ := List.head?_eq_some_iff.mp he
      have hnodup := hs.place.queue_nodup w
      rw [hq] at hnodup
      simp only [next, State.setPhase, reduceCtorEq, false_iff, not_exists]
      intro w' hj
      have hold : j ∈ s.jobQueue w' ∧ (w' = w → j ≠ k) := by
        rw [Function.update_apply] at hj
        split_ifs at hj with hww
        · subst hww
          rw [hq, List.tail_cons] at hj
          refine ⟨by simp [hq, hj], fun _ hjk => ?_⟩
          rw [hjk] at hj
          exact (List.nodup_cons.mp hnodup).1 hj
        · exact ⟨hj, fun h => absurd h hww⟩
      have hjk : k = j := Option.some.inj (hw.symm.trans ((h2 j).mpr ⟨w', hold.1⟩))
      subst hjk
      have hp := (hs.place.mem_queue w' k).mp hold.1
      rw [(hs.place.mem_queue w k).mp hk] at hp
      cases hp
      exact hold.2 rfl rfl
  -- any other step moves neither a queue nor the log
  have hpush' (a k w) : e ≠ .pushToRunner a k w := fun h => hpush ⟨a, k, w, h⟩
  have hstart' (w k) : e ≠ .startJob w k := fun h => hstart ⟨w, k, h⟩
  have hdiscard (w k) : e ≠ .discardQueued w k := by
    rintro rfl
    have hdead : s.runnerAlive = false := he.1
    rw [hr] at hdead
    cases hdead
  have hnot : e.started = [] := by
    cases e with
    | startJob w k => exact absurd rfl (hstart' w k)
    | _ => rfl
  refine ⟨waiting, ?_, ?_⟩
  · rw [handed_next hpush', hnot, List.append_nil, h1]
  · rw [jobQueue_next hpush' hstart' hdiscard]
    exact h2

theorem StartOrder.started_prefix_handed {started : List JobId} (h : StartOrder s started) :
    started <+: s.handed := by
  obtain ⟨waiting, h1, -⟩ := h
  exact ⟨waiting.toList, h1.symm⟩

end CrisCore.Strand
