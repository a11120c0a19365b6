import CrisCore.StrandHistory
import CrisCore.StrandMoves

/-! A strand that is only used by `AddJob(job)`, and whose tokens nobody shares. -/
namespace CrisCore.Strand
variable {s : State} {a : Action} {j : JobId}

/-- What a call of `AddJob(job)` and the release of a token go through. -/
def Pc.plain : Pc → Bool
  | .idle | .push | .lock | .testReady | .consumeOne | .storeReady _ | .unlock _ | .pushToRunner _
  | .done | .returned .enqueued => true
  | _ => false

/-- The steps of a strand that is only used by `AddJob(job)`, and whose tokens nobody shares. -/
def Action.plain : Action → Bool
  | .call _ .enqueue | .push _ | .lock _ | .testReady _ | .consumeOne _ | .storeReady _ _
  | .unlock _ _ | .pushToRunner _ _ _ | .return_ _ | .startJob _ _ | .finishJob _ | .expireRunner
  | .discardQueued _ _ => true
  | _ => false

structure Plain (s : State) : Prop where
  alive : s.strandAlive = true
  pc : ∀ j, (s.pc (.addJob, j)).plain = true
  unshared : ∀ j, s.sharedTokens j = 0 ∧ s.handedOver j = false
  held : s.locked = true → ∃ a, (s.pc a).inSection = true

theorem plain_initial : Plain initial :=
  ⟨rfl, fun _ => rfl, fun _ => ⟨rfl, rfl⟩, nofun⟩

/-- A call of `AddJob(job)` keeps to its own way, and pushes once. -/
theorem PcStep.plain {b : Activation} {p q : Pc} (h : PcStep s a b p q) (hp : p.plain = true)
    (hi : p ≠ .idle) : q.plain = true ∧ q ≠ .push ∧ (p = .push → a = .push b.2) := by
  cases h with
  | call | release => exact absurd rfl hi
  | lockTaken | tryLock | decline | claim | setReady | unlockRejected | unlockAccepted
  | returnInPlace => cases hp
  | push j => exact ⟨rfl, nofun, fun _ => rfl⟩
  | _ => exact ⟨rfl, nofun, nofun⟩

/-- The moves of an activation. -/
inductive PcMove (s : State) : Action → Activation → Pc → Pc → Prop
  | call (j : JobId) : PcMove s (.call j .enqueue) (.addJob, j) .idle .push
  | push (j : JobId) : PcMove s (.push j) (.addJob, j) .push .lock
  | lock (b : Activation) : PcMove s (.lock b) b .lock .testReady
  | skip (b : Activation) : PcMove s (.testReady b) b .testReady (.unlock none)
  | consume (b : Activation) : PcMove s (.testReady b) b .testReady .consumeOne
  | consumeOne (b : Activation) :
    PcMove s (.consumeOne b) b .consumeOne (.storeReady s.pendingJobs.head?)
  | storeReady (b : Activation) (n : Option JobId) :
    PcMove s (.storeReady b n) b (.storeReady n) (.unlock n)
  | unlockNone (b : Activation) : PcMove s (.unlock b none) b (.unlock none) .done
  | unlockSome (b : Activation) (k : JobId) :
    PcMove s (.unlock b (some k)) b (.unlock (some k)) (.pushToRunner k)
  | pushToRunner (b : Activation) (k : JobId) (w : ℕ) :
    PcMove s (.pushToRunner b k w) b (.pushToRunner k) .done
  | return_ (j : JobId) : PcMove s (.return_ j) (.addJob, j) .done (.returned .enqueued)
  | release (a : Action) (k : JobId) : PcMove s a (.aliveToken, k) .idle .lock

theorem pc_next (he : Enabled s a) (hc : Coherent s) (ha : a.plain = true) (h : Plain s)
    (b : Activation) : (next s a).pc b = s.pc b ∨ PcMove s a b (s.pc b) ((next s a).pc b) := by
  rcases pc_step he hc b with hp | hp
  · exact Or.inl hp
  right
  generalize hq : s.pc b = q at hp ⊢
  generalize (next s a).pc b = p at hp ⊢
  cases hp with
  | call j form =>
    cases form
    case enqueue => exact .call j
    all_goals cases ha
  | push j => exact .push j
  | lock => exact .lock b
  | skip => exact .skip b
  | consume => exact .consume b
  | consumeOne => exact .consumeOne b
  | storeReady _ n => exact .storeReady b n
  | unlockNone => exact .unlockNone b
  | unlockSome _ k => exact .unlockSome b k
  | pushToRunner _ k w => exact .pushToRunner b k w
  | return_ j => exact .return_ j
  | returnInPlace j =>
    -- a call in place does not occur here
    have hj := h.pc j
    rw [hq] at hj
    cases hj
  | release _ k => exact .release a k
  | lockTaken | tryLock | decline | claim | setReady | unlockRejected | unlockAccepted => cases ha

theorem plain_step (he : Enabled s a) (hc : Coherent s) (ha : a.plain = true) (h : Plain s) :
    Plain (next s a) := by
  refine ⟨?_, fun j => ?_, fun j => ?_, fun hl => ?_⟩
  · rw [next_strandAlive, h.alive, Bool.true_and, bne_iff_ne]
    rintro rfl
    cases ha
  · have hj := h.pc j
    rcases pc_next he hc ha h (.addJob, j) with hp | hp
    · rwa [hp]
    · generalize s.pc (.addJob, j) = q at hp
      generalize (next s a).pc (.addJob, j) = p at hp
      cases hp <;> rfl
  · cases a
    case push | lock | storeReady | return_ | startJob | expireRunner => exact h.unshared j
    case call k form => cases form <;> exact h.unshared j
    case unlock b n => cases n <;> exact h.unshared j
    case consumeOne b =>
      simp only [next]
      split <;> exact h.unshared j
    case testReady | pushToRunner =>
      simp only [next, State.destroyJob_eq]
      split_ifs <;> exact h.unshared j
    case finishJob | discardQueued =>
      simp only [next, State.destroyJob_eq]
      exact h.unshared j
    all_goals cases ha
  · exact held_step he hc h.held hl

theorem started_pc_next (he : Enabled s a) (hc : Coherent s) (ha : a.plain = true) (h : Plain s)
    {b : Activation} (hb : s.pc b ≠ .idle) : (next s a).pc b ≠ .idle := by
  rcases pc_next he hc ha h b with hp | hp
  · rwa [hp]
  · generalize s.pc b = q at hp
    generalize (next s a).pc b = p at hp
    cases hp <;> exact nofun

end CrisCore.Strand
