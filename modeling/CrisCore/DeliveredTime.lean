import CrisCore.SubscriptionRegistry

/-! The delivered times of the channels: after it has walked over the list, each dispatcher reads the
clock and then stores what it has read, beside the other dispatchers. -/
namespace CrisCore.DeliveredTime
open SubscriptionRegistry (ThreadId NodeId MessageId ChannelId)

structure State where
  registry : SubscriptionRegistry.State
  /-- The channels in `map_`. -/
  known : ChannelId → Bool
  /-- What `GetSystemTimestampNsec` returns now. -/
  clock : ℕ
  /-- What a dispatcher has read and not stored, and whether it has stored. -/
  reading : ThreadId → Option ℕ
  delivered : ThreadId → Bool
  latestDeliveredTime : ChannelId → ℕ
  /-- History: what was stored for a channel, the last first, and what was stored for the channel of
  a dispatcher since it read the clock. -/
  stores : ChannelId → List ℕ
  since : ThreadId → List ℕ

def initial (clock : ℕ) : State where
  registry := SubscriptionRegistry.initial
  known := fun _ => false
  clock := clock
  reading := fun _ => none
  delivered := fun _ => false
  latestDeliveredTime := fun _ => 0
  stores := fun _ => []
  since := fun _ => []

inductive Action
  | registry (a : SubscriptionRegistry.Action)
  | tick (d : ℕ)
  | readClock (t : ThreadId) (c : ChannelId) (m : MessageId) (i : ℕ)
  | store (t : ThreadId) (c : ChannelId) (m : MessageId) (i : ℕ)
  deriving DecidableEq

/-- The channel over whose list a thread walks. -/
def dispatching (r : SubscriptionRegistry.State) (t : ThreadId) : Option ChannelId :=
  match r.pc t with
  | .walk c _ _ => some c
  | _ => none

/-- A dispatcher leaves a channel that is in `map_` only after the store. -/
def Allowed (s : State) : SubscriptionRegistry.Action → Prop
  | .unlockDispatch t c _ _ => s.known c = true → s.delivered t = true
  | _ => True

instance (s : State) : (a : SubscriptionRegistry.Action) → Decidable (Allowed s a)
  | .unlockDispatch t c _ _ => inferInstanceAs (Decidable (s.known c = true → s.delivered t = true))
  | .construct .. | .callSubscribe .. | .lockSubscribe .. | .subscribe .. | .pushBack .. | .emplace ..
  | .unlockSubscribe .. | .publish .. | .lockDispatch .. | .addMessageToRunner .. | .destroy ..
  | .lockUnsubscribe .. | .erase .. | .unlockUnsubscribe .. | .endDestroy .. => .isTrue trivial

def Enabled (s : State) : Action → Prop
  | .registry a => SubscriptionRegistry.Enabled s.registry a ∧ Allowed s a
  | .tick _ => True
  | .readClock t c m i =>
    (s.registry.pc t = .walk c m i ∧ (s.registry.subList c).length ≤ i) ∧
      s.known c = true ∧ s.reading t = none ∧ s.delivered t = false
  | .store t c m i => s.registry.pc t = .walk c m i ∧ s.reading t ≠ none

instance (s : State) : (a : Action) → Decidable (Enabled s a)
  | .tick _ => .isTrue trivial
  | .registry _ | .readClock .. | .store .. => inferInstanceAs (Decidable (_ ∧ _))

def registryStep (s : State) (a : SubscriptionRegistry.Action) : State :=
  let s := { s with registry := SubscriptionRegistry.next s.registry a }
  match a with
  | .subscribe _ _ c _ => { s with known := Function.update s.known c true }
  | .lockDispatch t _ _ =>
    { s with
      reading := Function.update s.reading t none
      delivered := Function.update s.delivered t false }
  | _ => s

def next (s : State) : Action → State
  | .registry a => registryStep s a
  | .tick d => { s with clock := s.clock + d }
  | .readClock t _ _ _ =>
    { s with
      reading := Function.update s.reading t (some s.clock)
      since := Function.update s.since t [] }
  | .store t c _ _ =>
    let time := (s.reading t).getD 0
    { s with
      reading := Function.update s.reading t none
      delivered := Function.update s.delivered t true
      latestDeliveredTime := Function.update s.latestDeliveredTime c time
      stores := Function.update s.stores c (time :: s.stores c)
      since := fun u =>
        if dispatching s.registry u = some c then time :: s.since u else s.since u }

def system : TransitionSystem State Action where
  init s := ∃ clock, s = initial clock
  step s a := if Enabled s a then some (next s a) else none

/-- `SubscriptionMap::GetLatestDeliveredTime` -/
def getLatestDeliveredTime (s : State) (c : ChannelId) : ℕ :=
  if s.known c = true then s.latestDeliveredTime c else 0

/-- The values stored for a channel, from the last one back, and the first returned. -/
def NonDecreasing (s : State) : Prop :=
  ∀ c, (s.stores c).Pairwise fun later earlier => earlier ≤ later

/-- What `GetLatestDeliveredTime` returns for a channel is what was stored last. -/
def ReturnsLast (s : State) : Prop :=
  ∀ c, getLatestDeliveredTime s c = (s.stores c).head?.getD 0

/-- A step leaves the time of every channel but that of the dispatcher that stores. -/
def KeepsOthers (s : State) (a : Action) : Prop :=
  ∀ s', system.step s a = some s' → ∀ c, (∀ t m i, a ≠ .store t c m i) →
    s'.latestDeliveredTime c = s.latestDeliveredTime c

/-- Nobody has stored a later time for the channel since the dispatcher that stores read the clock. -/
def NotOvertaken (s : State) : Action → Prop
  | .store t _ _ _ => ∀ time ∈ s.reading t, ∀ v ∈ s.since t, v ≤ time
  | _ => True

instance (s : State) : (a : Action) → Decidable (NotOvertaken s a)
  | .store t _ _ _ => inferInstanceAs (Decidable (∀ time ∈ s.reading t, _))
  | .registry _ | .tick _ | .readClock .. => .isTrue trivial

theorem step_eq_some {s s' : State} {a : Action} :
    system.step s a = some s' ↔ Enabled s a ∧ next s a = s' := by
  change (if Enabled s a then some (next s a) else none) = some s' ↔ _
  split_ifs with h <;> simp [h]

/-- A thread comes to walk over the list of a channel only by taking the lock for it. -/
theorem dispatching_next {r : SubscriptionRegistry.State} {a : SubscriptionRegistry.Action}
    {t : ThreadId} {c : ChannelId} (he : SubscriptionRegistry.Enabled r a)
    (h : dispatching (SubscriptionRegistry.next r a) t = some c) :
    dispatching r t = some c ∨ ∃ m, a = .lockDispatch t c m := by
  unfold dispatching at h
  split at h
  · next c' m i hwalk =>
    cases h
    rcases SubscriptionRegistry.walk_of_walk_next he hwalk with ⟨k, hpc⟩ | ha
    · exact .inl (by rw [dispatching, hpc])
    · exact .inr ⟨m, ha⟩
  · cases h

structure Inv (s : State) : Prop where
  latest : ∀ c, s.latestDeliveredTime c = (s.stores c).head?.getD 0
  known : ∀ c, s.stores c ≠ [] → s.known c = true
  storedBefore : ∀ c, ∀ v ∈ s.stores c, v ≤ s.clock
  readBefore : ∀ t, ∀ time ∈ s.reading t, time ≤ s.clock
  busy : ∀ t c, s.reading t ≠ none → dispatching s.registry t = some c → s.known c = true
  since : ∀ t c, ∀ time ∈ s.reading t, dispatching s.registry t = some c →
    (∀ v ∈ s.stores c, v ≤ time ∨ v ∈ s.since t) ∧ ∀ v ∈ s.since t, v ∈ s.stores c

theorem inv_initial (clock : ℕ) : Inv (initial clock) := by
  constructor <;> simp [initial]

theorem inv_registry {s : State} {a : SubscriptionRegistry.Action} (h : Inv s)
    (he : SubscriptionRegistry.Enabled s.registry a) : Inv (registryStep s a) := by
  -- the registry reads no clock and stores nothing; it makes channels known and begins dispatches
  have hregistry : (registryStep s a).registry = SubscriptionRegistry.next s.registry a := by
    cases a <;> rfl
  have hstores : (registryStep s a).stores = s.stores := by cases a <;> rfl
  have hsince : (registryStep s a).since = s.since := by cases a <;> rfl
  have hclock : (registryStep s a).clock = s.clock := by cases a <;> rfl
  have hlatest : (registryStep s a).latestDeliveredTime = s.latestDeliveredTime := by
    cases a <;> rfl
  have hknown (c : ChannelId) (hc : s.known c = true) : (registryStep s a).known c = true := by
    cases a with
    | subscribe t n c' info =>
      simp only [registryStep, Function.update_apply]
      split_ifs
      · rfl
      · exact hc
    | _ => exact hc
  have hreading (t : ThreadId) (time : ℕ) (ht : (registryStep s a).reading t = some time) :
      s.reading t = some time ∧ ∀ c m, a ≠ .lockDispatch t c m := by
    cases a with
    | lockDispatch u c m =>
      simp only [registryStep, Function.update_apply] at ht
      split_ifs at ht with htu
      exact ⟨ht, fun c' m' heq => htu (by cases heq; rfl)⟩
    | _ => exact ⟨ht, fun c m heq => nomatch heq⟩
  have hdispatching (t : ThreadId) (c : ChannelId) (time : ℕ)
      (ht : (registryStep s a).reading t = some time)
      (hd : dispatching (registryStep s a).registry t = some c) :
      dispatching s.registry t = some c := by
    rw [hregistry] at hd
    rcases dispatching_next he hd with hd | ⟨m, rfl⟩
    · exact hd
    · exact absurd rfl ((hreading t time ht).2 c m)
  refine ⟨fun c => ?_, fun c hc => ?_, fun c v hv => ?_, fun t time ht => ?_, fun t c ht hd => ?_,
    fun t c time ht hd => ?_⟩
  · rw [hlatest, hstores]
    exact h.latest c
  · rw [hstores] at hc
    exact hknown c (h.known c hc)
  · rw [hstores] at hv
    rw [hclock]
    exact h.storedBefore c v hv
  · rw [hclock]
    exact h.readBefore t time (hreading t time ht).1
  · obtain ⟨time, ht⟩ := Option.ne_none_iff_exists'.mp ht
    refine hknown c (h.busy t c ?_ (hdispatching t c time ht hd))
    rw [(hreading t time ht).1]
    exact Option.some_ne_none time
  · rw [hstores, hsince]
    exact h.since t c time (hreading t time ht).1 (hdispatching t c time ht hd)

theorem inv_readClock {s : State} {t : ThreadId} {c : ChannelId} {m : MessageId} {i : ℕ} (h : Inv s)
    (he : Enabled s (.readClock t c m i)) : Inv (next s (.readClock t c m i)) := by
  obtain ⟨⟨hpc, -⟩, hknown, -⟩ := he
  refine ⟨h.latest, h.known, h.storedBefore, fun u time hu => ?_, fun u c' hu hd => ?_,
    fun u c' time hu hd => ?_⟩
  · simp only [next, Function.update_apply] at hu
    split_ifs at hu
    · cases hu
      exact Nat.le_refl _
    · exact h.readBefore u time hu
  · by_cases hut : u = t
    · simp only [next, dispatching, hut, hpc, Option.some.injEq] at hd
      rw [← hd]
      exact hknown
    · simp only [next, Function.update_of_ne hut] at hu
      exact h.busy u c' hu hd
  · simp only [next, Function.update_apply] at hu ⊢
    split_ifs at hu ⊢
    · cases hu
      exact ⟨fun v hv => .inl (h.storedBefore c' v hv), fun v hv => nomatch hv⟩
    · exact h.since u c' time hu hd

theorem inv_store {s : State} {t : ThreadId} {c : ChannelId} {m : MessageId} {i : ℕ} (h : Inv s)
    (he : Enabled s (.store t c m i)) : Inv (next s (.store t c m i)) := by
  obtain ⟨hpc, hreading⟩ := he
  obtain ⟨time, htime⟩ := Option.ne_none_iff_exists'.mp hreading
  have hchannel : dispatching s.registry t = some c := by rw [dispatching, hpc]
  have hold (u : ThreadId) (time' : ℕ)
      (hu : (next s (.store t c m i)).reading u = some time') : s.reading u = some time' := by
    simp only [next, Function.update_apply] at hu
    split_ifs at hu
    exact hu
  refine ⟨fun c' => ?_, fun c' hc' => ?_, fun c' v hv => ?_, fun u time' hu => ?_,
    fun u c' hu hd => ?_, fun u c' time' hu hd => ?_⟩
  · simp only [next, Function.update_apply]
    split_ifs
    · rfl
    · exact h.latest c'
  · by_cases hcc : c' = c
    · rw [hcc]
      exact h.busy t c hreading hchannel
    · simp only [next, Function.update_of_ne hcc] at hc'
      exact h.known c' hc'
  · simp only [next, Function.update_apply] at hv
    split_ifs at hv
    · rcases List.mem_cons.mp hv with rfl | hv
      · rw [htime]
        exact h.readBefore t time htime
      · exact h.storedBefore c v hv
    · exact h.storedBefore c' v hv
  · exact h.readBefore u time' (hold u time' hu)
  · obtain ⟨time', hu⟩ := Option.ne_none_iff_exists'.mp hu
    refine h.busy u c' ?_ hd
    rw [hold u time' hu]
    exact Option.some_ne_none time'
  · have hsince := h.since u c' time' (hold u time' hu) hd
    simp only [next, Function.update_apply]
    have hd' : dispatching s.registry u = some c' := hd
    rw [hd']
    by_cases hcc : c' = c
    · -- `u` dispatches on the same channel: the value is stored since it read the clock
      subst hcc
      simp only [if_true]
      constructor
      · intro v hv
        rcases List.mem_cons.mp hv with rfl | hv
        · exact .inr List.mem_cons_self
        · exact (hsince.1 v hv).imp_right (List.mem_cons_of_mem _)
      · intro v hv
        rcases List.mem_cons.mp hv with rfl | hv
        · exact List.mem_cons_self
        · exact List.mem_cons_of_mem _ (hsince.2 v hv)
    · simp only [Option.some.injEq, hcc, if_false]
      exact hsince

theorem inv_step {s s' : State} {a : Action} (h : Inv s) (hs : system.step s a = some s') :
    Inv s' := by
  obtain ⟨he, rfl⟩ := step_eq_some.mp hs
  cases a with
  | registry a => exact inv_registry h he.1
  | tick d =>
    exact ⟨h.latest, h.known, fun c v hv => Nat.le_add_right_of_le (h.storedBefore c v hv),
      fun t time ht => Nat.le_add_right_of_le (h.readBefore t time ht), h.busy, h.since⟩
  | readClock t c m i => exact inv_readClock h he
  | store t c m i => exact inv_store h he

/-- A store keeps the order exactly when its dispatcher was not overtaken. -/
theorem nonDecreasing_step {s s' : State} {a : Action} (h : Inv s) (hd : NonDecreasing s)
    (hs : system.step s a = some s') : NonDecreasing s' ↔ NotOvertaken s a := by
  obtain ⟨he, rfl⟩ := step_eq_some.mp hs
  cases a with
  | registry a =>
    have hstores : (registryStep s a).stores = s.stores := by cases a <;> rfl
    exact iff_of_true (fun c => by rw [next, hstores]; exact hd c) trivial
  | tick d => exact iff_of_true hd trivial
  | readClock t c m i => exact iff_of_true hd trivial
  | store t c m i =>
    obtain ⟨hpc, hreading⟩ := he
    obtain ⟨time, htime⟩ := Option.ne_none_iff_exists'.mp hreading
    obtain ⟨hstored, hsince⟩ := h.since t c time htime (by rw [dispatching, hpc])
    have hnew : (next s (.store t c m i)).stores = Function.update s.stores c (time :: s.stores c) := by
      simp only [next, htime, Option.getD_some]
    simp only [NotOvertaken, htime, Option.mem_some_iff, forall_eq']
    constructor
    · intro hd' v hv
      have hcons := hd' c
      rw [hnew, Function.update_self] at hcons
      exact (List.pairwise_cons.mp hcons).1 v (hsince v hv)
    · intro hnot c'
      rw [hnew, Function.update_apply]
      split_ifs
      · refine List.pairwise_cons.mpr ⟨fun v hv => ?_, hd c⟩
        exact (hstored v hv).elim id (hnot v)
      · exact hd c'

theorem keepsOthers (s : State) (a : Action) : KeepsOthers s a := by
  intro s' hs c hc
  obtain ⟨-, rfl⟩ := step_eq_some.mp hs
  cases a with
  | registry a => cases a <;> rfl
  | tick d => rfl
  | readClock t c' m i => rfl
  | store t c' m i =>
    have hne : c ≠ c' := fun heq => hc t m i (by rw [heq])
    exact Function.update_of_ne hne ..

theorem returnsLast_of_inv {s : State} (h : Inv s) : ReturnsLast s := by
  intro c
  unfold getLatestDeliveredTime
  split_ifs with hknown
  · exact h.latest c
  · cases hstores : s.stores c with
    | nil => rfl
    | cons v rest => exact absurd (h.known c (by simp [hstores])) hknown

/-- The values stored for every channel, which `GetLatestDeliveredTime` returns, never go back exactly
when no dispatcher is overtaken between its reading of the clock and its store. Dispatches on other
channels do not change them. -/
theorem delivered_time_never_back (clock : ℕ) (as : List Action) (s : State)
    (h : system.exec (initial clock) as = some s) :
    (system.StatesMeet NonDecreasing (initial clock) as ↔
      system.StepsMeet NotOvertaken (initial clock) as) ∧
    system.StatesMeet ReturnsLast (initial clock) as ∧
    system.StepsMeet KeepsOthers (initial clock) as := by
  refine ⟨?_, ?_, ?_⟩
  · exact TransitionSystem.statesMeet_iff_stepsMeet (fun _ _ _ h hs => inv_step h hs)
      (fun _ _ _ h hd hs => nonDecreasing_step h hd hs) (inv_initial clock)
      (fun c => List.Pairwise.nil) h
  · have hinv := TransitionSystem.statesMeet_of_invariant (inv_initial clock)
      (fun _ _ _ h hs => inv_step h hs) as
    exact hinv.mono fun _ h => returnsLast_of_inv h
  · exact TransitionSystem.stepsMeet_of_invariant (fun _ _ _ _ _ => trivial)
      (fun s a _ => keepsOthers s a) trivial as

def testChannel : ChannelId := ⟨1, 2⟩

/-- Two publishers on one channel with one subscriber, up to where they have walked over the list. -/
def publishing : List Action :=
  [.registry (.construct 0 true), .registry (.callSubscribe 1 0 testChannel ⟨5, none⟩),
    .registry (.lockSubscribe 1 0 testChannel ⟨5, none⟩),
    .registry (.subscribe 1 0 testChannel ⟨5, none⟩),
    .registry (.pushBack 1 0 testChannel ⟨5, none⟩),
    .registry (.emplace 1 0 testChannel ⟨5, none⟩), .registry (.unlockSubscribe 1 0),
    .registry (.publish 1 testChannel 8), .registry (.publish 2 testChannel 9),
    .registry (.lockDispatch 1 testChannel 8), .registry (.lockDispatch 2 testChannel 9),
    .registry (.addMessageToRunner 1 testChannel 8 0 0),
    .registry (.addMessageToRunner 2 testChannel 9 0 0)]

/-- The first publisher stores before the second one. -/
def inOrder : List Action :=
  publishing ++ [.readClock 1 testChannel 8 1, .tick 7, .readClock 2 testChannel 9 1,
    .store 1 testChannel 8 1, .store 2 testChannel 9 1]

theorem delivered_time_never_back_inOrder :
    ∃ s, system.exec (initial 5) inOrder = some s ∧ s.stores testChannel = [12, 5] ∧
      system.StatesMeet NonDecreasing (initial 5) inOrder :=
  ⟨_, rfl, rfl, (delivered_time_never_back 5 inOrder _ rfl).1.mpr (by decide)⟩

/-- The second publisher reads the clock later and stores first. -/
def overtaken : List Action :=
  publishing ++ [.readClock 1 testChannel 8 1, .tick 7, .readClock 2 testChannel 9 1,
    .store 2 testChannel 9 1, .store 1 testChannel 8 1]

theorem delivered_time_goes_back :
    ∃ s, system.exec (initial 5) overtaken = some s ∧ s.stores testChannel = [5, 12] ∧
      getLatestDeliveredTime s testChannel = 5 ∧
      ¬ system.StatesMeet NonDecreasing (initial 5) overtaken := by
  refine ⟨_, rfl, rfl, rfl, fun h => ?_⟩
  have hlast := h.last (t := system.after (initial 5) overtaken) rfl
  exact absurd (hlast testChannel) (by decide)

end CrisCore.DeliveredTime
