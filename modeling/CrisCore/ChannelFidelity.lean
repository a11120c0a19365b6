import CrisCore.SubscriptionLinks

/-! `Publish` writes the channel into the message object, and the dispatch reads it back from there:
once to find the list, and once more for each node. Then the callbacks wait in the runners. While the
object keeps its channel, the dispatch is that of the registry. -/
namespace CrisCore.ChannelFidelity
open SubscriptionRegistry (ThreadId NodeId MessageId ChannelId SubscriptionInfo)

/-- A job that will invoke a callback with a message; `channel` is the one the callback was found
for. -/
structure Delivery where
  node : NodeId
  channel : ChannelId
  info : SubscriptionInfo
  message : MessageId
  deriving DecidableEq

/-- The registry's own history of whom a dispatch has handed the message is for messages that keep
their channel; `handed` is what really was handed. -/
structure State where
  registry : SubscriptionRegistry.State
  /-- `sub_id_` of each message object. -/
  subId : MessageId → ℕ
  /-- The message of a thread that is in `Publish` and has not taken the lock. -/
  publishing : ThreadId → Option MessageId
  deliveries : List Delivery
  /-- History: whom each thread's dispatch has handed the message, with which callback. -/
  handed : ThreadId → List (NodeId × SubscriptionInfo)

/-- A message has `kDefaultChannelSubID` until it is published. -/
def initial : State where
  registry := SubscriptionRegistry.initial
  subId := fun _ => 0
  publishing := fun _ => none
  deliveries := []
  handed := fun _ => []

inductive Action
  | registry (a : SubscriptionRegistry.Action)
  | publish (t : ThreadId) (subId : ℕ) (m : MessageId)
  | lockDispatch (t : ThreadId) (c : ChannelId) (m : MessageId)
  | addMessageToRunner (t : ThreadId) (c : ChannelId) (m : MessageId) (i : ℕ) (n : NodeId)
  /-- A worker invokes the callback of a delivery, in any order. -/
  | invoke (k : ℕ)
  /-- A delivery is refused by its runner or destroyed with it. -/
  | discard (k : ℕ)
  deriving DecidableEq

variable (typeIndex : MessageId → ℕ)

/-- `GetChannelId` -/
def channelId (s : State) (m : MessageId) : ChannelId := ⟨typeIndex m, s.subId m⟩

/-- The steps that are the registry's alone. -/
def Allowed (s : State) : SubscriptionRegistry.Action → Prop
  | .publish .. | .lockDispatch .. | .addMessageToRunner .. => False
  | .callSubscribe t _ _ _ | .destroy t _ => s.publishing t = none
  | _ => True

instance (s : State) : (a : SubscriptionRegistry.Action) → Decidable (Allowed s a)
  | .publish .. | .lockDispatch .. | .addMessageToRunner .. => .isFalse id
  | .callSubscribe t _ _ _ | .destroy t _ => inferInstanceAs (Decidable (s.publishing t = none))
  | .construct .. | .lockSubscribe .. | .subscribe .. | .pushBack .. | .emplace ..
  | .unlockSubscribe .. | .unlockDispatch .. | .lockUnsubscribe .. | .erase ..
  | .unlockUnsubscribe .. | .endDestroy .. => .isTrue trivial

def Enabled (s : State) : Action → Prop
  | .registry a => Allowed s a ∧ SubscriptionRegistry.Enabled s.registry a
  | .publish t _ _ => s.registry.pc t = .idle ∧ s.publishing t = none
  | .lockDispatch t c m =>
    (s.publishing t = some m ∧ c = channelId typeIndex s m) ∧
      s.registry.pc t = .idle ∧ s.registry.exclusive = none
  | .addMessageToRunner t c m i n =>
    SubscriptionRegistry.Enabled s.registry (.addMessageToRunner t c m i n)
  | .invoke k | .discard k => k < s.deliveries.length

instance (s : State) : (a : Action) → Decidable (Enabled typeIndex s a)
  | .registry _ | .publish .. | .lockDispatch .. => inferInstanceAs (Decidable (_ ∧ _))
  | .addMessageToRunner t c m i n =>
    inferInstanceAs (Decidable (SubscriptionRegistry.Enabled s.registry
      (.addMessageToRunner t c m i n)))
  | .invoke _ | .discard _ => inferInstanceAs (Decidable (_ < _))

/-- `GetSubscriptionInfo` looks for the channel that the message has now, which need not be the one
of the list. -/
def getSubscriptionInfo (s : State) (n : NodeId) (m : MessageId) : Option SubscriptionInfo :=
  (s.registry.node n).callbacks (channelId typeIndex s m)

def next (s : State) : Action → State
  | .registry a => { s with registry := SubscriptionRegistry.next s.registry a }
  | .publish t subId m =>
    { s with
      subId := Function.update s.subId m subId
      publishing := Function.update s.publishing t (some m) }
  | .lockDispatch t c m =>
    { s with
      registry := SubscriptionRegistry.next (SubscriptionRegistry.next s.registry (.publish t c m))
        (.lockDispatch t c m)
      publishing := Function.update s.publishing t none
      handed := Function.update s.handed t [] }
  | .addMessageToRunner t c m i n =>
    let s' := { s with registry := SubscriptionRegistry.next s.registry (.addMessageToRunner t c m i n) }
    match getSubscriptionInfo typeIndex s n m with
    | none => s'
    | some info =>
      { s' with
        deliveries := s.deliveries ++ [⟨n, channelId typeIndex s m, info, m⟩]
        handed := Function.update s.handed t (s.handed t ++ [(n, info)]) }
  | .invoke k | .discard k => { s with deliveries := s.deliveries.eraseIdx k }

def system : TransitionSystem State Action where
  init s := s = initial
  step s a := if Enabled typeIndex s a then some (next typeIndex s a) else none

/-- A callback is invoked with a message of its channel, and a node that a dispatch comes to has a
callback for the message. -/
def Faithful (s : State) : Action → Prop
  | .invoke k => ∀ d ∈ s.deliveries[k]?, channelId typeIndex s d.message = d.channel
  | .addMessageToRunner t c m i n =>
    SubscriptionRegistry.Enabled s.registry (.addMessageToRunner t c m i n) →
      getSubscriptionInfo typeIndex s n m ≠ none
  | _ => True

instance (s : State) : (a : Action) → Decidable (Faithful typeIndex s a)
  | .invoke k => inferInstanceAs (Decidable (∀ d ∈ s.deliveries[k]?, _))
  | .addMessageToRunner .. => inferInstanceAs (Decidable (_ → _ ≠ none))
  | .registry _ | .publish .. | .lockDispatch .. | .discard _ => .isTrue trivial

/-- The thread walks over a list to dispatch the message. -/
def Walks (r : SubscriptionRegistry.State) (t : ThreadId) (m : MessageId) : Prop :=
  match r.pc t with
  | .walk _ m' _ => m' = m
  | _ => False

instance (r : SubscriptionRegistry.State) (t : ThreadId) (m : MessageId) : Decidable (Walks r t m) := by
  unfold Walks
  split <;> infer_instance

/-- A message is published on another channel only when no dispatch of it is under way. -/
def Undisturbed (s : State) : Action → Prop
  | .publish _ subId m =>
    s.subId m = subId ∨ ∀ t ∈ s.registry.readers, ¬ Walks s.registry t m
  | _ => True

instance (s : State) : (a : Action) → Decidable (Undisturbed s a)
  | .publish .. => inferInstanceAs (Decidable (_ ∨ _))
  | .registry _ | .lockDispatch .. | .addMessageToRunner .. | .invoke _ | .discard _ =>
    .isTrue trivial

/-- A message is published on another channel only when no dispatch of it is under way and no
callback waits to be invoked with it. -/
def Unshared (s : State) : Action → Prop
  | .publish _ subId m =>
    s.subId m = subId ∨
      ((∀ t ∈ s.registry.readers, ¬ Walks s.registry t m) ∧ ∀ d ∈ s.deliveries, d.message ≠ m)
  | _ => True

instance (s : State) : (a : Action) → Decidable (Unshared s a)
  | .publish .. => inferInstanceAs (Decidable (_ ∨ _))
  | .registry _ | .lockDispatch .. | .addMessageToRunner .. | .invoke _ | .discard _ =>
    .isTrue trivial

theorem step_eq_some {s s' : State} {a : Action} :
    (system typeIndex).step s a = some s' ↔ Enabled typeIndex s a ∧ next typeIndex s a = s' := by
  change (if Enabled typeIndex s a then some (next typeIndex s a) else none) = some s' ↔ _
  split_ifs with h <;> simp [h]

theorem Unshared.undisturbed {s : State} {a : Action} (h : Unshared s a) : Undisturbed s a := by
  cases a with
  | publish t subId m => exact h.imp_right And.left
  | _ => trivial

/-- The messages that are dispatched have the channels over whose lists the threads walk, and the
registry's history is right about them. -/
structure Walking (s : State) : Prop where
  registry : SubscriptionRegistry.Inv s.registry
  channel : ∀ t c m i, s.registry.pc t = .walk c m i → c = channelId typeIndex s m
  handed : s.handed = s.registry.handed

/-- And so have those that wait for their callbacks. -/
structure Inv (s : State) : Prop extends Walking typeIndex s where
  waiting : ∀ d ∈ s.deliveries, channelId typeIndex s d.message = d.channel

theorem inv_initial : Inv typeIndex initial where
  registry := SubscriptionRegistry.reachable_inv (.init rfl)
  channel _ _ _ _ h := nomatch h
  handed := rfl
  waiting _ h := nomatch h

variable {typeIndex}

/-- The registry takes the channel id and then the lock. -/
theorem enabled_lockDispatch {s : State} {t : ThreadId} {c : ChannelId} {m : MessageId}
    (he : Enabled typeIndex s (.lockDispatch t c m)) :
    SubscriptionRegistry.Enabled (SubscriptionRegistry.next s.registry (.publish t c m))
      (.lockDispatch t c m) :=
  ⟨Function.update_self .., he.2.2⟩

/-- What the registry keeps, it keeps whatever is published. -/
theorem registry_step {s s' : State} {a : Action} (h : SubscriptionRegistry.Inv s.registry)
    (hs : (system typeIndex).step s a = some s') : SubscriptionRegistry.Inv s'.registry := by
  obtain ⟨he, rfl⟩ := (step_eq_some typeIndex).mp hs
  cases a with
  | registry a => exact SubscriptionRegistry.inv_step he.2 h
  | publish t subId m => exact h
  | lockDispatch t c m =>
    exact SubscriptionRegistry.inv_step (enabled_lockDispatch he)
      (SubscriptionRegistry.inv_step (a := .publish t c m) he.2.1 h)
  | addMessageToRunner t c m i n =>
    have hnext := SubscriptionRegistry.inv_step (a := .addMessageToRunner t c m i n) he h
    simp only [next]
    split <;> exact hnext
  | invoke k | discard k => exact h

/-- Whom a dispatch hands the message, whatever channel the object has by then, is one of those that
it comes to. -/
def HandsListed (s : State) : Prop :=
  ∀ t, ((s.handed t).map Prod.fst).Sublist ((s.registry.handed t).map Prod.fst)

theorem handsListed_addMessageToRunner {s : State} {t : ThreadId} {c : ChannelId} {m : MessageId}
    {i : ℕ} {n : NodeId} (h : HandsListed s) (hr : SubscriptionRegistry.Inv s.registry)
    (he : SubscriptionRegistry.Enabled s.registry (.addMessageToRunner t c m i n)) :
    HandsListed (next typeIndex s (.addMessageToRunner t c m i n)) := by
  -- the node has a callback for the channel of the list, so the registry counts it
  obtain ⟨info, hcall⟩ := Option.isSome_iff_exists.mp
    ((SubscriptionRegistry.dispatch_so_far hr he.1).2.2.1 n he.2).2
  have hhanded : (SubscriptionRegistry.next s.registry (.addMessageToRunner t c m i n)).handed =
      Function.update s.registry.handed t (s.registry.handed t ++ [(n, info)]) := by
    simp only [SubscriptionRegistry.next, SubscriptionRegistry.addMessageToRunner, hcall]
    rfl
  intro u
  by_cases hut : u = t
  · subst hut
    simp only [next]
    split
    · simp only [hhanded, Function.update_self, List.map_append]
      exact (h u).trans (List.sublist_append_left _ _)
    · simp only [hhanded, Function.update_self, List.map_append]
      exact (h u).append (List.Sublist.refl _)
  · simp only [next]
    split
    · simpa only [hhanded, Function.update_of_ne hut] using h u
    · simpa only [hhanded, Function.update_of_ne hut] using h u

theorem handsListed_step {s s' : State} {a : Action} (hr : SubscriptionRegistry.Inv s.registry)
    (h : HandsListed s) (hs : (system typeIndex).step s a = some s') : HandsListed s' := by
  obtain ⟨he, rfl⟩ := (step_eq_some typeIndex).mp hs
  cases a with
  | registry a =>
    have hsame := SubscriptionRegistry.handed_next (s := s.registry) (a := a)
      (fun t c m ha => by subst ha; exact he.1.elim)
      (fun t c m i n ha => by subst ha; exact he.1.elim)
    intro t
    simp only [next, hsame]
    exact h t
  | publish t subId m => exact h
  | lockDispatch t c m =>
    intro u
    simp only [next, SubscriptionRegistry.next, SubscriptionRegistry.State.setPc]
    by_cases hut : u = t
    · subst hut
      simp
    · simpa only [Function.update_of_ne hut] using h u
  | addMessageToRunner t c m i n => exact handsListed_addMessageToRunner h hr he
  | invoke k | discard k => exact h

theorem channelId_publish {s : State} {t : ThreadId} {subId : ℕ} {m m' : MessageId}
    (hm : m' = m → s.subId m = subId) :
    channelId typeIndex (next typeIndex s (.publish t subId m)) m' = channelId typeIndex s m' := by
  simp only [channelId, next, Function.update_apply]
  split_ifs with heq
  · rw [heq, hm heq]
  · rfl

/-- A message that nobody dispatches may get another channel. -/
theorem walking_publish {s : State} {t : ThreadId} {subId : ℕ} {m : MessageId}
    (h : Walking typeIndex s) (hc : Undisturbed s (.publish t subId m)) :
    Walking typeIndex (next typeIndex s (.publish t subId m)) := by
  refine ⟨h.registry, fun t' c m' i (hp : s.registry.pc t' = .walk c m' i) => ?_, h.handed⟩
  rw [channelId_publish fun heq => ?_]
  · exact h.channel t' c m' i hp
  · refine hc.resolve_right fun hwalk => ?_
    -- a thread that walks holds the lock
    have hreads : t' ∈ s.registry.readers := (h.registry.lock.readers t').mpr (by rw [hp]; rfl)
    refine hwalk t' hreads ?_
    rw [Walks, hp]
    exact heq

theorem walking_lockDispatch {s : State} {t : ThreadId} {c : ChannelId} {m : MessageId}
    (h : Walking typeIndex s) (he : Enabled typeIndex s (.lockDispatch t c m))
    (hr : SubscriptionRegistry.Inv (next typeIndex s (.lockDispatch t c m)).registry) :
    Walking typeIndex (next typeIndex s (.lockDispatch t c m)) := by
  have hlock := enabled_lockDispatch he
  obtain ⟨⟨-, hchannel⟩, hidle, -⟩ := he
  refine ⟨hr, fun t' c' m' i hp => ?_, ?_⟩
  · rcases SubscriptionRegistry.walk_of_walk_next hlock hp with ⟨k, hk⟩ | heq
    · rcases SubscriptionRegistry.walk_of_walk_next (a := .publish t c m) hidle hk with
        ⟨k', hk'⟩ | heq
      · exact h.channel t' c' m' k' hk'
      · cases heq
    · -- this thread begins to walk, for the channel that the message has
      cases heq
      exact hchannel
  · simp only [next, h.handed]
    rfl

/-- While the message has the channel of the walk, the node's callback is that of the list. -/
theorem walking_addMessageToRunner {s : State} {t : ThreadId} {c : ChannelId} {m : MessageId} {i : ℕ}
    {n : NodeId} (h : Walking typeIndex s)
    (he : SubscriptionRegistry.Enabled s.registry (.addMessageToRunner t c m i n)) :
    Walking typeIndex (next typeIndex s (.addMessageToRunner t c m i n)) := by
  have hregistry : SubscriptionRegistry.Inv
      (SubscriptionRegistry.next s.registry (.addMessageToRunner t c m i n)) :=
    SubscriptionRegistry.inv_step he h.registry
  have hchannel (t' : ThreadId) (c' : ChannelId) (m' : MessageId) (k : ℕ)
      (hp : (SubscriptionRegistry.next s.registry (.addMessageToRunner t c m i n)).pc t' =
        .walk c' m' k) : c' = channelId typeIndex s m' := by
    rcases SubscriptionRegistry.walk_of_walk_next he hp with ⟨k', hk⟩ | heq
    · exact h.channel t' c' m' k' hk
    · cases heq
  have hinfo : getSubscriptionInfo typeIndex s n m = (s.registry.node n).callbacks c := by
    rw [getSubscriptionInfo, ← h.channel t c m i he.1]
  unfold next
  simp only [hinfo]
  cases hcall : (s.registry.node n).callbacks c with
  | none =>
    refine ⟨hregistry, hchannel, h.handed.trans ?_⟩
    simp only [SubscriptionRegistry.next, SubscriptionRegistry.addMessageToRunner, hcall]
    rfl
  | some info =>
    refine ⟨hregistry, hchannel, ?_⟩
    simp only [SubscriptionRegistry.next, SubscriptionRegistry.addMessageToRunner, hcall, h.handed]
    rfl

theorem walking_step {s s' : State} {a : Action} (h : Walking typeIndex s) (hc : Undisturbed s a)
    (hs : (system typeIndex).step s a = some s') : Walking typeIndex s' := by
  have hr := registry_step h.registry hs
  obtain ⟨he, rfl⟩ := (step_eq_some typeIndex).mp hs
  cases a with
  | registry a =>
    refine ⟨hr, fun t c m i hp => ?_, ?_⟩
    · rcases SubscriptionRegistry.walk_of_walk_next he.2 hp with ⟨k, hk⟩ | rfl
      · exact h.channel t c m k hk
      · exact he.1.elim
    · have hsame := SubscriptionRegistry.handed_next (s := s.registry) (a := a)
        (fun t c m ha => by subst ha; exact he.1.elim)
        (fun t c m i n ha => by subst ha; exact he.1.elim)
      exact h.handed.trans hsame.symm
  | publish t subId m => exact walking_publish h hc
  | lockDispatch t c m => exact walking_lockDispatch h he hr
  | addMessageToRunner t c m i n => exact walking_addMessageToRunner h he
  | invoke k | discard k => exact ⟨h.registry, h.channel, h.handed⟩

/-- A message that waits for no callback either may get another channel. -/
theorem waiting_publish {s : State} {t : ThreadId} {subId : ℕ} {m : MessageId} (h : Inv typeIndex s)
    (hc : Unshared s (.publish t subId m)) {d : Delivery} (hd : d ∈ s.deliveries) :
    channelId typeIndex (next typeIndex s (.publish t subId m)) d.message = d.channel := by
  rw [channelId_publish fun heq => ?_]
  · exact h.waiting d hd
  · exact hc.resolve_right fun hnone => hnone.2 d hd heq

theorem inv_step {s s' : State} {a : Action} (h : Inv typeIndex s) (hc : Unshared s a)
    (hs : (system typeIndex).step s a = some s') : Inv typeIndex s' := by
  refine { walking_step h.toWalking hc.undisturbed hs with waiting := ?_ }
  obtain ⟨he, rfl⟩ := (step_eq_some typeIndex).mp hs
  cases a with
  | registry a => exact h.waiting
  | publish t subId m => exact fun d hd => waiting_publish h hc hd
  | lockDispatch t c m => exact h.waiting
  | addMessageToRunner t c m i n =>
    unfold next
    simp only
    split
    · -- the node has no callback for it
      exact h.waiting
    · intro d hd
      rcases List.mem_append.mp hd with hd | hd
      · exact h.waiting d hd
      · rw [List.mem_singleton.mp hd]
        rfl
  | invoke k | discard k => exact fun d hd => h.waiting d (List.mem_of_mem_eraseIdx hd)

theorem faithful_of_inv {s : State} (h : Inv typeIndex s) (a : Action) : Faithful typeIndex s a := by
  cases a with
  | invoke k => exact fun d hd => h.waiting d (List.mem_of_getElem? hd)
  | addMessageToRunner t c m i n =>
    rintro ⟨hpc, hn⟩
    have hcall := ((SubscriptionRegistry.dispatch_so_far h.registry hpc).2.2.1 n hn).2
    rw [h.channel t c m i hpc] at hcall
    exact Option.isSome_iff_ne_none.mp hcall
  | _ => trivial

/-- In every state in which nobody holds the mutex exclusively, a node that is not being destroyed
is in the list of a channel exactly when `subscribed_` has the channel, once, and `callbacks_` has
the callback of the first subscription; one that is being destroyed, exactly when `~CRNode` has
not come to the channel; an address without a node is in no list. A dispatch hands the message to
nodes that were subscribed when it took the lock, to each at most once, and none of them has
completed `~CRNode`. While no message gets another channel under its dispatch, it hands the message
to each of them, with the callback of the node's first subscription. -/
theorem subscription_registry {as : List Action} {s : State}
    (h : (system typeIndex).exec initial as = some s) :
    (s.registry.exclusive = none → ∀ n c,
      (s.registry.subList c).count n ≤ 1 ∧
      ((s.registry.node n).life = .alive →
        (n ∈ s.registry.subList c ↔ (s.registry.node n).subscribed.count c = 1) ∧
        (n ∈ s.registry.subList c ↔ ((s.registry.node n).callbacks c).isSome = true) ∧
        (s.registry.node n).callbacks c = (s.registry.node n).requests.lookup c) ∧
      (∀ erased, (s.registry.node n).life = .destroying erased →
        (n ∈ s.registry.subList c ↔ c ∈ (s.registry.node n).subscribed.drop erased)) ∧
      ((s.registry.node n).life = .absent → n ∉ s.registry.subList c)) ∧
    (∀ t c m s', (system typeIndex).step s (.lockDispatch t c m) = some s' →
      c = channelId typeIndex s m ∧ s'.handed t = [] ∧
        ∀ n, s'.registry.subscribers t n = true ↔ n ∈ s.registry.subList c) ∧
    (∀ t c m k, s.registry.pc t = .walk c m k → ((s.handed t).map Prod.fst).Nodup ∧
      ∀ n ∈ (s.handed t).map Prod.fst,
        s.registry.subscribers t n = true ∧ (s.registry.node n).life ≠ .absent) ∧
    ((system typeIndex).StepsMeet Undisturbed initial as →
      ∀ t c m k, s.registry.pc t = .walk c m k → c = channelId typeIndex s m ∧
        (∀ p ∈ s.handed t, (s.registry.node p.1).requests.lookup c = some p.2) ∧
        (∀ n, (s.registry.subList c)[k]? = some n →
          (getSubscriptionInfo typeIndex s n m).isSome = true) ∧
        ((s.registry.subList c).length ≤ k →
          ∀ n, n ∈ (s.handed t).map Prod.fst ↔ s.registry.subscribers t n = true)) := by
  obtain ⟨hr, hlisted⟩ : SubscriptionRegistry.Inv s.registry ∧ HandsListed s :=
    TransitionSystem.exec_induction
      (P := fun s => SubscriptionRegistry.Inv s.registry ∧ HandsListed s)
      ⟨(inv_initial typeIndex).registry, fun _ => List.Sublist.refl _⟩
      (fun _ _ _ hu hv => ⟨registry_step hu.1 hv, handsListed_step hu.1 hu.2 hv⟩) h
  refine ⟨fun hx n c => SubscriptionRegistry.subscription_copies_of_life hr hx n c, ?_, ?_, ?_⟩
  · intro t c m s' hst
    obtain ⟨⟨⟨-, hchannel⟩, hidle, hfree⟩, rfl⟩ := (step_eq_some typeIndex).mp hst
    have hpublish := SubscriptionRegistry.inv_step (a := .publish t c m) hidle hr
    refine ⟨hchannel, Function.update_self .., fun n => ?_⟩
    exact SubscriptionRegistry.subscribers_of_lockDispatch (m := m) hpublish hfree n
  · intro t c m k hp
    obtain ⟨hnodup, hgiven, -⟩ := SubscriptionRegistry.dispatch_so_far hr hp
    refine ⟨hnodup.sublist (hlisted t), fun n hn => ?_⟩
    obtain ⟨p, hmem, rfl⟩ := List.mem_map.mp ((hlisted t).subset hn)
    exact ⟨(hgiven p hmem).1, (hgiven p hmem).2.1⟩
  · intro hc t c m k hp
    have hw : Walking typeIndex s := hc.invariant (inv_initial typeIndex).toWalking
      (fun _ _ _ hu hc hv => walking_step hu hc hv) h
    have hchannel := hw.channel t c m k hp
    obtain ⟨-, hgiven, hnext, hall⟩ := SubscriptionRegistry.dispatch_so_far hr hp
    refine ⟨hchannel, ?_⟩
    simp only [hw.handed, getSubscriptionInfo, ← hchannel]
    exact ⟨fun p hmem => (hgiven p hmem).2.2, fun n hn => (hnext n hn).2, hall⟩

open SubscriptionRegistry (testChannel otherChannel)

def subscribing (n : NodeId) (c : ChannelId) : List Action :=
  [.registry (.construct n true), .registry (.callSubscribe 1 n c ⟨n, none⟩),
    .registry (.lockSubscribe 1 n c ⟨n, none⟩), .registry (.subscribe 1 n c ⟨n, none⟩),
    .registry (.pushBack 1 n c ⟨n, none⟩), .registry (.emplace 1 n c ⟨n, none⟩),
    .registry (.unlockSubscribe 1 n)]

/-- Node 0 subscribes to two channels, to the first of them twice, and is handed a message. -/
def handingRun : List Action :=
  subscribing 0 testChannel ++
    [.registry (.callSubscribe 1 0 testChannel ⟨8, none⟩),
      .registry (.lockSubscribe 1 0 testChannel ⟨8, none⟩),
      .registry (.subscribe 1 0 testChannel ⟨8, none⟩), .registry (.unlockSubscribe 1 0),
      .registry (.callSubscribe 1 0 otherChannel ⟨9, none⟩),
      .registry (.lockSubscribe 1 0 otherChannel ⟨9, none⟩),
      .registry (.subscribe 1 0 otherChannel ⟨9, none⟩),
      .registry (.pushBack 1 0 otherChannel ⟨9, none⟩),
      .registry (.emplace 1 0 otherChannel ⟨9, none⟩), .registry (.unlockSubscribe 1 0),
      .publish 2 2 8, .lockDispatch 2 testChannel 8, .addMessageToRunner 2 testChannel 8 0 0]

/-- Then `~CRNode` unsubscribes the first channel and gives the lock back. -/
def destroyingRun : List Action :=
  handingRun ++
    [.registry (.unlockDispatch 2 testChannel 8 1), .registry (.destroy 1 0),
      .registry (.lockUnsubscribe 1 0), .registry (.erase 1 0 testChannel),
      .registry (.unlockUnsubscribe 1 0)]

theorem subscription_registry_destroyingRun :
    (0 ∉ ((system fun _ => 1).after initial destroyingRun).registry.subList testChannel ∧
      0 ∈ ((system fun _ => 1).after initial destroyingRun).registry.subList otherChannel) ∧
    (0 ∈ (((system fun _ => 1).after initial handingRun).handed 2).map Prod.fst ↔
      ((system fun _ => 1).after initial handingRun).registry.subscribers 2 0 = true) := by
  have hrun : (system fun _ => 1).exec initial destroyingRun = some _ :=
    TransitionSystem.exec_after _ (by decide)
  have h := (subscription_registry hrun).1 (by decide) 0
  have h1 := (h testChannel).2.2.1 1 (by decide)
  have h2 := (h otherChannel).2.2.1 1 (by decide)
  have hhanding : (system fun _ => 1).exec initial handingRun = some _ :=
    TransitionSystem.exec_after _ (by decide)
  have hd := (subscription_registry hhanding).2.2.2 (by decide) 2 testChannel 8 1 (by decide)
  exact ⟨⟨h1.not.mpr (by decide), h2.mpr (by decide)⟩, hd.2.2.2 (by decide) 0⟩

/-- The first node's callback publishes the message it was given on another channel, before the
dispatch comes to the second node. -/
def republishedEarly : List Action :=
  subscribing 0 testChannel ++ subscribing 4 testChannel ++
    [.publish 2 2 8, .lockDispatch 2 testChannel 8, .addMessageToRunner 2 testChannel 8 0 0,
      .invoke 0, .publish 3 3 8, .addMessageToRunner 2 testChannel 8 1 4]

/-- With nobody holding the mutex, a node in its destructor has left a list while `subscribed_`
and `callbacks_` still have the channel; and a dispatch misses a node when the message gets another
channel meanwhile. -/
theorem node_leaves_list_first :
    (¬ ∀ as s, (system fun _ => 1).exec initial as = some s → s.registry.exclusive = none →
      ∀ n c, (n ∈ s.registry.subList c ↔ ((s.registry.node n).subscribed.count c = 1 ∧
        ((s.registry.node n).callbacks c).isSome = true))) ∧
    ¬ ∀ as s, (system fun _ => 1).exec initial as = some s → ∀ t c m k,
      s.registry.pc t = .walk c m k → (s.registry.subList c).length ≤ k →
        ∀ n, s.registry.subscribers t n = true → n ∈ (s.handed t).map Prod.fst := by
  constructor
  · intro h
    have hnode := h destroyingRun _ (TransitionSystem.exec_after _ (by decide)) (by decide) 0
      testChannel
    exact absurd (hnode.mpr (by decide)) (by decide)
  · intro h
    have hmissed := h republishedEarly _ (TransitionSystem.exec_after _ (by decide)) 2 testChannel 8
      2 (by decide) (by decide) 4 (by decide)
    exact absurd hmissed (by decide)

variable (typeIndex)

/-- When no message gets another channel while it is under way, every callback is invoked with
messages of its channel only, and every node in a list has a callback for the message. -/
theorem channel_fidelity (as : List Action) (hc : (system typeIndex).StepsMeet Unshared initial as) :
    (system typeIndex).StepsMeet (Faithful typeIndex) initial as :=
  hc.imp_of_kept (inv_initial typeIndex) (fun _ _ _ h hc hs => inv_step h hc hs)
    fun _ a h _ => faithful_of_inv h a

/-- A message of type 1 is published with one subid and, when both nodes have processed it, with
another. -/
def republishedLater : List Action :=
  subscribing 0 testChannel ++ subscribing 4 testChannel ++
    [.publish 2 2 8, .lockDispatch 2 testChannel 8, .addMessageToRunner 2 testChannel 8 0 0,
      .addMessageToRunner 2 testChannel 8 1 4, .registry (.unlockDispatch 2 testChannel 8 2),
      .invoke 0, .invoke 0, .publish 3 3 8, .lockDispatch 3 otherChannel 8,
      .registry (.unlockDispatch 3 otherChannel 8 0)]

theorem channel_fidelity_republishedLater :
    ((system fun _ => 1).exec initial republishedLater).isSome = true ∧
      (system fun _ => 1).StepsMeet (Faithful fun _ => 1) initial republishedLater :=
  ⟨by decide, channel_fidelity (fun _ => 1) republishedLater (by decide)⟩

/-- The first node's callback does so while the second node's callback waits for the message. -/
def republished : List Action :=
  subscribing 0 testChannel ++ subscribing 4 testChannel ++
    [.publish 2 2 8, .lockDispatch 2 testChannel 8, .addMessageToRunner 2 testChannel 8 0 0,
      .addMessageToRunner 2 testChannel 8 1 4, .registry (.unlockDispatch 2 testChannel 8 2),
      .invoke 0, .publish 3 3 8, .invoke 0]

/-- The second node's callback is invoked with a message of another channel, or not found. -/
theorem republished_message_misdelivered :
    (((system fun _ => 1).exec initial republished).isSome = true ∧
      ¬ (system fun _ => 1).StepsMeet (Faithful fun _ => 1) initial republished) ∧
    (((system fun _ => 1).exec initial republishedEarly).map fun s => s.deliveries.length) = some 0 ∧
      ¬ (system fun _ => 1).StepsMeet (Faithful fun _ => 1) initial republishedEarly := by
  refine ⟨⟨?_, ?_⟩, ?_, ?_⟩ <;> decide

end CrisCore.ChannelFidelity
