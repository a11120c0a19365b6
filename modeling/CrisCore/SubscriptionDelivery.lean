import CrisCore.StrandStarts
import CrisCore.SubscriptionLinks

/-! One node's subscription to one channel through a strand: the publishers that dispatch to it,
the strand its messages are added to, and the callbacks the workers start. -/
namespace CrisCore.SubscriptionDelivery
open SubscriptionRegistry (ThreadId NodeId MessageId ChannelId SubscriptionInfo)
open Strand (JobId)

/-- The node, its channel, and the strand it subscribes with. -/
structure Subscription where
  node : NodeId
  channel : ChannelId
  strand : ℕ

structure State where
  registry : SubscriptionRegistry.State
  /-- The strand, with `true` as the answer of every lock of the runner. -/
  strand : Strand.State
  /-- The last call of the strand's `AddJob` that a dispatching thread has made. -/
  adding : ThreadId → Option JobId
  /-- History: the publisher and the message that a job of the strand hands to the callback. -/
  message : JobId → Option (ThreadId × MessageId)
  /-- The messages a thread published on the channel, in the order in which it took the lock, and
  how many of them it published before the subscription. -/
  published : ThreadId → List MessageId
  missed : ThreadId → ℕ
  /-- The jobs of the strand that workers have started. -/
  started : List JobId

def initial : State where
  registry := SubscriptionRegistry.initial
  strand := Strand.initial
  adding := fun _ => none
  message := fun _ => none
  published := fun _ => []
  missed := fun _ => 0
  started := []

inductive Action
  | registry (a : SubscriptionRegistry.Action)
  /-- `AddMessageToRunner` for a subscription with the strand calls `AddJob` of the strand. -/
  | addToStrand (t : ThreadId) (c : ChannelId) (m : MessageId) (i : ℕ) (n : NodeId) (j : JobId)
  | strand (e : Strand.Action)
  deriving DecidableEq

namespace State

/-- The thread is inside the call of `AddJob` it has made for a node. -/
def busy (s : State) (t : ThreadId) : Bool :=
  match s.adding t with
  | none => false
  | some j =>
    match s.strand.pc (.addJob, j) with
    | .returned _ => false
    | _ => true

/-- The messages of a thread that a list of jobs hands to the callback. -/
def messagesOf (s : State) (t : ThreadId) (jobs : List JobId) : List MessageId :=
  jobs.filterMap fun j =>
    match s.message j with
    | some (u, m) => if u = t then some m else none
    | none => none

/-- The messages of a thread that the callback has been invoked with. -/
def processed (s : State) (t : ThreadId) : List MessageId := s.messagesOf t s.started

end State

variable (sub : Subscription)

/-- The first `Subscribe` of the node for the channel gets hold of the list. -/
def subscribes (r : SubscriptionRegistry.State) : SubscriptionRegistry.Action → Bool
  | .subscribe _ n c _ => n = sub.node && c = sub.channel && !(sub.node ∈ r.subList sub.channel)
  | _ => false

/-- What a publisher adds to its sequence on the channel when it takes the lock. -/
def publishes (t : ThreadId) : SubscriptionRegistry.Action → List MessageId
  | .lockDispatch u c m => if u = t ∧ c = sub.channel then [m] else []
  | _ => []

/-- The registry's steps: the node is not destroyed, its first subscription for the channel comes
with the strand, and a thread waits for the `AddJob` it has called. -/
def Allowed (s : State) : SubscriptionRegistry.Action → Prop
  | .destroy _ n => n ≠ sub.node
  | .subscribe t n c info =>
    subscribes sub s.registry (.subscribe t n c info) = true → info.strand = some sub.strand
  | .addMessageToRunner t c _ _ n =>
    s.busy t = false ∧
      ∀ info ∈ (s.registry.node n).callbacks c, info.strand ≠ some sub.strand
  | .unlockDispatch t _ _ _ => s.busy t = false
  | _ => True

instance (s : State) : (a : SubscriptionRegistry.Action) → Decidable (Allowed sub s a)
  | .destroy _ _ => inferInstanceAs (Decidable (_ ≠ _))
  | .subscribe _ _ _ _ => inferInstanceAs (Decidable (_ → _))
  | .addMessageToRunner _ _ _ _ _ => inferInstanceAs (Decidable (_ ∧ _))
  | .unlockDispatch _ _ _ _ => inferInstanceAs (Decidable (_ = _))
  | .construct _ _ | .callSubscribe _ _ _ _ | .lockSubscribe _ _ _ _ | .pushBack _ _ _ _
  | .emplace _ _ _ _ | .unlockSubscribe _ _ | .publish _ _ _ | .lockDispatch _ _ _
  | .lockUnsubscribe _ _ | .erase _ _ _ | .unlockUnsubscribe _ _ | .endDestroy _ _ =>
    inferInstanceAs (Decidable True)

def Enabled (s : State) : Action → Prop
  | .registry a => Allowed sub s a ∧ SubscriptionRegistry.Enabled s.registry a
  | .addToStrand t c m i n j =>
    (s.busy t = false ∧ ∃ info ∈ (s.registry.node n).callbacks c, info.strand = some sub.strand) ∧
      SubscriptionRegistry.Enabled s.registry (.addMessageToRunner t c m i n) ∧
      Strand.Enabled s.strand (.call j .enqueue)
  -- the subscription holds the strand, and the runner is alive
  | .strand e => (e ≠ .expireStrand ∧ e ≠ .expireRunner) ∧ Strand.Enabled s.strand e

instance (s : State) : (a : Action) → Decidable (Enabled sub s a)
  | .registry _ | .addToStrand _ _ _ _ _ _ | .strand _ => inferInstanceAs (Decidable (_ ∧ _))

def next (s : State) : Action → State
  | .registry a =>
    { s with
      registry := SubscriptionRegistry.next s.registry a
      published := fun t => s.published t ++ publishes sub t a
      missed := if subscribes sub s.registry a then fun t => (s.published t).length else s.missed }
  | .addToStrand t c m i n j =>
    { s with
      registry := SubscriptionRegistry.next s.registry (.addMessageToRunner t c m i n)
      strand := Strand.next s.strand (.call j .enqueue)
      adding := Function.update s.adding t (some j)
      message := if n = sub.node ∧ c = sub.channel then
        Function.update s.message j (some (t, m)) else s.message }
  | .strand e =>
    { s with
      strand := Strand.next s.strand e
      started := s.started ++ e.started }

def system : TransitionSystem State Action where
  init s := s = initial
  step s a := if Enabled sub s a then some (next sub s a) else none

variable {sub}

/-- The message of a thread that walks over the list and has not come to the node. -/
def notHanded (sub : Subscription) (r : SubscriptionRegistry.State) (t : ThreadId) :
    List MessageId :=
  match r.pc t with
  | .walk c m i => if c = sub.channel ∧ sub.node ∈ (r.subList sub.channel).drop i then [m] else []
  | _ => []

section Registry
variable {r r' : SubscriptionRegistry.State} {a : SubscriptionRegistry.Action} {t : ThreadId}

theorem notHanded_of_not_reads (h : (r.pc t).reads = false) : notHanded sub r t = [] := by
  unfold notHanded
  cases hp : r.pc t with
  | walk c m i =>
    rw [hp] at h
    cases h
  | _ => rfl

theorem notHanded_frame (hp : r'.pc t = r.pc t) (hl : r'.subList = r.subList) :
    notHanded sub r' t = notHanded sub r t := by
  simp only [notHanded, hp, hl]

theorem not_reads_of_exclusive (hl : SubscriptionRegistry.LockOk r) (hx : r.exclusive ≠ none)
    (t : ThreadId) : (r.pc t).reads = false := by
  have hnil := hl.disjoint hx
  by_contra hr
  have hmem := (hl.readers t).mpr (by simpa using hr)
  rw [hnil] at hmem
  cases hmem

theorem drop_of_getElem? {l : List NodeId} {i : ℕ} {n : NodeId} (h : l[i]? = some n) :
    l.drop i = n :: l.drop (i + 1) := by
  rw [List.drop_eq_getElem?_toList_append, h]
  rfl

/-- The thread has come past one more node of the list. -/
theorem notHanded_add {c : ChannelId} {m : MessageId} {i : ℕ} {n : NodeId} :
    notHanded sub (SubscriptionRegistry.next r (.addMessageToRunner t c m i n)) t =
      if c = sub.channel ∧ sub.node ∈ (r.subList sub.channel).drop (i + 1) then [m] else [] := by
  have hp : (SubscriptionRegistry.next r (.addMessageToRunner t c m i n)).pc =
      Function.update r.pc t (.walk c m (i + 1)) := by
    simp only [SubscriptionRegistry.next, SubscriptionRegistry.addMessageToRunner]
    split <;> rfl
  have hl : (SubscriptionRegistry.next r (.addMessageToRunner t c m i n)).subList = r.subList :=
    SubscriptionRegistry.subList_next rfl
  simp only [notHanded, hp, hl, Function.update_self]

/-- Between the lock and the node's turn a published message is not handed. -/
theorem notHanded_next (he : SubscriptionRegistry.Enabled r a) (hl : SubscriptionRegistry.LockOk r)
    (hmem : sub.node ∈ r.subList sub.channel)
    (hhand : ∀ c m i n, a = .addMessageToRunner t c m i n → ¬ (n = sub.node ∧ c = sub.channel)) :
    notHanded sub (SubscriptionRegistry.next r a) t =
      notHanded sub r t ++ publishes sub t a := by
  by_cases ht : a.thread = some t
  case neg =>
    -- a step of another thread changes the list only when no dispatch walks over it
    have hpub : publishes sub t a = [] := by
      cases a with
      | lockDispatch u c m =>
        have hut : u ≠ t := fun h => ht (congrArg some h)
        simp [publishes, hut]
      | _ => rfl
    rw [hpub, List.append_nil]
    by_cases hw : a.changesList = true
    · have hx := SubscriptionRegistry.exclusive_of_changesList hl he hw
      have hl' := SubscriptionRegistry.lockOk_step he hl
      rw [notHanded_of_not_reads (not_reads_of_exclusive hl' hx.2 t),
        notHanded_of_not_reads (not_reads_of_exclusive hl hx.1 t)]
    · exact notHanded_frame (SubscriptionRegistry.pc_of_ne_thread ht)
        (SubscriptionRegistry.subList_next (by simpa using hw))
  case pos =>
    -- most steps of the thread itself are outside of its walk, before and after
    have hquiet (h : (r.pc t).reads = false)
        (h' : ((SubscriptionRegistry.next r a).pc t).reads = false) (hp : publishes sub t a = []) :
        notHanded sub (SubscriptionRegistry.next r a) t =
          notHanded sub r t ++ publishes sub t a := by
      rw [notHanded_of_not_reads h, notHanded_of_not_reads h', hp, List.append_nil]
    have hself {p : SubscriptionRegistry.Pc}
        (hp : (SubscriptionRegistry.next r a).pc = Function.update r.pc t p)
        (hr : p.reads = false) : ((SubscriptionRegistry.next r a).pc t).reads = false := by
      rw [hp, Function.update_self]
      exact hr
    cases a with
    | construct => cases ht
    | subscribe u n c info =>
      cases ht
      refine hquiet (by rw [he.1]; rfl) ?_ rfl
      simp only [SubscriptionRegistry.next, SubscriptionRegistry.subscribe]
      split <;> simp [SubscriptionRegistry.State.setPc, SubscriptionRegistry.Pc.reads]
    | lockDispatch u c m =>
      cases ht
      have hold : notHanded sub r t = [] := notHanded_of_not_reads (by rw [he.1]; rfl)
      rw [hold, List.nil_append]
      simp [notHanded, SubscriptionRegistry.next, SubscriptionRegistry.State.setPc, publishes, hmem]
    | addMessageToRunner u c m i n =>
      cases ht
      rw [notHanded_add]
      simp only [notHanded, he.1, publishes, List.append_nil]
      by_cases hcc : c = sub.channel
      · subst hcc
        have hne : n ≠ sub.node := fun hn => hhand _ _ _ _ rfl ⟨hn, rfl⟩
        rw [drop_of_getElem? he.2]
        simp [Ne.symm hne]
      · simp [hcc]
    | unlockDispatch u c m i =>
      cases ht
      have hnew : notHanded sub (SubscriptionRegistry.next r (.unlockDispatch t c m i)) t = [] :=
        notHanded_of_not_reads (hself rfl rfl)
      have hdrop : (r.subList c).drop i = [] := List.drop_eq_nil_of_le he.2
      rw [hnew]
      simp only [notHanded, he.1, publishes, List.append_nil]
      split_ifs with hcc
      · rw [← hcc.1, hdrop] at hcc
        exact absurd hcc.2 List.not_mem_nil
      · rfl
    | callSubscribe | lockSubscribe | destroy | lockUnsubscribe | erase | endDestroy =>
      cases ht
      exact hquiet (by rw [he.1]; rfl) (hself rfl rfl) rfl
    | pushBack | emplace | unlockSubscribe | publish | unlockUnsubscribe =>
      cases ht
      exact hquiet (by rw [he]; rfl) (hself rfl rfl) rfl

theorem mem_subList_next (he : SubscriptionRegistry.Enabled r a)
    (hc : SubscriptionRegistry.CallsOk r) (hd : (r.node sub.node).life.isDestroying = false)
    (hmem : sub.node ∈ r.subList sub.channel) :
    sub.node ∈ (SubscriptionRegistry.next r a).subList sub.channel := by
  apply SubscriptionRegistry.mem_subList_next hmem
  rintro u rfl
  rw [hc.destroying u sub.node (by rw [he.1]; rfl)] at hd
  cases hd

theorem subscribes_of_mem (hmem : sub.node ∉ r.subList sub.channel)
    (hn : sub.node ∈ (SubscriptionRegistry.next r a).subList sub.channel) :
    subscribes sub r a = true := by
  obtain ⟨u, info, rfl⟩ :=
    (SubscriptionRegistry.mem_of_mem_subList_next hn).resolve_left hmem
  simp [subscribes, hmem]

end Registry

/-- The messages of a thread in the call of `AddJob` it has made, until they are pushed. -/
def State.notPushed (s : State) (t : ThreadId) : List MessageId :=
  match s.adding t with
  | none => []
  | some j => if s.strand.pc (.addJob, j) = .push then s.messagesOf t [j] else []

/-- The jobs that carry messages come from plain calls, each made by the publisher. -/
structure CallsOk (s : State) : Prop where
  begun : ∀ j, s.message j ≠ none → s.strand.pc (.addJob, j) ≠ .idle
  plain : ∀ j, s.message j ≠ none → (s.strand.pc (.addJob, j)).plain = true
  adding : ∀ t j, s.adding t = some j → s.strand.pc (.addJob, j) ≠ .idle
  owner : ∀ j t m, s.message j = some (t, m) →
    s.adding t = some j ∨ s.strand.pc (.addJob, j) = .returned .enqueued

/-- What was published after the subscription is pushed, or about to be, or not yet handed. -/
structure Inv (sub : Subscription) (s : State) : Prop where
  registry : SubscriptionRegistry.Inv s.registry
  strand : Strand.system.Reachable s.strand
  strandAlive : s.strand.strandAlive = true
  runnerAlive : s.strand.runnerAlive = true
  stays : (s.registry.node sub.node).life.isDestroying = false
  withStrand : ∀ info, (s.registry.node sub.node).requests.lookup sub.channel = some info →
    info.strand = some sub.strand
  calls : CallsOk s
  unsubscribed : sub.node ∉ s.registry.subList sub.channel → ∀ j, s.message j = none
  bound : ∀ t, s.missed t ≤ (s.published t).length
  order : sub.node ∈ s.registry.subList sub.channel → ∀ t,
    s.messagesOf t s.strand.pushed ++ s.notPushed t ++ notHanded sub s.registry t =
      (s.published t).drop (s.missed t)
  started : Strand.StartOrder s.strand s.started

section Steps
variable {s u : State}

theorem messagesOf_append (s : State) (t : ThreadId) (l l' : List JobId) :
    s.messagesOf t (l ++ l') = s.messagesOf t l ++ s.messagesOf t l' :=
  List.filterMap_append

theorem messagesOf_eq_nil {t : ThreadId} {l : List JobId} (h : ∀ j ∈ l, s.message j = none) :
    s.messagesOf t l = [] := by
  refine List.filterMap_eq_nil_iff.mpr fun j hj => ?_
  rw [h j hj]

theorem messagesOf_congr {t : ThreadId} {l : List JobId}
    (h : ∀ j ∈ l, u.message j = s.message j) : u.messagesOf t l = s.messagesOf t l := by
  refine List.filterMap_congr fun j hj => ?_
  rw [h j hj]

theorem notPushed_eq_nil (h : ∀ j, s.message j = none) (t : ThreadId) : s.notPushed t = [] := by
  unfold State.notPushed
  split
  · rfl
  · split_ifs
    · exact messagesOf_eq_nil fun j _ => h j
    · rfl

theorem inv_initial (sub : Subscription) : Inv sub initial where
  registry := SubscriptionRegistry.reachable_inv (.init rfl)
  strand := .init rfl
  strandAlive := rfl
  runnerAlive := rfl
  stays := rfl
  withStrand _ h := nomatch h
  calls := ⟨fun _ h => absurd rfl h, fun _ h => absurd rfl h, nofun, nofun⟩
  unsubscribed _ _ := rfl
  bound _ := Nat.le_refl 0
  order h := nomatch h
  started := Strand.startOrder_initial

/-- The callback the node gets its message with is that of the subscription. -/
theorem strand_of_listed (h : Inv sub s) (hx : s.registry.exclusive = none)
    (hmem : sub.node ∈ s.registry.subList sub.channel) :
    ∃ info, (s.registry.node sub.node).callbacks sub.channel = some info ∧
      info.strand = some sub.strand := by
  obtain ⟨info, hcall, hreq⟩ :=
    SubscriptionRegistry.callback_of_listed h.registry.registered hx hmem
  exact ⟨info, hcall, h.withStrand info hreq⟩

/-- A step of the registry. -/
theorem inv_registry {a : SubscriptionRegistry.Action} (ha : Allowed sub s a)
    (he : SubscriptionRegistry.Enabled s.registry a) (h : Inv sub s) :
    Inv sub (next sub s (.registry a)) := by
  have hstays : ((SubscriptionRegistry.next s.registry a).node sub.node).life.isDestroying =
      false := by
    refine SubscriptionRegistry.isDestroying_next (fun t => ?_) h.stays
    rintro rfl
    exact ha rfl
  -- the node is handed its messages through the strand only
  have hhand (t : ThreadId) (c m i n) (heq : a = .addMessageToRunner t c m i n) :
      ¬ (n = sub.node ∧ c = sub.channel) := by
    rintro ⟨rfl, rfl⟩
    subst heq
    have hx := (SubscriptionRegistry.exclusive_of_walk h.registry.lock he.1).1
    obtain ⟨info, hcall, hstrand⟩ := strand_of_listed h hx (List.mem_of_getElem? he.2)
    exact ha.2 info hcall hstrand
  refine ⟨SubscriptionRegistry.inv_step he h.registry, h.strand, h.strandAlive, h.runnerAlive,
    hstays, ?_,
    ⟨h.calls.begun, h.calls.plain, h.calls.adding, h.calls.owner⟩, ?_, ?_, ?_, h.started⟩
  · intro info hinfo
    rcases SubscriptionRegistry.lookup_requests_next hinfo with hold | ⟨⟨t, rfl⟩, hnone⟩
    · exact h.withStrand info hold
    · have hmem := SubscriptionRegistry.not_mem_of_lookup_none h.registry he hnone
      exact ha (by simp [subscribes, hmem])
  · intro hn
    refine h.unsubscribed fun hmem => hn ?_
    exact mem_subList_next he h.registry.calls h.stays hmem
  · intro t
    have hb := h.bound t
    simp only [next]
    split_ifs <;> simp only [List.length_append] <;> omega
  · intro hn t
    by_cases hmem : sub.node ∈ s.registry.subList sub.channel
    · have hsub : subscribes sub s.registry a = false := by
        cases a <;> simp [subscribes, hmem]
      have hold := h.order hmem t
      simp only [next, hsub, Bool.false_eq_true, if_false]
      rw [List.drop_append_of_le_length (h.bound t), ← hold,
        notHanded_next he h.registry.lock hmem (hhand t)]
      simp only [List.append_assoc]
      rfl
    · -- the subscription: nothing is on its way yet, and nobody walks
      have hsub := subscribes_of_mem hmem hn
      have hchange : a.changesList = true := by
        cases a <;> first | rfl | cases hsub
      have hx := SubscriptionRegistry.exclusive_of_changesList h.registry.lock he hchange
      have hlock := SubscriptionRegistry.lockOk_step he h.registry.lock
      have hpub : publishes sub t a = [] := by
        cases a <;> first | rfl | cases hsub
      have hnone := h.unsubscribed hmem
      have hwalk : notHanded sub (SubscriptionRegistry.next s.registry a) t = [] :=
        notHanded_of_not_reads (not_reads_of_exclusive hlock hx.2 t)
      simp only [next, hsub, if_true, hpub, List.append_nil, hwalk, List.drop_length]
      have h1 : s.messagesOf t s.strand.pushed = [] := messagesOf_eq_nil fun j _ => hnone j
      have h2 : s.notPushed t = [] := notPushed_eq_nil hnone t
      exact (congrArg₂ (· ++ ·) h1 h2)

/-- A call of `AddJob` has not been pushed before it is made. -/
theorem not_mem_pushed (hr : Strand.system.Reachable s.strand) {j : JobId}
    (hi : s.strand.pc (.addJob, j) = .idle) : j ∉ s.strand.pushed := by
  have hcount := (Strand.reachable_recorded hr).counted.pushed j
  have hstage : (s.strand.view j).stage ≠ .enqueued := by
    simp [Strand.State.view, hi, Strand.Pc.stage]
  rw [if_neg hstage] at hcount
  exact List.count_eq_zero.mp hcount

/-- The other calls are where they were. -/
theorem pc_call {s : Strand.State} {j k : JobId} (hk : k ≠ j) :
    (Strand.next s (.call j .enqueue)).pc (.addJob, k) = s.pc (.addJob, k) :=
  Function.update_of_ne (fun h => hk (congrArg Prod.snd h)) _ _

theorem pc_call_self (s : Strand.State) (j : JobId) :
    (Strand.next s (.call j .enqueue)).pc (.addJob, j) = .push :=
  Function.update_self _ _ _

theorem returned_of_not_busy {t : ThreadId} {j : JobId} (hb : s.busy t = false)
    (ha : s.adding t = some j) : ∃ r, s.strand.pc (.addJob, j) = .returned r := by
  simp only [State.busy, ha] at hb
  split at hb
  · next r hr => exact ⟨r, hr⟩
  · cases hb

section Add
variable {t : ThreadId} {c : ChannelId} {m : MessageId} {i : ℕ} {n : NodeId} {j : JobId}

theorem message_add {k : JobId} (hk : k ≠ j) :
    (next sub s (.addToStrand t c m i n j)).message k = s.message k := by
  simp only [next]
  split_ifs
  · exact Function.update_of_ne hk _ _
  · rfl

theorem callsOk_add (hbusy : s.busy t = false) (hidle : s.strand.pc (.addJob, j) = .idle)
    (h : CallsOk s) : CallsOk (next sub s (.addToStrand t c m i n j)) := by
  have hnew : s.message j = none := by
    by_contra hj
    exact h.begun j hj hidle
  have hself : (next sub s (.addToStrand t c m i n j)).strand.pc (.addJob, j) = .push :=
    pc_call_self _ _
  have hother {k : JobId} (hk : k ≠ j) :
      (next sub s (.addToStrand t c m i n j)).strand.pc (.addJob, k) = s.strand.pc (.addJob, k) :=
    pc_call hk
  refine ⟨fun k hk => ?_, fun k hk => ?_, fun v k hk => ?_, fun k v m' hk => ?_⟩ <;>
    by_cases hkj : k = j
  · rw [hkj, hself]
    exact nofun
  · rw [hother hkj]
    exact h.begun k (message_add hkj ▸ hk)
  · rw [hkj, hself]
    rfl
  · rw [hother hkj]
    exact h.plain k (message_add hkj ▸ hk)
  · rw [hkj, hself]
    exact nofun
  · rw [hother hkj]
    simp only [next, Function.update_apply] at hk
    split_ifs at hk
    · exact absurd (Option.some.inj hk).symm hkj
    · exact h.adding v k hk
  · subst hkj
    simp only [next] at hk
    split_ifs at hk
    · rw [Function.update_self] at hk
      cases hk
      exact Or.inl (Function.update_self _ _ _)
    · rw [hnew] at hk
      cases hk
  · rw [message_add hkj] at hk
    rw [hother hkj]
    rcases h.owner k v m' hk with hadd | hret
    · by_cases hv : v = t
      · -- the thread's call before this one has returned
        subst hv
        obtain ⟨r, hr⟩ := returned_of_not_busy hbusy hadd
        have hplain := h.plain k (by rw [hk]; exact nofun)
        rw [hr] at hplain
        cases r with
        | enqueued => exact Or.inr hr
        | rejected | finished => cases hplain
      · exact Or.inl ((Function.update_of_ne hv _ _).trans hadd)
    · exact Or.inr hret

theorem notPushed_of_not_busy (h : s.busy t = false) : s.notPushed t = [] := by
  unfold State.notPushed
  cases ha : s.adding t with
  | none => rfl
  | some k =>
    obtain ⟨r, hr⟩ := returned_of_not_busy h ha
    simp [hr]

/-- What another thread walks over and calls stays as it was. -/
theorem frame_add_of_ne (hi : Inv sub s) (hidle : s.strand.pc (.addJob, j) = .idle)
    {v : ThreadId} (hv : v ≠ t) :
    (next sub s (.addToStrand t c m i n j)).notPushed v = s.notPushed v ∧
      notHanded sub (next sub s (.addToStrand t c m i n j)).registry v =
        notHanded sub s.registry v := by
  have hwalk : notHanded sub (next sub s (.addToStrand t c m i n j)).registry v =
      notHanded sub s.registry v :=
    notHanded_frame
      (SubscriptionRegistry.pc_of_ne_thread (a := .addMessageToRunner t c m i n)
        fun h => hv (Option.some.inj h).symm)
      (SubscriptionRegistry.subList_next rfl)
  have hadd : (next sub s (.addToStrand t c m i n j)).adding v = s.adding v :=
    Function.update_of_ne hv _ _
  refine ⟨?_, hwalk⟩
  unfold State.notPushed
  rw [hadd]
  cases ha : s.adding v with
  | none => rfl
  | some k =>
    have hkj : k ≠ j := by
      rintro rfl
      exact hi.calls.adding v k ha hidle
    have hpc : (next sub s (.addToStrand t c m i n j)).strand.pc (.addJob, k) =
        s.strand.pc (.addJob, k) := pc_call hkj
    simp only [hpc]
    rw [messagesOf_congr fun l hl => message_add (List.mem_singleton.mp hl ▸ hkj)]

/-- The message moves from the dispatch to the call. -/
theorem order_add (hi : Inv sub s) (he : Enabled sub s (.addToStrand t c m i n j))
    (v : ThreadId) :
    (next sub s (.addToStrand t c m i n j)).messagesOf v s.strand.pushed ++
      (next sub s (.addToStrand t c m i n j)).notPushed v ++
      notHanded sub (next sub s (.addToStrand t c m i n j)).registry v =
    s.messagesOf v s.strand.pushed ++ s.notPushed v ++ notHanded sub s.registry v := by
  obtain ⟨⟨hbusy, -⟩, hreg, hidle⟩ := he
  have hidle : s.strand.pc (.addJob, j) = .idle := hidle
  have hnew : s.message j = none := by
    by_contra hj
    exact hi.calls.begun j hj hidle
  have hpushed : (next sub s (.addToStrand t c m i n j)).messagesOf v s.strand.pushed =
      s.messagesOf v s.strand.pushed := by
    refine messagesOf_congr fun k hk => message_add ?_
    rintro rfl
    exact not_mem_pushed hi.strand hidle hk
  rw [hpushed]
  by_cases hv : v = t
  case neg =>
    obtain ⟨hcall, hwalk⟩ := @frame_add_of_ne sub s t c m i n j hi hidle v hv
    rw [hcall, hwalk]
  case pos =>
    -- the walk goes past the node, and the message, if it is for the subscription, is in the call
    subst hv
    have hcall : (next sub s (.addToStrand v c m i n j)).notPushed v =
        (next sub s (.addToStrand v c m i n j)).messagesOf v [j] := by
      have hadd : (next sub s (.addToStrand v c m i n j)).adding v = some j :=
        Function.update_self _ _ _
      have hpc : (next sub s (.addToStrand v c m i n j)).strand.pc (.addJob, j) = .push :=
        pc_call_self _ _
      simp only [State.notPushed, hadd, hpc, if_true]
    have hwalk : notHanded sub (next sub s (.addToStrand v c m i n j)).registry v =
        if c = sub.channel ∧ sub.node ∈ (s.registry.subList sub.channel).drop (i + 1) then [m]
        else [] := notHanded_add
    rw [hcall, hwalk, notPushed_of_not_busy hbusy, List.append_nil]
    have hold : notHanded sub s.registry v =
        if c = sub.channel ∧ sub.node ∈ (s.registry.subList sub.channel).drop i then [m]
        else [] := by
      simp only [notHanded, hreg.1]
    rw [hold]
    by_cases hnc : n = sub.node ∧ c = sub.channel
    · obtain ⟨rfl, rfl⟩ := hnc
      have hdrop := drop_of_getElem? hreg.2
      have hnodup := (hi.registry.registered.listNodup sub.channel).sublist (List.drop_sublist i _)
      rw [hdrop] at hnodup
      have hnot := (List.nodup_cons.mp hnodup).1
      have hmsg : (next sub s (.addToStrand v sub.channel m i sub.node j)).messagesOf v [j] =
          [m] := by
        simp [State.messagesOf, next]
      rw [hmsg, hdrop]
      simp [hnot]
    · have hmsg : (next sub s (.addToStrand v c m i n j)).messagesOf v [j] = [] := by
        simp [State.messagesOf, next, hnc, hnew]
      rw [hmsg, List.append_nil]
      by_cases hcc : c = sub.channel
      · subst hcc
        have hne : n ≠ sub.node := fun hn => hnc ⟨hn, rfl⟩
        rw [drop_of_getElem? hreg.2]
        simp [Ne.symm hne]
      · simp [hcc]

/-- A dispatch calls `AddJob` of the strand. -/
theorem inv_add (he : Enabled sub s (.addToStrand t c m i n j)) (h : Inv sub s) :
    Inv sub (next sub s (.addToStrand t c m i n j)) := by
  obtain ⟨hs, b, hb⟩ := Strand.reachable_refines h.strand
  have hcall : Strand.Enabled s.strand (.call j .enqueue) := he.2.2
  have hlist : (SubscriptionRegistry.next s.registry (.addMessageToRunner t c m i n)).subList =
      s.registry.subList := SubscriptionRegistry.subList_next rfl
  refine ⟨SubscriptionRegistry.inv_step he.2.1 h.registry,
    h.strand.step (Strand.step_eq_some.mpr ⟨hcall, rfl⟩), h.strandAlive, h.runnerAlive, ?_, ?_,
    callsOk_add he.1.1 hcall h.calls, fun hn => ?_, h.bound, fun hn v => ?_, ?_⟩
  · exact SubscriptionRegistry.isDestroying_next (a := .addMessageToRunner t c m i n)
      (fun _ => nofun) h.stays
  · intro info hinfo
    rcases SubscriptionRegistry.lookup_requests_next (a := .addMessageToRunner t c m i n) hinfo with
      hold | ⟨⟨_, ht⟩, -⟩
    · exact h.withStrand info hold
    · cases ht
  · have hmem : sub.node ∉ s.registry.subList sub.channel := hlist ▸ hn
    have hnc : ¬ (n = sub.node ∧ c = sub.channel) := by
      rintro ⟨rfl, rfl⟩
      exact hmem (List.mem_of_getElem? he.2.1.2)
    intro k
    simp only [next, if_neg hnc]
    exact h.unsubscribed hmem k
  · have hmem : sub.node ∈ s.registry.subList sub.channel := hlist ▸ hn
    exact (order_add h he v).trans (h.order hmem v)
  · have hstep := Strand.startOrder_step hcall hs hb h.runnerAlive h.started
    rwa [show Strand.Action.started (.call j .enqueue) = [] from rfl, List.append_nil] at hstep

end Add

/-- What the strand does to the calls that carry messages. -/
theorem callsOk_strand {e : Strand.Action} (he : Strand.Enabled s.strand e)
    (hc : Strand.Coherent s.strand) (h : CallsOk s) : CallsOk (next sub s (.strand e)) := by
  have hstay (j : JobId) (hi : s.strand.pc (.addJob, j) ≠ .idle) :
      (Strand.next s.strand e).pc (.addJob, j) ≠ .idle := by
    rcases Strand.pc_step he hc (.addJob, j) with hp | hp
    · rwa [hp]
    · exact hp.ne_idle
  refine ⟨fun j hj => hstay j (h.begun j hj), fun j hj => ?_, fun t j hj => hstay j (h.adding t j hj),
    fun j t m hj => ?_⟩
  · rcases Strand.pc_step he hc (.addJob, j) with hp | hp
    · exact (congrArg Strand.Pc.plain hp).trans (h.plain j hj)
    · exact (hp.plain (h.plain j hj) (h.begun j hj)).1
  · refine (h.owner j t m hj).imp id fun hr => ?_
    rcases Strand.pc_step he hc (.addJob, j) with hp | hp
    · exact hp.trans hr
    · rw [hr] at hp
      generalize (Strand.next s.strand e).pc (.addJob, j) = q at hp
      cases hp

/-- The strand takes a message from its call when it pushes it, and from nowhere else. -/
theorem order_strand {e : Strand.Action} (he : Strand.Enabled s.strand e)
    (hc : Strand.Coherent s.strand) (h : CallsOk s) (t : ThreadId) :
    (next sub s (.strand e)).messagesOf t (Strand.next s.strand e).pushed ++
      (next sub s (.strand e)).notPushed t =
    s.messagesOf t s.strand.pushed ++ s.notPushed t := by
  have hmsgs (l : List JobId) : (next sub s (.strand e)).messagesOf t l = s.messagesOf t l := rfl
  have hadding : (next sub s (.strand e)).adding t = s.adding t := rfl
  have hpc (j : JobId) : (next sub s (.strand e)).strand.pc (.addJob, j) =
      (Strand.next s.strand e).pc (.addJob, j) := rfl
  rw [hmsgs]
  unfold State.notPushed
  rw [hadding]
  by_cases hpush : ∃ k, e = .push k
  case neg =>
    -- no call gets to its push or past it
    rw [Strand.pushed_next fun k hk => hpush ⟨k, hk⟩]
    congr 1
    cases ha : s.adding t with
    | none => rfl
    | some j =>
      simp only [hmsgs, hpc]
      by_cases hj : s.message j = none
      · have hnil : s.messagesOf t [j] = [] :=
          messagesOf_eq_nil fun k hk => List.mem_singleton.mp hk ▸ hj
        simp [hnil]
      · rcases Strand.pc_step he hc (.addJob, j) with hp | hp
        · rw [hp]
        · obtain ⟨-, hq, hpq⟩ := hp.plain (h.plain j hj) (h.begun j hj)
          have hold : s.strand.pc (.addJob, j) ≠ .push := fun hp => hpush ⟨j, hpq hp⟩
          rw [if_neg hq, if_neg hold]
  case pos =>
    obtain ⟨k, rfl⟩ := hpush
    have hk : s.strand.pc (.addJob, k) = .push := he
    have hpushed : (Strand.next s.strand (.push k)).pushed = s.strand.pushed ++ [k] := rfl
    have hother (j : JobId) (hj : j ≠ k) :
        (Strand.next s.strand (.push k)).pc (.addJob, j) = s.strand.pc (.addJob, j) :=
      Function.update_of_ne (fun h => hj (congrArg Prod.snd h)) _ _
    have hself : (Strand.next s.strand (.push k)).pc (.addJob, k) = .lock :=
      Function.update_self _ _ _
    rw [hpushed, messagesOf_append, List.append_assoc]
    congr 1
    by_cases hmine : s.adding t = some k
    · simp [hmine, hpc, hself, hk]
    · -- the job that is pushed carries no message of the thread
      have hnil : s.messagesOf t [k] = [] := by
        unfold State.messagesOf
        cases hm : s.message k with
        | none => simp [hm]
        | some p =>
          obtain ⟨v, m⟩ := p
          have hv : v ≠ t := by
            rintro rfl
            rcases h.owner k v m hm with hadd | hret
            · exact hmine hadd
            · rw [hk] at hret
              cases hret
          simp [hm, hv]
      rw [hnil, List.nil_append]
      cases ha : s.adding t with
      | none => rfl
      | some j =>
        have hj : j ≠ k := by
          rintro rfl
          exact hmine ha
        simp only [hmsgs, hpc, hother j hj]

/-- A step of the strand, or a foreign call of it. -/
theorem inv_strand {e : Strand.Action} (he : Enabled sub s (.strand e)) (h : Inv sub s) :
    Inv sub (next sub s (.strand e)) := by
  obtain ⟨⟨hstrand, hrunner⟩, he⟩ := he
  obtain ⟨hs, b, hb⟩ := Strand.reachable_refines h.strand
  refine ⟨h.registry, h.strand.step (Strand.step_eq_some.mpr ⟨he, rfl⟩), ?_, ?_, h.stays,
    h.withStrand, callsOk_strand he hs h.calls, h.unsubscribed, h.bound, fun hn t => ?_,
    Strand.startOrder_step he hs hb h.runnerAlive h.started⟩
  · simp [next, Strand.next_strandAlive, h.strandAlive, hstrand]
  · simp [next, Strand.next_runnerAlive, h.runnerAlive, hrunner]
  · have hsame := @order_strand sub s e he hs h.calls t
    exact (congrArg (· ++ notHanded sub s.registry t) hsame).trans (h.order hn t)

theorem step_eq_some {a : Action} :
    (system sub).step s a = some u ↔ Enabled sub s a ∧ next sub s a = u := by
  change (if Enabled sub s a then some (next sub s a) else none) = some u ↔ _
  split_ifs with h <;> simp [h]

theorem reachable_inv (h : (system sub).Reachable s) : Inv sub s := by
  refine h.invariant ?_ ?_
  · rintro s rfl
    exact inv_initial sub
  · intro u a v hu hst
    obtain ⟨he, rfl⟩ := step_eq_some.mp hst
    cases a with
    | registry a => exact inv_registry he.1 he.2 hu
    | addToStrand t c m i n j => exact inv_add he hu
    | strand e => exact inv_strand he hu

/-- What the callback has been invoked with is the beginning of what the publisher has published
since the subscription. -/
theorem processed_isPrefix (h : Inv sub s) (t : ThreadId) :
    s.processed t <+: (s.published t).drop (s.missed t) := by
  have hpushed : s.processed t <+: s.messagesOf t s.strand.pushed := by
    have hhanded := Strand.handed_prefix (Strand.reachable_recorded h.strand) h.strandAlive
      h.runnerAlive
    exact (h.started.started_prefix_handed.trans hhanded).filterMap _
  apply hpushed.trans
  by_cases hmem : sub.node ∈ s.registry.subList sub.channel
  · rw [← h.order hmem t, List.append_assoc]
    exact List.prefix_append _ _
  · rw [messagesOf_eq_nil fun j _ => h.unsubscribed hmem j]
    exact List.nil_prefix

end Steps

/-- At every moment the messages of one publisher that the callback has been invoked with are a
contiguous segment of what the publisher published on the channel, from its first publish that
took the lock after the subscription on, in order and without gap; two invocations overlap only
when one of them gave its token away and every copy is gone. -/
theorem delivery_in_order {sub : Subscription} {s : State} (h : (system sub).Reachable s) :
    (∀ t, s.processed t <+: (s.published t).drop (s.missed t)) ∧
      ∀ j k, s.message j ≠ none → s.message k ≠ none → s.strand.phase j = .running →
        s.strand.phase k = .running → j ≠ k →
        ∃ i, (i = j ∨ i = k) ∧ s.strand.handedOver i = true ∧ s.strand.ownsToken i = false ∧
          s.strand.sharedTokens i = 0 := by
  have hi := reachable_inv h
  refine ⟨processed_isPrefix hi, fun j k _ _ hj hk hne => ?_⟩
  exact (Strand.strand_mutual_exclusion hi.strand).2.2.1 j k hj hk hne

/-- Node 0 subscribes to the channel through strand 5. -/
def testSubscription : Subscription := ⟨0, SubscriptionRegistry.testChannel, 5⟩

def subscribeRun : List Action :=
  let info : SubscriptionInfo := ⟨7, some 5⟩
  let c := SubscriptionRegistry.testChannel
  [.registry (.construct 0 true), .registry (.callSubscribe 0 0 c info),
    .registry (.lockSubscribe 0 0 c info), .registry (.subscribe 0 0 c info),
    .registry (.pushBack 0 0 c info), .registry (.emplace 0 0 c info),
    .registry (.unlockSubscribe 0 0)]

/-- Thread 1 publishes a message, and worker 0 starts its callback as job `j`. -/
def publishRun (m : MessageId) (j : JobId) : List Action :=
  let c := SubscriptionRegistry.testChannel
  [.registry (.publish 1 c m), .registry (.lockDispatch 1 c m), .addToStrand 1 c m 0 0 j,
    .strand (.push j), .strand (.lock (.addJob, j)), .strand (.testReady (.addJob, j)),
    .strand (.consumeOne (.addJob, j)), .strand (.storeReady (.addJob, j) (some j)),
    .strand (.unlock (.addJob, j) (some j)), .strand (.pushToRunner (.addJob, j) j 0),
    .strand (.return_ j), .registry (.unlockDispatch 1 c m 1), .strand (.startJob 0 j)]

/-- The callback of job `j` moves its token away, and the token is dropped. -/
def giveAwayRun (j : JobId) : List Action :=
  [.strand (.handOverToken j), .strand (.dropToken j), .strand (.lock (.aliveToken, j)),
    .strand (.testReady (.aliveToken, j)), .strand (.consumeOne (.aliveToken, j)),
    .strand (.storeReady (.aliveToken, j) none), .strand (.unlock (.aliveToken, j) none)]

/-- One message comes before the subscription, two after it. -/
def overlapRun : List Action :=
  [.registry (.publish 1 SubscriptionRegistry.testChannel 9),
    .registry (.lockDispatch 1 SubscriptionRegistry.testChannel 9),
    .registry (.unlockDispatch 1 SubscriptionRegistry.testChannel 9 0)] ++
    subscribeRun ++ publishRun 10 0 ++ giveAwayRun 0 ++ publishRun 11 1

/-- Where the run leads. -/
def overlapState : State := (system testSubscription).after initial overlapRun

theorem delivery_in_order_overlapRun :
    (overlapState.processed 1 = [10, 11] ∧ overlapState.published 1 = [9, 10, 11]) ∧
      overlapState.processed 1 <+: [10, 11] ∧
      ∃ i, (i = 0 ∨ i = 1) ∧ overlapState.strand.handedOver i = true := by
  have h := delivery_in_order (.after rfl overlapRun : (system testSubscription).Reachable _)
  have hmsgs : overlapState.processed 1 = [10, 11] ∧ overlapState.published 1 = [9, 10, 11] := by
    decide
  obtain ⟨i, hi, hover, -⟩ :=
    h.2 0 1 (by decide) (by decide) (by decide) (by decide) (by decide)
  exact ⟨hmsgs, h.1 1, i, hi, hover⟩

/-- Two invocations of the callback can overlap. -/
theorem callbacks_overlap :
    ¬ ∀ (sub : Subscription) (s : State), (system sub).Reachable s → ∀ j k, s.message j ≠ none →
      s.message k ≠ none → s.strand.phase j = .running → s.strand.phase k = .running → j = k := by
  intro h
  have h01 := h testSubscription overlapState (.after rfl overlapRun) 0 1 (by decide) (by decide)
    (by decide) (by decide)
  cases h01

end CrisCore.SubscriptionDelivery
