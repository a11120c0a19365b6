import CrisCore.TransitionSystem
import Mathlib.Logic.Function.Basic

/-! The subscription map, the nodes in it, and the threads that subscribe, publish and destroy
nodes under `SubscriptionMutex()`. A node is named by its address, which a later node may get
again. A message goes by the channel it was published on; that the object may be given another one
on the way is for the model that has the message objects. -/
namespace CrisCore.SubscriptionRegistry

abbrev ThreadId := ℕ
abbrev NodeId := ℕ
abbrev MessageId := ℕ

/-- `channel_id_t` -/
structure ChannelId where
  typeIndex : ℕ
  subId : ℕ
  deriving DecidableEq

/-- What `SubscribeImpl` stores for a channel; no strand when concurrency is allowed. -/
structure SubscriptionInfo where
  callback : ℕ
  strand : Option ℕ
  deriving DecidableEq

inductive Life
  | absent
  | alive
  /-- `~CRNode` has unsubscribed that many of the channels. -/
  | destroying (erased : ℕ)
  deriving DecidableEq

def Life.isDestroying : Life → Bool
  | .destroying _ => true
  | _ => false

/-- One more turn of the loop of `~CRNode`. -/
def Life.eraseOne : Life → Life
  | .destroying erased => .destroying (erased + 1)
  | life => life

@[simp] theorem Life.isDestroying_eraseOne (life : Life) :
    life.eraseOne.isDestroying = life.isDestroying := by
  cases life <;> rfl

@[simp] theorem Life.eraseOne_eq_alive (life : Life) : life.eraseOne = .alive ↔ life = .alive := by
  cases life <;> simp [eraseOne]

structure Node where
  life : Life
  canSubscribe : Bool
  subscribed : List ChannelId
  callbacks : ChannelId → Option SubscriptionInfo
  /-- The threads inside a call of `Subscribe` on the node. -/
  callers : List ThreadId
  /-- History: the subscriptions asked for, in the order in which they got the lock. -/
  requests : List (ChannelId × SubscriptionInfo)

def Node.none : Node where
  life := .absent
  canSubscribe := false
  subscribed := []
  callbacks := fun _ => .none
  callers := []
  requests := []

/-- The channels of `subscribed_` that `~CRNode` has not come to. -/
def Node.remaining (node : Node) : List ChannelId :=
  match node.life with
  | .destroying erased => node.subscribed.drop erased
  | _ => node.subscribed

inductive Pc
  | idle
  -- CRNode::SubscribeImpl
  | subscribeLock (n : NodeId) (c : ChannelId) (info : SubscriptionInfo)
  | subscribe (n : NodeId) (c : ChannelId) (info : SubscriptionInfo)
  | pushBack (n : NodeId) (c : ChannelId) (info : SubscriptionInfo)
  | emplace (n : NodeId) (c : ChannelId) (info : SubscriptionInfo)
  | subscribeUnlock (n : NodeId)
  -- CRMessageBase::Dispatch
  | dispatchLock (c : ChannelId) (m : MessageId)
  | walk (c : ChannelId) (m : MessageId) (i : ℕ)
  -- CRNode::~CRNode, CRMessageBase::Unsubscribe
  | unsubscribeLock (n : NodeId)
  | erase (n : NodeId)
  | unsubscribeUnlock (n : NodeId)
  deriving DecidableEq

structure State where
  /-- `SubscriptionMutex()`: its exclusive holder and its shared holders. -/
  exclusive : Option ThreadId
  readers : List ThreadId
  pc : ThreadId → Pc
  /-- `sub_list_` of each channel in `map_`; a channel that is not in it has none. -/
  subList : ChannelId → List NodeId
  node : NodeId → Node
  /-- History of each thread's dispatch: who was subscribed when it got the lock, and whom it has
  handed the message, with which callback. -/
  subscribers : ThreadId → NodeId → Bool
  handed : ThreadId → List (NodeId × SubscriptionInfo)

def initial : State where
  exclusive := none
  readers := []
  pc := fun _ => .idle
  subList := fun _ => []
  node := fun _ => .none
  subscribers := fun _ _ => false
  handed := fun _ => []

namespace State

def setPc (s : State) (t : ThreadId) (p : Pc) : State :=
  { s with pc := Function.update s.pc t p }

def setNode (s : State) (n : NodeId) (node : Node) : State :=
  { s with node := Function.update s.node n node }

def setSubList (s : State) (c : ChannelId) (l : List NodeId) : State :=
  { s with subList := Function.update s.subList c l }

end State

inductive Action
  | construct (n : NodeId) (canSubscribe : Bool)
  -- CRNode::SubscribeImpl
  | callSubscribe (t : ThreadId) (n : NodeId) (c : ChannelId) (info : SubscriptionInfo)
  | lockSubscribe (t : ThreadId) (n : NodeId) (c : ChannelId) (info : SubscriptionInfo)
  | subscribe (t : ThreadId) (n : NodeId) (c : ChannelId) (info : SubscriptionInfo)
  | pushBack (t : ThreadId) (n : NodeId) (c : ChannelId) (info : SubscriptionInfo)
  | emplace (t : ThreadId) (n : NodeId) (c : ChannelId) (info : SubscriptionInfo)
  | unlockSubscribe (t : ThreadId) (n : NodeId)
  -- CRNode::Publish
  | publish (t : ThreadId) (c : ChannelId) (m : MessageId)
  | lockDispatch (t : ThreadId) (c : ChannelId) (m : MessageId)
  | addMessageToRunner (t : ThreadId) (c : ChannelId) (m : MessageId) (i : ℕ) (n : NodeId)
  | unlockDispatch (t : ThreadId) (c : ChannelId) (m : MessageId) (i : ℕ)
  -- CRNode::~CRNode
  | destroy (t : ThreadId) (n : NodeId)
  | lockUnsubscribe (t : ThreadId) (n : NodeId)
  | erase (t : ThreadId) (n : NodeId) (c : ChannelId)
  | unlockUnsubscribe (t : ThreadId) (n : NodeId)
  | endDestroy (t : ThreadId) (n : NodeId)
  deriving DecidableEq

/-- When an action may be taken. A thread may only call a node that exists and is not being
destroyed, and a node may only be destroyed when no call of it is left. -/
def Enabled (s : State) : Action → Prop
  | .construct n _ => (s.node n).life = .absent
  | .callSubscribe t n _ _ => s.pc t = .idle ∧ (s.node n).life = .alive
  | .lockSubscribe t n c info =>
    s.pc t = .subscribeLock n c info ∧ s.exclusive = none ∧ s.readers = []
  -- the CHECK ends the process otherwise
  | .subscribe t n c info => s.pc t = .subscribe n c info ∧ (s.node n).canSubscribe = true
  | .pushBack t n c info => s.pc t = .pushBack n c info
  | .emplace t n c info => s.pc t = .emplace n c info
  | .unlockSubscribe t n => s.pc t = .subscribeUnlock n
  | .publish t _ _ => s.pc t = .idle
  | .lockDispatch t c m => s.pc t = .dispatchLock c m ∧ s.exclusive = none
  | .addMessageToRunner t c m i n => s.pc t = .walk c m i ∧ (s.subList c)[i]? = some n
  | .unlockDispatch t c m i => s.pc t = .walk c m i ∧ (s.subList c).length ≤ i
  | .destroy t n => s.pc t = .idle ∧ (s.node n).life = .alive ∧ (s.node n).callers = []
  | .lockUnsubscribe t n =>
    s.pc t = .unsubscribeLock n ∧ (s.node n).remaining ≠ [] ∧ s.exclusive = none ∧ s.readers = []
  | .erase t n c => s.pc t = .erase n ∧ (s.node n).remaining.head? = some c
  | .unlockUnsubscribe t n => s.pc t = .unsubscribeUnlock n
  | .endDestroy t n => s.pc t = .unsubscribeLock n ∧ (s.node n).remaining = []

instance (s : State) : (a : Action) → Decidable (Enabled s a)
  | .construct _ _ | .pushBack _ _ _ _ | .emplace _ _ _ _ | .unlockSubscribe _ _ | .publish _ _ _
  | .unlockUnsubscribe _ _ => inferInstanceAs (Decidable (_ = _))
  | .callSubscribe _ _ _ _ | .lockSubscribe _ _ _ _ | .subscribe _ _ _ _ | .lockDispatch _ _ _
  | .addMessageToRunner _ _ _ _ _ | .unlockDispatch _ _ _ _ | .destroy _ _ | .lockUnsubscribe _ _
  | .erase _ _ _ | .endDestroy _ _ => inferInstanceAs (Decidable (_ ∧ _))

/-- `SubscriptionMap::Subscribe` -/
def subscribe (s : State) (t : ThreadId) (n : NodeId) (c : ChannelId) (info : SubscriptionInfo) :
    State :=
  if n ∈ s.subList c then s.setPc t (.subscribeUnlock n)
  else (s.setSubList c (s.subList c ++ [n])).setPc t (.pushBack n c info)

/-- `CRNode::GetSubscriptionInfo`, and the job it makes. -/
def addMessageToRunner (s : State) (t : ThreadId) (n : NodeId) (c : ChannelId) : State :=
  match (s.node n).callbacks c with
  | none => s
  | some info => { s with handed := Function.update s.handed t (s.handed t ++ [(n, info)]) }

def next (s : State) : Action → State
  | .construct n canSubscribe =>
    s.setNode n { Node.none with life := .alive, canSubscribe := canSubscribe }
  | .callSubscribe t n c info =>
    (s.setNode n { s.node n with callers := t :: (s.node n).callers }).setPc t
      (.subscribeLock n c info)
  | .lockSubscribe t n c info => { s.setPc t (.subscribe n c info) with exclusive := some t }
  | .subscribe t n c info =>
    subscribe (s.setNode n { s.node n with requests := (s.node n).requests ++ [(c, info)] }) t n c
      info
  | .pushBack t n c info =>
    (s.setNode n { s.node n with subscribed := (s.node n).subscribed ++ [c] }).setPc t
      (.emplace n c info)
  | .emplace t n c info =>
    (s.setNode n
      { s.node n with
        callbacks := Function.update (s.node n).callbacks c ((s.node n).callbacks c <|> some info)
      }).setPc t (.subscribeUnlock n)
  | .unlockSubscribe t n =>
    { (s.setNode n { s.node n with callers := (s.node n).callers.filter (· ≠ t) }).setPc t .idle with
      exclusive := none }
  | .publish t c m => s.setPc t (.dispatchLock c m)
  | .lockDispatch t c m =>
    { s.setPc t (.walk c m 0) with
      readers := t :: s.readers
      subscribers := Function.update s.subscribers t fun n => decide (c ∈ (s.node n).remaining)
      handed := Function.update s.handed t [] }
  | .addMessageToRunner t c m i n => (addMessageToRunner s t n c).setPc t (.walk c m (i + 1))
  | .unlockDispatch t _ _ _ => { s.setPc t .idle with readers := s.readers.filter (· ≠ t) }
  | .destroy t n =>
    (s.setNode n { s.node n with life := .destroying 0 }).setPc t (.unsubscribeLock n)
  | .lockUnsubscribe t n => { s.setPc t (.erase n) with exclusive := some t }
  | .erase t n c =>
    ((s.setSubList c ((s.subList c).filter (· ≠ n))).setNode n
      { s.node n with life := (s.node n).life.eraseOne }).setPc t (.unsubscribeUnlock n)
  | .unlockUnsubscribe t n => { s.setPc t (.unsubscribeLock n) with exclusive := none }
  | .endDestroy t n => (s.setNode n .none).setPc t .idle

def step (s : State) (a : Action) : Option State :=
  if Enabled s a then some (next s a) else none

def system : TransitionSystem State Action where
  init s := s = initial
  step := step

theorem step_eq_some {s t : State} {a : Action} :
    system.step s a = some t ↔ Enabled s a ∧ next s a = t := by
  change (if Enabled s a then some (next s a) else none) = some t ↔ _
  split_ifs with h <;> simp [h]

/-- Inside a section that `SubscriptionWriteLock()` or `SubscriptionReadLock()` opened. -/
def Pc.writes : Pc → Bool
  | .subscribe _ _ _ | .pushBack _ _ _ | .emplace _ _ _ | .subscribeUnlock _ | .erase _
  | .unsubscribeUnlock _ => true
  | _ => false

def Pc.reads : Pc → Bool
  | .walk _ _ _ => true
  | _ => false

/-- The node a thread is calling `Subscribe` on. -/
def Pc.subscribing : Pc → Option NodeId
  | .subscribeLock n _ _ | .subscribe n _ _ | .pushBack n _ _ | .emplace n _ _
  | .subscribeUnlock n => some n
  | _ => none

def Pc.destroying : Pc → Option NodeId
  | .unsubscribeLock n | .erase n | .unsubscribeUnlock n => some n
  | _ => none

/-- Who takes a step. -/
def Action.thread : Action → Option ThreadId
  | .construct _ _ => none
  | .callSubscribe t _ _ _ | .lockSubscribe t _ _ _ | .subscribe t _ _ _ | .pushBack t _ _ _
  | .emplace t _ _ _ | .unlockSubscribe t _ | .publish t _ _ | .lockDispatch t _ _
  | .addMessageToRunner t _ _ _ _ | .unlockDispatch t _ _ _ | .destroy t _ | .lockUnsubscribe t _
  | .erase t _ _ | .unlockUnsubscribe t _ | .endDestroy t _ => some t

def Action.changesList : Action → Bool
  | .subscribe _ _ _ _ | .erase _ _ _ => true
  | _ => false

/-- The mutex belongs to one writer or to any number of readers. -/
structure LockOk (s : State) : Prop where
  exclusive : ∀ t, s.exclusive = some t ↔ (s.pc t).writes = true
  readers : ∀ t, t ∈ s.readers ↔ (s.pc t).reads = true
  disjoint : s.exclusive ≠ none → s.readers = []

/-- Nobody subscribes a node that is not alive, and at most one thread destroys a node. -/
structure CallsOk (s : State) : Prop where
  subscribing : ∀ t n, (s.pc t).subscribing = some n → t ∈ (s.node n).callers
  callers : ∀ n, (s.node n).callers ≠ [] → (s.node n).life = .alive
  destroying : ∀ t n, (s.pc t).destroying = some n → (s.node n).life.isDestroying = true
  unique : ∀ t u n, (s.pc t).destroying = some n → (s.pc u).destroying = some n → t = u

section Steps
variable {s s' : State} {a : Action} {t : ThreadId} {n : NodeId} {p : Pc}

/-- What a thread's step does not change about its place holds of all threads. -/
theorem apply_update {β : Type} (f : Pc → β) (hpc : s'.pc = Function.update s.pc t p)
    (hp : f p = f (s.pc t)) (u : ThreadId) : f (s'.pc u) = f (s.pc u) := by
  rw [hpc, Function.update_apply]
  split_ifs with hut
  · rw [hut, hp]
  · rfl

theorem lockOk_initial : LockOk initial := by
  constructor <;> simp [initial, Pc.writes, Pc.reads]

namespace LockOk

/-- A step inside or outside of the locked sections. -/
theorem move (h : LockOk s) (hpc : s'.pc = Function.update s.pc t p)
    (hw : p.writes = (s.pc t).writes) (hr : p.reads = (s.pc t).reads)
    (hx : s'.exclusive = s.exclusive) (hs : s'.readers = s.readers) : LockOk s' where
  exclusive u := by rw [hx, h.exclusive, apply_update Pc.writes hpc hw]
  readers u := by rw [hs, h.readers, apply_update Pc.reads hpc hr]
  disjoint := by rw [hx, hs]; exact h.disjoint

theorem acquire (h : LockOk s) (hpc : s'.pc = Function.update s.pc t p) (hw : p.writes = true)
    (hr : p.reads = (s.pc t).reads) (hfree : s.exclusive = none) (hnone : s.readers = [])
    (hx : s'.exclusive = some t) (hs : s'.readers = s.readers) : LockOk s' where
  exclusive u := by
    rw [hx, hpc, Function.update_apply]
    split_ifs with hut
    · simp [hut, hw]
    · have hold := h.exclusive u
      rw [hfree] at hold
      simpa [Ne.symm hut] using hold
  readers u := by rw [hs, h.readers, apply_update Pc.reads hpc hr]
  disjoint _ := hs.trans hnone

theorem release (h : LockOk s) (hpc : s'.pc = Function.update s.pc t p)
    (hheld : (s.pc t).writes = true) (hw : p.writes = false) (hr : p.reads = (s.pc t).reads)
    (hx : s'.exclusive = none) (hs : s'.readers = s.readers) : LockOk s' where
  exclusive u := by
    rw [hx, hpc, Function.update_apply]
    split_ifs with hut
    · simp [hw]
    · have hold := h.exclusive u
      rw [(h.exclusive t).mpr hheld] at hold
      simpa [Ne.symm hut] using hold
  readers u := by rw [hs, h.readers, apply_update Pc.reads hpc hr]
  disjoint hne := absurd hx hne

theorem share (h : LockOk s) (hpc : s'.pc = Function.update s.pc t p)
    (hw : p.writes = (s.pc t).writes) (hr : p.reads = true) (hfree : s.exclusive = none)
    (hx : s'.exclusive = s.exclusive) (hs : s'.readers = t :: s.readers) : LockOk s' where
  exclusive u := by rw [hx, h.exclusive, apply_update Pc.writes hpc hw]
  readers u := by
    rw [hs, hpc, Function.update_apply, List.mem_cons]
    split_ifs with hut
    · simp [hut, hr]
    · simp [hut, h.readers]
  disjoint hne := absurd (hx.trans hfree) hne

theorem unshare (h : LockOk s) (hpc : s'.pc = Function.update s.pc t p)
    (hw : p.writes = (s.pc t).writes) (hr : p.reads = false) (hx : s'.exclusive = s.exclusive)
    (hs : s'.readers = s.readers.filter (· ≠ t)) : LockOk s' where
  exclusive u := by rw [hx, h.exclusive, apply_update Pc.writes hpc hw]
  readers u := by
    rw [hs, hpc, Function.update_apply, List.mem_filter]
    split_ifs with hut
    · simp [hut, hr]
    · simp [hut, h.readers]
  disjoint hne := by
    rw [hs, h.disjoint (hx ▸ hne)]
    rfl

end LockOk

theorem lockOk_step (he : Enabled s a) (h : LockOk s) : LockOk (next s a) := by
  cases a with
  | construct n canSubscribe => exact ⟨h.exclusive, h.readers, h.disjoint⟩
  | subscribe t n c info =>
    simp only [next, subscribe]
    split <;> exact h.move rfl (by rw [he.1]; rfl) (by rw [he.1]; rfl) rfl rfl
  | addMessageToRunner t c m i n =>
    simp only [next, addMessageToRunner]
    split <;> exact h.move rfl (by rw [he.1]; rfl) (by rw [he.1]; rfl) rfl rfl
  | lockSubscribe t n c info =>
    exact h.acquire rfl rfl (by rw [he.1]; rfl) he.2.1 he.2.2 rfl rfl
  | lockUnsubscribe t n =>
    exact h.acquire rfl rfl (by rw [he.1]; rfl) he.2.2.1 he.2.2.2 rfl rfl
  | unlockSubscribe t n | unlockUnsubscribe t n =>
    exact h.release rfl (by rw [he]; rfl) rfl (by rw [he]; rfl) rfl rfl
  | lockDispatch t c m => exact h.share rfl (by rw [he.1]; rfl) rfl he.2 rfl rfl
  | unlockDispatch t c m i => exact h.unshare rfl (by rw [he.1]; rfl) rfl rfl rfl
  | callSubscribe t n c info | destroy t n | erase t n c | endDestroy t n =>
    exact h.move rfl (by rw [he.1]; rfl) (by rw [he.1]; rfl) rfl rfl
  | pushBack t n c info | emplace t n c info | publish t c m =>
    exact h.move rfl (by rw [he]; rfl) (by rw [he]; rfl) rfl rfl

theorem callsOk_initial : CallsOk initial := by
  constructor <;> simp [initial, Pc.subscribing, Pc.destroying, Node.none]

namespace CallsOk

/-- Nobody is inside a call of `Subscribe` on a node that is being destroyed. -/
theorem callers_eq_nil (h : CallsOk s) (hn : (s.node n).life.isDestroying = true) :
    (s.node n).callers = [] := by
  by_contra hc
  rw [h.callers n hc] at hn
  cases hn

theorem not_subscribing (h : CallsOk s) (hn : (s.node n).callers = []) (u : ThreadId) :
    (s.pc u).subscribing ≠ some n := by
  intro hu
  have hmem := h.subscribing u n hu
  rw [hn] at hmem
  cases hmem

theorem not_destroying (h : CallsOk s) (hn : (s.node n).life.isDestroying = false)
    (u : ThreadId) : (s.pc u).destroying ≠ some n := by
  intro hu
  rw [h.destroying u n hu] at hn
  cases hn

/-- A step that neither enters nor leaves a call, and neither begins nor ends a node. -/
theorem move (h : CallsOk s) (hpc : s'.pc = Function.update s.pc t p)
    (hs : p.subscribing = (s.pc t).subscribing) (hd : p.destroying = (s.pc t).destroying)
    (hcallers : ∀ n, (s'.node n).callers = (s.node n).callers)
    (halive : ∀ n, (s.node n).life = .alive → (s'.node n).life = .alive)
    (hlife : ∀ n, (s'.node n).life.isDestroying = (s.node n).life.isDestroying) :
    CallsOk s' where
  subscribing u n hu := by
    rw [apply_update Pc.subscribing hpc hs] at hu
    rw [hcallers]
    exact h.subscribing u n hu
  callers n hn := halive n (h.callers n (hcallers n ▸ hn))
  destroying u n hu := by
    rw [apply_update Pc.destroying hpc hd] at hu
    rw [hlife]
    exact h.destroying u n hu
  unique u v n hu hv := by
    rw [apply_update Pc.destroying hpc hd] at hu hv
    exact h.unique u v n hu hv

/-- The same, when one node keeps its callers and its stage of life. -/
theorem move_node {node : Node} (h : CallsOk s) (hpc : s'.pc = Function.update s.pc t p)
    (hs : p.subscribing = (s.pc t).subscribing) (hd : p.destroying = (s.pc t).destroying)
    (hnode : s'.node = Function.update s.node n node) (hcallers : node.callers = (s.node n).callers)
    (halive : (s.node n).life = .alive → node.life = .alive)
    (hlife : node.life.isDestroying = (s.node n).life.isDestroying) : CallsOk s' := by
  refine h.move hpc hs hd (fun k => ?_) (fun k => ?_) (fun k => ?_) <;>
    rw [hnode, Function.update_apply] <;> split_ifs with hk
  · rw [hk, hcallers]
  · rfl
  · rw [hk]
    exact halive
  · exact id
  · rw [hk, hlife]
  · rfl

end CallsOk

theorem callsOk_construct {canSubscribe : Bool} (he : Enabled s (.construct n canSubscribe))
    (h : CallsOk s) : CallsOk (next s (.construct n canSubscribe)) := by
  have habsent : (s.node n).life = .absent := he
  have hcallers : (s.node n).callers = [] := by
    by_contra hc
    rw [h.callers n hc] at habsent
    cases habsent
  have hdead : (s.node n).life.isDestroying = false := by rw [habsent]; rfl
  have hother {k : NodeId} (hk : k ≠ n) :
      (next s (.construct n canSubscribe)).node k = s.node k := Function.update_of_ne hk _ _
  have hself : (next s (.construct n canSubscribe)).node n =
      { Node.none with life := .alive, canSubscribe := canSubscribe } := Function.update_self _ _ _
  refine ⟨fun u k hu => ?_, fun k hk => ?_, fun u k hu => ?_, fun u v k => h.unique u v k⟩
  · have hkn : k ≠ n := fun hk => h.not_subscribing hcallers u (hk ▸ hu)
    rw [hother hkn]
    exact h.subscribing u k hu
  · by_cases hkn : k = n
    · rw [hkn, hself]
    · rw [hother hkn] at hk ⊢
      exact h.callers k hk
  · have hkn : k ≠ n := fun hk => h.not_destroying hdead u (hk ▸ hu)
    rw [hother hkn]
    exact h.destroying u k hu

theorem callsOk_callSubscribe {c : ChannelId} {info : SubscriptionInfo}
    (he : Enabled s (.callSubscribe t n c info)) (h : CallsOk s) :
    CallsOk (next s (.callSubscribe t n c info)) := by
  have hpc : (next s (.callSubscribe t n c info)).pc =
      Function.update s.pc t (.subscribeLock n c info) := rfl
  have hself : (next s (.callSubscribe t n c info)).node n =
      { s.node n with callers := t :: (s.node n).callers } := Function.update_self _ _ _
  have hother {k : NodeId} (hk : k ≠ n) :
      (next s (.callSubscribe t n c info)).node k = s.node k := Function.update_of_ne hk _ _
  have hd : (Pc.subscribeLock n c info).destroying = (s.pc t).destroying := by rw [he.1]; rfl
  refine ⟨fun u k hu => ?_, fun k hk => ?_, fun u k hu => ?_, fun u v k hu hv => ?_⟩
  · rw [hpc, Function.update_apply] at hu
    split_ifs at hu with hut
    · cases hu
      rw [hself, hut]
      exact List.mem_cons_self
    · have hmem := h.subscribing u k hu
      by_cases hkn : k = n
      · subst hkn
        rw [hself]
        exact List.mem_cons_of_mem _ hmem
      · rwa [hother hkn]
  · by_cases hkn : k = n
    · rw [hkn, hself]
      exact he.2
    · rw [hother hkn] at hk ⊢
      exact h.callers k hk
  · rw [apply_update Pc.destroying hpc hd] at hu
    have hlife := h.destroying u k hu
    by_cases hkn : k = n
    · subst hkn
      rwa [hself]
    · rwa [hother hkn]
  · rw [apply_update Pc.destroying hpc hd] at hu hv
    exact h.unique u v k hu hv

theorem callsOk_unlockSubscribe (he : Enabled s (.unlockSubscribe t n)) (h : CallsOk s) :
    CallsOk (next s (.unlockSubscribe t n)) := by
  have he : s.pc t = .subscribeUnlock n := he
  have hpc : (next s (.unlockSubscribe t n)).pc = Function.update s.pc t .idle := rfl
  have hself : (next s (.unlockSubscribe t n)).node n =
      { s.node n with callers := (s.node n).callers.filter (· ≠ t) } := Function.update_self _ _ _
  have hother {k : NodeId} (hk : k ≠ n) :
      (next s (.unlockSubscribe t n)).node k = s.node k := Function.update_of_ne hk _ _
  have hd : Pc.idle.destroying = (s.pc t).destroying := by rw [he]; rfl
  refine ⟨fun u k hu => ?_, fun k hk => ?_, fun u k hu => ?_, fun u v k hu hv => ?_⟩
  · rw [hpc, Function.update_apply] at hu
    split_ifs at hu with hut
    · cases hu
    · have hmem := h.subscribing u k hu
      by_cases hkn : k = n
      · subst hkn
        rw [hself]
        exact List.mem_filter.mpr ⟨hmem, by simpa using hut⟩
      · rwa [hother hkn]
  · by_cases hkn : k = n
    · subst hkn
      rw [hself] at hk ⊢
      refine h.callers k fun hnil => hk ?_
      change (s.node k).callers.filter (· ≠ t) = []
      rw [hnil]
      rfl
    · rw [hother hkn] at hk ⊢
      exact h.callers k hk
  · rw [apply_update Pc.destroying hpc hd] at hu
    have hlife := h.destroying u k hu
    by_cases hkn : k = n
    · subst hkn
      rwa [hself]
    · rwa [hother hkn]
  · rw [apply_update Pc.destroying hpc hd] at hu hv
    exact h.unique u v k hu hv

theorem callsOk_destroy (he : Enabled s (.destroy t n)) (h : CallsOk s) :
    CallsOk (next s (.destroy t n)) := by
  obtain ⟨hidle, halive, hcallers⟩ := he
  have hpc : (next s (.destroy t n)).pc = Function.update s.pc t (.unsubscribeLock n) := rfl
  have hself : (next s (.destroy t n)).node n = { s.node n with life := .destroying 0 } :=
    Function.update_self _ _ _
  have hother {k : NodeId} (hk : k ≠ n) :
      (next s (.destroy t n)).node k = s.node k := Function.update_of_ne hk _ _
  have hs : (Pc.unsubscribeLock n).subscribing = (s.pc t).subscribing := by rw [hidle]; rfl
  have hnobody := h.not_destroying (n := n) (by rw [halive]; rfl)
  refine ⟨fun u k hu => ?_, fun k hk => ?_, fun u k hu => ?_, fun u v k hu hv => ?_⟩
  · rw [apply_update Pc.subscribing hpc hs] at hu
    have hmem := h.subscribing u k hu
    by_cases hkn : k = n
    · subst hkn
      rwa [hself]
    · rwa [hother hkn]
  · by_cases hkn : k = n
    · subst hkn
      rw [hself] at hk
      exact absurd hcallers hk
    · rw [hother hkn] at hk ⊢
      exact h.callers k hk
  · by_cases hkn : k = n
    · rw [hkn, hself]
      rfl
    · rw [hpc, Function.update_apply] at hu
      rw [hother hkn]
      split_ifs at hu with hut
      · exact absurd (Option.some.inj hu).symm hkn
      · exact h.destroying u k hu
  · rw [hpc, Function.update_apply] at hu hv
    split_ifs at hu hv with hut hvt hvt
    · rw [hut, hvt]
    · cases hu
      exact absurd hv (hnobody v)
    · cases hv
      exact absurd hu (hnobody u)
    · exact h.unique u v k hu hv

theorem callsOk_endDestroy (he : Enabled s (.endDestroy t n)) (h : CallsOk s) :
    CallsOk (next s (.endDestroy t n)) := by
  have hmine : (s.pc t).destroying = some n := by rw [he.1]; rfl
  have hcallers := h.callers_eq_nil (h.destroying t n hmine)
  have hpc : (next s (.endDestroy t n)).pc = Function.update s.pc t .idle := rfl
  have hself : (next s (.endDestroy t n)).node n = .none := Function.update_self _ _ _
  have hother {k : NodeId} (hk : k ≠ n) :
      (next s (.endDestroy t n)).node k = s.node k := Function.update_of_ne hk _ _
  have hs : Pc.idle.subscribing = (s.pc t).subscribing := by rw [he.1]; rfl
  have hleft {u : ThreadId} {k : NodeId}
      (hu : ((next s (.endDestroy t n)).pc u).destroying = some k) :
      (s.pc u).destroying = some k ∧ k ≠ n := by
    rw [hpc, Function.update_apply] at hu
    split_ifs at hu with hut
    · cases hu
    · exact ⟨hu, fun hk => hut (h.unique u t n (hk ▸ hu) hmine)⟩
  refine ⟨fun u k hu => ?_, fun k hk => ?_, fun u k hu => ?_, fun u v k hu hv => ?_⟩
  · rw [apply_update Pc.subscribing hpc hs] at hu
    have hkn : k ≠ n := fun hk => h.not_subscribing hcallers u (hk ▸ hu)
    rw [hother hkn]
    exact h.subscribing u k hu
  · by_cases hkn : k = n
    · rw [hkn, hself] at hk
      exact absurd rfl hk
    · rw [hother hkn] at hk ⊢
      exact h.callers k hk
  · obtain ⟨hu, hkn⟩ := hleft hu
    rw [hother hkn]
    exact h.destroying u k hu
  · exact h.unique u v k (hleft hu).1 (hleft hv).1

theorem callsOk_step (he : Enabled s a) (h : CallsOk s) : CallsOk (next s a) := by
  cases a with
  | construct => exact callsOk_construct he h
  | callSubscribe => exact callsOk_callSubscribe he h
  | unlockSubscribe => exact callsOk_unlockSubscribe he h
  | destroy => exact callsOk_destroy he h
  | endDestroy => exact callsOk_endDestroy he h
  | subscribe t n c info =>
    simp only [next, subscribe]
    split <;>
      exact h.move_node rfl (by rw [he.1]; rfl) (by rw [he.1]; rfl) rfl rfl id rfl
  | addMessageToRunner t c m i n =>
    simp only [next, addMessageToRunner]
    split <;>
      exact h.move rfl (by rw [he.1]; rfl) (by rw [he.1]; rfl) (fun _ => rfl) (fun _ => id)
        fun _ => rfl
  | pushBack t n c info | emplace t n c info =>
    exact h.move_node rfl (by rw [he]; rfl) (by rw [he]; rfl) rfl rfl id rfl
  | erase t n c =>
    exact h.move_node rfl (by rw [he.1]; rfl) (by rw [he.1]; rfl) rfl rfl
      (Life.eraseOne_eq_alive _).mpr (Life.isDestroying_eraseOne _)
  | lockSubscribe t n c info | lockDispatch t c m | lockUnsubscribe t n
  | unlockDispatch t c m i =>
    exact h.move rfl (by rw [he.1]; rfl) (by rw [he.1]; rfl) (fun _ => rfl) (fun _ => id)
      fun _ => rfl
  | publish t c m | unlockUnsubscribe t n =>
    exact h.move rfl (by rw [he]; rfl) (by rw [he]; rfl) (fun _ => rfl) (fun _ => id)
      fun _ => rfl

theorem pc_of_ne_thread (h : a.thread ≠ some t) : (next s a).pc t = s.pc t := by
  cases a with
  | construct => rfl
  | subscribe u n c info =>
    have hut : t ≠ u := fun h' => h (congrArg some h'.symm)
    simp only [next, subscribe]
    split <;> exact Function.update_of_ne hut _ _
  | addMessageToRunner u c m i n =>
    have hut : t ≠ u := fun h' => h (congrArg some h'.symm)
    simp only [next, addMessageToRunner]
    split <;> exact Function.update_of_ne hut _ _
  | _ => exact Function.update_of_ne (fun h' => h (congrArg some h'.symm)) _ _

/-- A thread comes to walk over a list only by taking the lock for it. -/
theorem walk_of_walk_next {c : ChannelId} {m : MessageId} {i : ℕ} (he : Enabled s a)
    (h : (next s a).pc t = .walk c m i) :
    (∃ k, s.pc t = .walk c m k) ∨ a = .lockDispatch t c m := by
  by_cases ha : a.thread = some t
  case neg =>
    left
    rw [pc_of_ne_thread ha] at h
    exact ⟨i, h⟩
  case pos =>
    cases a with
    | construct k canSubscribe => cases ha
    | lockDispatch u c' m' =>
      cases ha
      simp only [next, State.setPc, Function.update_self, Pc.walk.injEq] at h
      exact .inr (by rw [h.1, h.2.1])
    | addMessageToRunner u c' m' k n' =>
      cases ha
      have hpc : (next s (.addMessageToRunner t c' m' k n')).pc t = .walk c' m' (k + 1) :=
        Function.update_self ..
      rw [hpc] at h
      cases h
      exact .inl ⟨k, he.1⟩
    | subscribe u k c' info =>
      cases ha
      have hpc : (next s (.subscribe t k c' info)).pc t = .subscribeUnlock k ∨
          (next s (.subscribe t k c' info)).pc t = .pushBack k c' info := by
        simp only [next, subscribe]
        split
        · exact .inl (Function.update_self ..)
        · exact .inr (Function.update_self ..)
      rcases hpc with hpc | hpc <;> rw [hpc] at h <;> cases h
    | _ =>
      cases ha
      simp [next, State.setPc] at h

theorem handed_next (hlock : ∀ t c m, a ≠ .lockDispatch t c m)
    (hadd : ∀ t c m i n, a ≠ .addMessageToRunner t c m i n) : (next s a).handed = s.handed := by
  cases a with
  | subscribe u n c info =>
    simp only [next, subscribe]
    split <;> rfl
  | lockDispatch u c m => exact absurd rfl (hlock u c m)
  | addMessageToRunner u c m i n => exact absurd rfl (hadd u c m i n)
  | _ => rfl

theorem subList_next (h : a.changesList = false) : (next s a).subList = s.subList := by
  cases a with
  | subscribe | erase => cases h
  | addMessageToRunner u c m i n =>
    simp only [next, addMessageToRunner]
    split <;> rfl
  | _ => rfl

/-- Only `erase` takes a node off a list. -/
theorem mem_subList_next {k : NodeId} {c : ChannelId} (h : k ∈ s.subList c)
    (ha : ∀ t, a ≠ .erase t k c) : k ∈ (next s a).subList c := by
  by_cases hw : a.changesList = true
  case neg =>
    rw [subList_next (by simpa using hw)]
    exact h
  case pos =>
    cases a with
    | subscribe u n d info =>
      simp only [next, subscribe]
      split
      · exact h
      · simp only [State.setPc, State.setNode, State.setSubList, Function.update_apply]
        split_ifs with hcd
        · exact List.mem_append_left _ (hcd ▸ h)
        · exact h
    | erase u n d =>
      simp only [next, State.setPc, State.setNode, State.setSubList, Function.update_apply]
      split_ifs with hcd
      · subst hcd
        have hne : k ≠ n := fun hkn => ha u (hkn ▸ rfl)
        simpa [hne] using h
      · exact h
    | _ => cases hw

/-- Only `subscribe` puts a node on a list. -/
theorem mem_of_mem_subList_next {k : NodeId} {c : ChannelId} (h : k ∈ (next s a).subList c) :
    k ∈ s.subList c ∨ ∃ t info, a = .subscribe t k c info := by
  by_cases hw : a.changesList = true
  case neg =>
    rw [subList_next (by simpa using hw)] at h
    exact Or.inl h
  case pos =>
    cases a with
    | subscribe u n d info =>
      simp only [next, subscribe] at h
      split at h
      · exact Or.inl h
      · simp only [State.setPc, State.setNode, State.setSubList, Function.update_apply] at h
        split_ifs at h with hcd
        · subst hcd
          rcases List.mem_append.mp h with h | h
          · exact Or.inl h
          · rw [List.mem_singleton.mp h]
            exact Or.inr ⟨u, info, rfl⟩
        · exact Or.inl h
    | erase u n d =>
      simp only [next, State.setPc, State.setNode, State.setSubList, Function.update_apply] at h
      split_ifs at h with hcd
      · exact Or.inl (hcd ▸ (List.mem_filter.mp h).1)
      · exact Or.inl h
    | _ => cases hw

/-- The lists are changed under the exclusive lock. -/
theorem exclusive_of_changesList (hl : LockOk s) (he : Enabled s a) (h : a.changesList = true) :
    s.exclusive ≠ none ∧ (next s a).exclusive ≠ none := by
  have hw {u : ThreadId} (hu : (s.pc u).writes = true) (hx : (next s a).exclusive = s.exclusive) :
      s.exclusive ≠ none ∧ (next s a).exclusive ≠ none := by
    rw [hx, (hl.exclusive u).mpr hu]
    exact ⟨nofun, nofun⟩
  cases a with
  | subscribe u n c info =>
    apply hw (u := u) (by rw [he.1]; rfl)
    simp only [next, subscribe]
    split <;> rfl
  | erase u n c => exact hw (u := u) (by rw [he.1]; rfl) rfl
  | _ => cases h

theorem isDestroying_next (ha : ∀ t, a ≠ .destroy t n)
    (h : (s.node n).life.isDestroying = false) :
    ((next s a).node n).life.isDestroying = false := by
  have hset {k : NodeId} {node : Node} (hk : k = n → node.life.isDestroying = false) :
      (Function.update s.node k node n).life.isDestroying = false := by
    rw [Function.update_apply]
    split_ifs with hnk
    · exact hk hnk.symm
    · exact h
  cases a with
  | subscribe u k c info =>
    have hnode : ((next s (.subscribe u k c info)).node) = Function.update s.node k
        { s.node k with requests := (s.node k).requests ++ [(c, info)] } := by
      simp only [next, subscribe]
      split <;> rfl
    rw [hnode]
    exact hset fun hk => by rw [hk]; exact h
  | addMessageToRunner u c m i k =>
    simp only [next, addMessageToRunner]
    split <;> exact h
  | destroy u k => exact hset fun hk => absurd (hk ▸ rfl) (ha u)
  | construct k _ | endDestroy u k => exact hset fun _ => rfl
  | callSubscribe u k | pushBack u k | emplace u k | unlockSubscribe u k | erase u k =>
    refine hset fun hk => ?_
    simpa [hk] using h
  | lockSubscribe | publish | lockDispatch | unlockDispatch | lockUnsubscribe
  | unlockUnsubscribe => exact h

/-- The first subscription of a node for a channel is asked for once. -/
theorem lookup_requests_next {c : ChannelId} {info : SubscriptionInfo}
    (h : ((next s a).node n).requests.lookup c = some info) :
    (s.node n).requests.lookup c = some info ∨
      ((∃ t, a = .subscribe t n c info) ∧ (s.node n).requests.lookup c = none) := by
  -- the node that a step changes keeps its requests, or it has none afterwards
  have hset {k : NodeId} {node : Node} (hk : k = n → node.requests = (s.node n).requests)
      (hn : (Function.update s.node k node n).requests.lookup c = some info) :
      (s.node n).requests.lookup c = some info := by
    rw [Function.update_apply] at hn
    split_ifs at hn with hnk
    · rwa [hk hnk.symm] at hn
    · exact hn
  have hnone {k : NodeId} {node : Node} (hk : node.requests = [])
      (hn : (Function.update s.node k node n).requests.lookup c = some info) :
      (s.node n).requests.lookup c = some info := by
    rw [Function.update_apply] at hn
    split_ifs at hn with hnk
    · rw [hk] at hn
      cases hn
    · exact hn
  cases a with
  | subscribe u k c' info' =>
    have hnode : ((next s (.subscribe u k c' info')).node) = Function.update s.node k
        { s.node k with requests := (s.node k).requests ++ [(c', info')] } := by
      simp only [next, subscribe]
      split <;> rfl
    rw [hnode, Function.update_apply] at h
    split_ifs at h with hnk
    · -- the new request comes last, so that an earlier one for the channel is found first
      subst hnk
      rw [List.lookup_append, Option.or_eq_some_iff] at h
      refine h.imp id fun ⟨hold, hnew⟩ => ⟨⟨u, ?_⟩, hold⟩
      rw [List.lookup_cons] at hnew
      split at hnew
      · next hcc =>
        rw [eq_of_beq hcc, Option.some.inj hnew]
      · cases hnew
    · exact Or.inl h
  | addMessageToRunner u c' m i k =>
    simp only [next, addMessageToRunner] at h
    split at h <;> exact Or.inl h
  | construct k _ | endDestroy u k => exact Or.inl (hnone rfl h)
  | callSubscribe u k | pushBack u k | emplace u k | unlockSubscribe u k | erase u k
  | destroy u k => exact Or.inl (hset (fun hk => by rw [hk]) h)
  | lockSubscribe | publish | lockDispatch | unlockDispatch | lockUnsubscribe
  | unlockUnsubscribe => exact Or.inl h

end Steps
end CrisCore.SubscriptionRegistry
