import CrisCore.SubscriptionRegistry
import Mathlib.Data.List.Nodup

/-! One subscription is stored three times: in `sub_list_`, in `subscribed_` and in `callbacks_`.
How the three agree, and what a dispatch that walks `sub_list_` does. -/
namespace CrisCore.SubscriptionRegistry

/-- How far `SubscribeImpl` has come with one channel of one node. -/
inductive Stage
  | settled
  | listed (info : SubscriptionInfo)
  | recorded (info : SubscriptionInfo)
  deriving DecidableEq

def Pc.stage (p : Pc) (n : NodeId) (c : ChannelId) : Stage :=
  match p with
  | .pushBack n' c' info => if n' = n ∧ c' = c then .listed info else .settled
  | .emplace n' c' info => if n' = n ∧ c' = c then .recorded info else .settled
  | _ => .settled

def State.stage (s : State) (n : NodeId) (c : ChannelId) : Stage :=
  match s.exclusive with
  | none => .settled
  | some t => (s.pc t).stage n c

/-- What a node has stored for a channel, given whether `sub_list_` has the node. -/
def Linked (stage : Stage) (listed : Prop) (node : Node) (c : ChannelId) : Prop :=
  match stage with
  | .settled => (listed ↔ c ∈ node.remaining) ∧
      (c ∈ node.subscribed ↔ (node.callbacks c).isSome = true) ∧
      node.callbacks c = node.requests.lookup c
  | .listed info => listed ∧ node.life = .alive ∧ c ∉ node.subscribed ∧
      node.callbacks c = none ∧ node.requests.lookup c = some info
  | .recorded info => listed ∧ node.life = .alive ∧ c ∈ node.subscribed ∧
      node.callbacks c = none ∧ node.requests.lookup c = some info

/-- The three copies of the relation agree. -/
structure Registered (s : State) : Prop where
  absent : ∀ n, (s.node n).life = .absent → s.node n = .none
  nodup : ∀ n, (s.node n).subscribed.Nodup
  listNodup : ∀ c, (s.subList c).Nodup
  linked : ∀ n c, Linked (s.stage n c) (n ∈ s.subList c) (s.node n) c

section Steps
variable {s t : State} {a : Action} {i : ThreadId} {n : NodeId} {c : ChannelId}

theorem registered_initial : Registered initial := by
  constructor <;> simp [initial, Node.none, State.stage, Linked, Node.remaining]

theorem stage_of_holder (hl : LockOk s) (hw : (s.pc i).writes = true) :
    s.stage n c = (s.pc i).stage n c := by
  simp only [State.stage, (hl.exclusive i).mpr hw]

theorem stage_of_unlocked (h : s.exclusive = none) : s.stage n c = .settled := by
  simp only [State.stage, h]

/-- A thread without the lock changes nobody's stage. -/
theorem stage_frame (hl : LockOk s) (hw : (s.pc i).writes = false)
    (hx : t.exclusive = s.exclusive) (hp : ∀ u, u ≠ i → t.pc u = s.pc u) :
    t.stage n c = s.stage n c := by
  simp only [State.stage, hx]
  cases he : s.exclusive with
  | none => rfl
  | some u =>
    have hu : u ≠ i := by
      rintro rfl
      rw [(hl.exclusive u).mp he] at hw
      cases hw
    simp only [hp u hu]

/-- A step that changes one node, and the list of one channel by that node only. -/
theorem Registered.of_node (h : Registered s) (n : NodeId)
    (hnode : ∀ n', n' ≠ n → t.node n' = s.node n')
    (hlist : ∀ c n', n' ≠ n → (n' ∈ t.subList c ↔ n' ∈ s.subList c))
    (hstage : ∀ n' c, n' ≠ n → t.stage n' c = s.stage n' c)
    (habsent : (t.node n).life = .absent → t.node n = .none)
    (hnodup : (t.node n).subscribed.Nodup) (hlistNodup : ∀ c, (t.subList c).Nodup)
    (hlinked : ∀ c, Linked (t.stage n c) (n ∈ t.subList c) (t.node n) c) : Registered t := by
  refine ⟨fun n' => ?_, fun n' => ?_, hlistNodup, fun n' c => ?_⟩ <;> by_cases hn : n' = n
  · exact hn ▸ habsent
  · rw [hnode n' hn]
    exact h.absent n'
  · exact hn ▸ hnodup
  · rw [hnode n' hn]
    exact h.nodup n'
  · exact hn ▸ hlinked c
  · have hold := h.linked n' c
    rw [hstage n' c hn, hnode n' hn]
    simpa only [Linked, hlist c n' hn] using hold

/-- Nothing that the relation is made of has changed. -/
theorem Registered.frame (h : Registered s) (hst : ∀ n c, t.stage n c = s.stage n c)
    (hlist : t.subList = s.subList) (hnode : t.node = s.node) : Registered t where
  absent := hnode ▸ h.absent
  nodup := hnode ▸ h.nodup
  listNodup := hlist ▸ h.listNodup
  linked n c := by
    rw [hst, hlist, hnode]
    exact h.linked n c

/-- Nor by a change of who is calling. -/
theorem Linked.congr_node {stage : Stage} {listed : Prop} {node node' : Node}
    (h : Linked stage listed node c) (hlife : node'.life = node.life)
    (hsub : node'.subscribed = node.subscribed) (hcall : node'.callbacks = node.callbacks)
    (hreq : node'.requests = node.requests) : Linked stage listed node' c := by
  simpa only [Linked, Node.remaining, hlife, hsub, hcall, hreq] using h

theorem remaining_of_alive {node : Node} (h : node.life = .alive) :
    node.remaining = node.subscribed := by
  simp only [Node.remaining, h]

theorem alive_of_subscribing (hc : CallsOk s) (h : (s.pc i).subscribing = some n) :
    (s.node n).life = .alive :=
  hc.callers n (List.ne_nil_of_mem (hc.subscribing i n h))

/-- `SubscribeImpl` is only half done for nodes that somebody is subscribing. -/
theorem stage_of_no_callers (hc : CallsOk s) (hn : (s.node n).callers = []) :
    s.stage n c = .settled := by
  have hno (u : ThreadId) : (s.pc u).subscribing ≠ some n := by
    intro hu
    have hmem := hc.subscribing u n hu
    rw [hn] at hmem
    cases hmem
  unfold State.stage
  cases s.exclusive with
  | none => rfl
  | some u =>
    have hu := hno u
    simp only
    cases hp : s.pc u with
    | pushBack n' _ _ | emplace n' _ _ =>
      have hne : n' ≠ n := by
        rintro rfl
        rw [hp] at hu
        exact hu rfl
      simp only [Pc.stage, hne, false_and, if_false]
    | _ => rfl

theorem lookup_append_singleton (l : List (ChannelId × SubscriptionInfo)) (c d : ChannelId)
    (info : SubscriptionInfo) :
    (l ++ [(c, info)]).lookup d = (l.lookup d).or (if d = c then some info else none) := by
  rw [List.lookup_append]
  congr 1
  by_cases hdc : d = c
  · simp [hdc]
  · simp [List.lookup_cons, beq_false_of_ne hdc, hdc]

theorem stage_of_subscribe {info : SubscriptionInfo} (hl : LockOk s)
    (hp : s.pc i = .subscribe n c info) (n' : NodeId) (c' : ChannelId) :
    s.stage n' c' = .settled := by
  rw [stage_of_holder hl (i := i) (by rw [hp]; rfl), hp]
  rfl

/-- A step of `SubscribeImpl` under the lock: one node stores something else for one channel. -/
theorem Registered.of_subscribing (h : Registered s) (hx : s.exclusive = some i) {node : Node}
    {p : Pc} {before after : Stage}
    (hbefore : ∀ n' c', s.stage n' c' = if n = n' ∧ c = c' then before else .settled)
    (hafter : ∀ n' c', p.stage n' c' = if n = n' ∧ c = c' then after else .settled)
    (halive : node.life = .alive) (hnodup : node.subscribed.Nodup)
    (hother : ∀ c', c' ≠ c → Linked .settled (n ∈ s.subList c') (s.node n) c' →
      Linked .settled (n ∈ s.subList c') node c')
    (hlinked : Linked after (n ∈ s.subList c) node c) :
    Registered ((s.setNode n node).setPc i p) := by
  have hstage (n' : NodeId) (c' : ChannelId) : ((s.setNode n node).setPc i p).stage n' c' =
      if n = n' ∧ c = c' then after else .settled := by
    simp only [State.stage, State.setPc, State.setNode, hx, Function.update_self, hafter]
  have hnode : ((s.setNode n node).setPc i p).node n = node := Function.update_self ..
  refine h.of_node n (fun n' hn => Function.update_of_ne hn _ _) (fun _ _ _ => Iff.rfl)
    (fun n' c' hn => ?_) ?_ ?_ h.listNodup fun c' => ?_
  · simp only [hstage, hbefore, Ne.symm hn, false_and, if_false]
  · rw [hnode, halive]
    exact fun habsent => by cases habsent
  · rwa [hnode]
  · rw [hstage, hnode]
    by_cases hcc : c' = c
    · subst hcc
      rwa [if_pos ⟨rfl, rfl⟩]
    · have hold := h.linked n c'
      rw [hbefore, if_neg fun hc => hcc hc.2.symm] at hold
      rw [if_neg fun hc => hcc hc.2.symm]
      exact hother c' hcc hold

/-- `Subscribe` finds the node in the list and warns. -/
theorem registered_subscribe_listed {info : SubscriptionInfo} (hl : LockOk s) (hc : CallsOk s)
    (hp : s.pc i = .subscribe n c info) (h : Registered s) (hmem : n ∈ s.subList c) :
    Registered (next s (.subscribe i n c info)) := by
  have hx : s.exclusive = some i := (hl.exclusive i).mpr (by rw [hp]; rfl)
  have hsettled := stage_of_subscribe hl hp
  have halive := alive_of_subscribing hc (i := i) (n := n) (by rw [hp]; rfl)
  have hlinked (c' : ChannelId) : Linked .settled (n ∈ s.subList c') (s.node n) c' :=
    hsettled n c' ▸ h.linked n c'
  obtain ⟨h1, h2, h3⟩ := hlinked c
  have hold : ((s.node n).requests.lookup c).isSome = true := by
    rw [← h3]
    exact h2.mp (remaining_of_alive halive ▸ h1.mp hmem)
  have hkept (c' : ChannelId) : ((s.node n).requests ++ [(c, info)]).lookup c' =
      (s.node n).requests.lookup c' := by
    rw [lookup_append_singleton]
    by_cases hcc : c' = c
    · subst hcc
      exact Option.or_of_isSome hold
    · simp [hcc]
  have hnext : next s (.subscribe i n c info) = (s.setNode n
      { s.node n with requests := (s.node n).requests ++ [(c, info)] }).setPc i
        (.subscribeUnlock n) := if_pos hmem
  rw [hnext]
  have hother (c' : ChannelId) : Linked .settled (n ∈ s.subList c')
      { s.node n with requests := (s.node n).requests ++ [(c, info)] } c' := by
    obtain ⟨g1, g2, g3⟩ := hlinked c'
    exact ⟨g1, g2, g3.trans (hkept c').symm⟩
  exact h.of_subscribing (c := c) hx (fun n' c' => (hsettled n' c').trans (ite_self _).symm)
    (fun _ _ => (ite_self _).symm) halive (h.nodup n) (fun c' _ _ => hother c') (hother c)

/-- `Subscribe` adds the node to the list; `subscribed_` and `callbacks_` are still to follow. -/
theorem registered_subscribe_unlisted {info : SubscriptionInfo} (hl : LockOk s) (hc : CallsOk s)
    (hp : s.pc i = .subscribe n c info) (h : Registered s) (hmem : n ∉ s.subList c) :
    Registered (next s (.subscribe i n c info)) := by
  have hx : s.exclusive = some i := (hl.exclusive i).mpr (by rw [hp]; rfl)
  have hsettled := stage_of_subscribe hl hp
  have halive := alive_of_subscribing hc (i := i) (n := n) (by rw [hp]; rfl)
  have hlinked (c' : ChannelId) : Linked .settled (n ∈ s.subList c') (s.node n) c' :=
    hsettled n c' ▸ h.linked n c'
  obtain ⟨h1, h2, h3⟩ := hlinked c
  have hsub : c ∉ (s.node n).subscribed := fun hs =>
    hmem (h1.mpr ((remaining_of_alive halive).symm ▸ hs))
  have hnone : (s.node n).callbacks c = none := by simpa using mt h2.mpr hsub
  have hnext : next s (.subscribe i n c info) = ((s.setNode n
      { s.node n with requests := (s.node n).requests ++ [(c, info)] }).setSubList c
        (s.subList c ++ [n])).setPc i (.pushBack n c info) := if_neg hmem
  rw [hnext]
  refine h.of_node n (fun n' hn => Function.update_of_ne hn _ _) ?_ ?_ ?_ ?_ ?_ ?_
  · intro c' n' hn
    simp only [State.setPc, State.setNode, State.setSubList, Function.update_apply]
    split_ifs with hcc
    · simp [hcc, hn]
    · exact Iff.rfl
  · intro n' c' hn
    rw [hsettled]
    simp [State.stage, State.setPc, State.setNode, State.setSubList, hx, Pc.stage, Ne.symm hn]
  · simp [State.setPc, State.setNode, State.setSubList, halive]
  · simpa [State.setPc, State.setNode, State.setSubList] using h.nodup n
  · intro c'
    simp only [State.setPc, State.setNode, State.setSubList, Function.update_apply]
    split_ifs with hcc
    · exact (h.listNodup c).append (List.nodup_singleton n) (by simpa using hmem)
    · exact h.listNodup c'
  · intro c'
    obtain ⟨g1, g2, g3⟩ := hlinked c'
    by_cases hcc : c' = c
    · subst hcc
      simp only [State.stage, State.setPc, State.setNode, State.setSubList, hx, Pc.stage,
        Function.update_self, and_self, if_true, Linked, lookup_append_singleton, ← h3, hnone]
      exact ⟨by simp, halive, hsub, trivial, rfl⟩
    · simp only [State.stage, State.setPc, State.setNode, State.setSubList, hx, Pc.stage,
        Function.update_self, Function.update_of_ne hcc, Ne.symm hcc, and_false, if_false, Linked,
        Node.remaining, halive, lookup_append_singleton, hcc, Option.or_none] at g1 g2 g3 ⊢
      exact ⟨g1, g2, g3⟩

theorem registered_pushBack {info : SubscriptionInfo} (hl : LockOk s)
    (hp : s.pc i = .pushBack n c info) (h : Registered s) :
    Registered (next s (.pushBack i n c info)) := by
  have hx : s.exclusive = some i := (hl.exclusive i).mpr (by rw [hp]; rfl)
  have hstage (n' : NodeId) (c' : ChannelId) :
      s.stage n' c' = if n = n' ∧ c = c' then .listed info else .settled := by
    rw [stage_of_holder hl (i := i) (by rw [hp]; rfl), hp]
    rfl
  have hlinked := h.linked n c
  rw [hstage, if_pos ⟨rfl, rfl⟩] at hlinked
  obtain ⟨hmem, halive, hsub, hnone, hreq⟩ := hlinked
  refine h.of_subscribing hx hstage (fun _ _ => rfl) halive ?_ (fun c' hcc hold => ?_)
    ⟨hmem, halive, by simp, hnone, hreq⟩
  · exact (h.nodup n).append (List.nodup_singleton c) (by simpa using hsub)
  · simpa [Linked, Node.remaining, halive, hcc] using hold

theorem registered_emplace {info : SubscriptionInfo} (hl : LockOk s)
    (hp : s.pc i = .emplace n c info) (h : Registered s) :
    Registered (next s (.emplace i n c info)) := by
  have hx : s.exclusive = some i := (hl.exclusive i).mpr (by rw [hp]; rfl)
  have hstage (n' : NodeId) (c' : ChannelId) :
      s.stage n' c' = if n = n' ∧ c = c' then .recorded info else .settled := by
    rw [stage_of_holder hl (i := i) (by rw [hp]; rfl), hp]
    rfl
  have hlinked := h.linked n c
  rw [hstage, if_pos ⟨rfl, rfl⟩] at hlinked
  obtain ⟨hmem, halive, hsub, hnone, hreq⟩ := hlinked
  refine h.of_subscribing (c := c) hx hstage (fun _ _ => (ite_self _).symm) halive (h.nodup n)
    (fun c' hcc hold => ?_) ?_
  · simpa [Linked, Node.remaining, halive, Function.update_of_ne hcc] using hold
  · simp [Linked, Node.remaining, halive, hnone, hreq, hmem, hsub]

/-- `~CRNode` takes the node out of the list of its next channel. -/
theorem registered_erase (hl : LockOk s) (hc : CallsOk s) (he : Enabled s (.erase i n c))
    (h : Registered s) : Registered (next s (.erase i n c)) := by
  obtain ⟨hp, hhead⟩ := he
  have hx : s.exclusive = some i := (hl.exclusive i).mpr (by rw [hp]; rfl)
  have hsettled (n' : NodeId) (c' : ChannelId) : s.stage n' c' = .settled := by
    rw [stage_of_holder hl (i := i) (by rw [hp]; rfl), hp]
    rfl
  have hlife := hc.destroying i n (by rw [hp]; rfl)
  cases hk : (s.node n).life with
  | absent | alive =>
    rw [hk] at hlife
    cases hlife
  | destroying k =>
    have hrem : (s.node n).remaining = (s.node n).subscribed.drop k := by
      simp only [Node.remaining, hk]
    obtain ⟨rest, hrest⟩ := List.head?_eq_some_iff.mp hhead
    -- the channels after `c` are left, and `c` is not one of them
    have hdrop : (s.node n).subscribed.drop (k + 1) = rest := by
      rw [← List.tail_drop, ← hrem, hrest, List.tail_cons]
    have hout : c ∉ rest := by
      have hnodup := (h.nodup n).sublist (List.drop_sublist k _)
      rw [← hrem, hrest] at hnodup
      exact (List.nodup_cons.mp hnodup).1
    refine h.of_node n (fun n' hn => Function.update_of_ne hn _ _) ?_ ?_ ?_ ?_ ?_ ?_
    · intro c' n' hn
      simp only [next, State.setPc, State.setNode, State.setSubList, Function.update_apply]
      split_ifs with hcc
      · simp [hcc, hn]
      · exact Iff.rfl
    · intro n' c' _
      rw [hsettled]
      simp [State.stage, next, State.setPc, State.setNode, State.setSubList, hx, Pc.stage]
    · simp [next, State.setPc, State.setNode, hk, Life.eraseOne]
    · simpa [next, State.setPc, State.setNode] using h.nodup n
    · intro c'
      simp only [next, State.setPc, State.setNode, State.setSubList, Function.update_apply]
      split_ifs with hcc
      · exact (h.listNodup c).filter _
      · exact h.listNodup c'
    · intro c'
      have hold := h.linked n c'
      rw [hsettled] at hold
      obtain ⟨g1, g2, g3⟩ := hold
      simp only [State.stage, next, State.setPc, State.setNode, State.setSubList, hx,
        Function.update_self, Pc.stage, Linked, Node.remaining, hk, Life.eraseOne, hdrop]
      refine ⟨?_, g2, g3⟩
      by_cases hcc : c' = c
      · subst hcc
        simp [hout]
      · rw [Function.update_of_ne hcc, g1, hrest]
        simp [hcc]

/-- The last subscription is gone, and with it the node. -/
theorem registered_endDestroy (hl : LockOk s) (hc : CallsOk s) (he : Enabled s (.endDestroy i n))
    (h : Registered s) : Registered (next s (.endDestroy i n)) := by
  obtain ⟨hp, hrem⟩ := he
  have hstage (n' : NodeId) (c' : ChannelId) :
      (next s (.endDestroy i n)).stage n' c' = s.stage n' c' :=
    stage_frame hl (i := i) (by rw [hp]; rfl) rfl fun u hu => Function.update_of_ne hu _ _
  have hfree := hc.callers_eq_nil (hc.destroying i n (by rw [hp]; rfl))
  refine h.of_node n (fun n' hn => Function.update_of_ne hn _ _) (fun _ _ _ => Iff.rfl)
    (fun n' c' _ => hstage n' c') ?_ ?_ h.listNodup ?_
  · simp [next, State.setPc, State.setNode]
  · simp [next, State.setPc, State.setNode, Node.none]
  · intro c'
    have hold := h.linked n c'
    rw [stage_of_no_callers hc hfree] at hold
    rw [hstage, stage_of_no_callers hc hfree]
    have hnot : n ∉ s.subList c' := by
      rw [hold.1, hrem]
      exact List.not_mem_nil
    simp [next, State.setPc, State.setNode, Node.none, Linked, Node.remaining, hnot]

/-- A change to a node that leaves its subscriptions alone. -/
theorem Registered.of_callers (h : Registered s) (n : NodeId)
    (hnode : ∀ n', n' ≠ n → t.node n' = s.node n') (hlist : t.subList = s.subList)
    (hstage : ∀ n' c, t.stage n' c = s.stage n' c) (hlife : (t.node n).life = (s.node n).life)
    (hsub : (t.node n).subscribed = (s.node n).subscribed)
    (hcall : (t.node n).callbacks = (s.node n).callbacks)
    (hreq : (t.node n).requests = (s.node n).requests)
    (habsent : (t.node n).life = .absent → t.node n = .none) : Registered t := by
  refine h.of_node n hnode (fun c n' _ => by rw [hlist]) (fun n' c _ => hstage n' c) habsent
    (by rw [hsub]; exact h.nodup n) (by rw [hlist]; exact h.listNodup) fun c => ?_
  rw [hstage, hlist]
  exact (h.linked n c).congr_node hlife hsub hcall hreq

theorem registered_step (he : Enabled s a) (hl : LockOk s) (hc : CallsOk s) (h : Registered s) :
    Registered (next s a) := by
  -- a thread that does not write, and one that gives the lock back with its work done
  have hquiet {i : ThreadId} (hw : (s.pc i).writes = false)
      (hx : (next s a).exclusive = s.exclusive) (hp : ∀ u, u ≠ i → (next s a).pc u = s.pc u)
      (n : NodeId) (c : ChannelId) : (next s a).stage n c = s.stage n c :=
    stage_frame hl hw hx hp
  have hlocked {i : ThreadId} (hw : (s.pc i).writes = true)
      (hst : ∀ n c, (s.pc i).stage n c = .settled) (hx : (next s a).exclusive = none)
      (n : NodeId) (c : ChannelId) : (next s a).stage n c = s.stage n c := by
    rw [stage_of_holder hl hw, hst, stage_of_unlocked hx]
  cases a with
  | construct n canSubscribe =>
    have hold : s.node n = .none := h.absent n he
    refine h.of_node n (fun n' hn => Function.update_of_ne hn _ _) (fun _ _ _ => Iff.rfl)
      (fun _ _ _ => rfl) ?_ ?_ h.listNodup fun c => ?_
    · simp [next, State.setNode]
    · simp [next, State.setNode, Node.none]
    · have hnew := h.linked n c
      rw [stage_of_no_callers hc (by rw [hold]; rfl), hold] at hnew
      change Linked (s.stage n c) _ _ _
      rw [stage_of_no_callers hc (by rw [hold]; rfl)]
      simpa [next, State.setNode, Linked, Node.remaining, Node.none] using hnew
  | callSubscribe i n c info =>
    refine h.of_callers n (fun n' hn => Function.update_of_ne hn _ _) rfl
      (hquiet (i := i) (by rw [he.1]; rfl) rfl fun u hu => Function.update_of_ne hu _ _) ?_ ?_ ?_ ?_
      ?_ <;> simp [next, State.setPc, State.setNode, he.2]
  | lockSubscribe i n c info =>
    refine h.frame (fun n' c' => ?_) rfl rfl
    rw [stage_of_unlocked he.2.1]
    simp [State.stage, next, State.setPc, Pc.stage]
  | subscribe i n c info =>
    by_cases hmem : n ∈ s.subList c
    · exact registered_subscribe_listed hl hc he.1 h hmem
    · exact registered_subscribe_unlisted hl hc he.1 h hmem
  | pushBack i n c info => exact registered_pushBack hl he h
  | emplace i n c info => exact registered_emplace hl he h
  | unlockSubscribe i n =>
    have halive := alive_of_subscribing hc (i := i) (n := n) (by rw [he]; rfl)
    refine h.of_callers n (fun n' hn => Function.update_of_ne hn _ _) rfl
      (hlocked (i := i) (by rw [he]; rfl) (fun _ _ => by rw [he]; rfl) rfl) ?_ ?_ ?_ ?_ ?_ <;>
      simp [next, State.setPc, State.setNode, halive]
  | publish i c m =>
    exact h.frame (hquiet (i := i) (by rw [he]; rfl) rfl fun u hu => Function.update_of_ne hu _ _)
      rfl rfl
  | lockDispatch i c m =>
    exact h.frame (hquiet (i := i) (by rw [he.1]; rfl) rfl fun u hu => Function.update_of_ne hu _ _)
      rfl rfl
  | addMessageToRunner i c m k n =>
    have hother (u : ThreadId) (hu : u ≠ i) :
        (next s (.addMessageToRunner i c m k n)).pc u = s.pc u := by
      simp only [next, addMessageToRunner]
      split <;> exact Function.update_of_ne hu _ _
    refine h.frame (hquiet (i := i) (by rw [he.1]; rfl) ?_ hother) ?_ ?_ <;>
      simp only [next, addMessageToRunner] <;> split <;> rfl
  | unlockDispatch i c m k =>
    exact h.frame (hquiet (i := i) (by rw [he.1]; rfl) rfl fun u hu => Function.update_of_ne hu _ _)
      rfl rfl
  | destroy i n =>
    obtain ⟨hp, halive, hfree⟩ := he
    have hstage := hquiet (i := i) (by rw [hp]; rfl) rfl fun u hu => Function.update_of_ne hu _ _
    refine h.of_node n (fun n' hn => Function.update_of_ne hn _ _) (fun _ _ _ => Iff.rfl)
      (fun n' c' _ => hstage n' c') ?_ ?_ h.listNodup fun c => ?_
    · simp [next, State.setPc, State.setNode]
    · simpa [next, State.setPc, State.setNode] using h.nodup n
    · have hold := h.linked n c
      rw [stage_of_no_callers hc hfree] at hold
      rw [hstage, stage_of_no_callers hc hfree]
      simpa [next, State.setPc, State.setNode, Linked, Node.remaining, halive] using hold
  | lockUnsubscribe i n =>
    refine h.frame (fun n' c' => ?_) rfl rfl
    rw [stage_of_unlocked he.2.2.1]
    simp [State.stage, next, State.setPc, Pc.stage]
  | erase i n c => exact registered_erase hl hc he h
  | unlockUnsubscribe i n =>
    exact h.frame (hlocked (i := i) (by rw [he]; rfl) (fun _ _ => by rw [he]; rfl) rfl) rfl rfl
  | endDestroy i n => exact registered_endDestroy hl hc he h

/-- Thread `i` has walked over `k` nodes of the list of `c`. -/
structure Dispatching (s : State) (i : ThreadId) (c : ChannelId) (k : ℕ) : Prop where
  handed : (s.handed i).map Prod.fst = (s.subList c).take k
  first : ∀ p ∈ s.handed i, (s.node p.1).requests.lookup c = some p.2
  subscribers : ∀ n, s.subscribers i n = true ↔ n ∈ s.subList c

def DispatchOk (s : State) : Prop :=
  ∀ i c m k, s.pc i = .walk c m k → Dispatching s i c k

theorem Dispatching.frame {k : ℕ} (h : Dispatching s i c k) (hlist : t.subList = s.subList)
    (hhanded : t.handed i = s.handed i) (hsubs : t.subscribers i = s.subscribers i)
    (hreq : ∀ p ∈ s.handed i, (t.node p.1).requests = (s.node p.1).requests) :
    Dispatching t i c k where
  handed := by
    rw [hlist, hhanded]
    exact h.handed
  first p hp := by
    rw [hhanded] at hp
    rw [hreq p hp]
    exact h.first p hp
  subscribers n := by
    rw [hlist, hsubs]
    exact h.subscribers n

/-- While somebody reads, nobody writes. -/
theorem exclusive_of_walk {m : MessageId} {k : ℕ} (hl : LockOk s) (hp : s.pc i = .walk c m k) :
    s.exclusive = none ∧ s.readers ≠ [] := by
  have hmem : i ∈ s.readers := (hl.readers i).mpr (by rw [hp]; rfl)
  have hne := List.ne_nil_of_mem hmem
  refine ⟨?_, hne⟩
  by_contra hx
  exact hne (hl.disjoint hx)

theorem remaining_sublist (node : Node) : node.remaining.Sublist node.subscribed := by
  unfold Node.remaining
  split
  · exact List.drop_sublist _ _
  · exact List.Sublist.refl _

/-- A node in the list has a callback for the channel: that of its first subscription. -/
theorem callback_of_listed (h : Registered s) (hx : s.exclusive = none) (hn : n ∈ s.subList c) :
    ∃ info, (s.node n).callbacks c = some info ∧ (s.node n).requests.lookup c = some info := by
  have hlinked := h.linked n c
  rw [stage_of_unlocked hx] at hlinked
  obtain ⟨h1, h2, h3⟩ := hlinked
  obtain ⟨info, hinfo⟩ := Option.isSome_iff_exists.mp
    (h2.mp ((remaining_sublist _).subset (h1.mp hn)))
  exact ⟨info, hinfo, h3 ▸ hinfo⟩

/-- The thread that dispatches goes on to the next node. -/
theorem dispatching_hand {m : MessageId} {k : ℕ} (hl : LockOk s) (hr : Registered s)
    (he : Enabled s (.addMessageToRunner i c m k n)) (h : Dispatching s i c k) :
    Dispatching (next s (.addMessageToRunner i c m k n)) i c (k + 1) := by
  obtain ⟨hp, hk⟩ := he
  have hx := (exclusive_of_walk hl hp).1
  obtain ⟨info, hcall, hreq⟩ := callback_of_listed hr hx (List.mem_of_getElem? hk)
  have hnext : next s (.addMessageToRunner i c m k n) =
      { s with handed := Function.update s.handed i (s.handed i ++ [(n, info)]) }.setPc i
        (.walk c m (k + 1)) := by
    simp only [next, addMessageToRunner, hcall]
  rw [hnext]
  refine ⟨?_, ?_, h.subscribers⟩
  · simp only [State.setPc, Function.update_self, List.map_append, h.handed, List.take_add_one, hk]
    rfl
  · intro p hmem
    simp only [State.setPc, Function.update_self, List.mem_append, List.mem_singleton] at hmem
    rcases hmem with hmem | rfl
    · exact h.first p hmem
    · exact hreq

/-- Whom a walk has handed the message is still in the list, and so it has a subscription left. -/
theorem Dispatching.handed_ne {m : MessageId} {k : ℕ} (hl : LockOk s) (hr : Registered s)
    (hp : s.pc i = .walk c m k) (h : Dispatching s i c k) (hrem : (s.node n).remaining = []) :
    ∀ p ∈ s.handed i, p.1 ≠ n := by
  rintro p hmem rfl
  have hlisted : p.1 ∈ s.subList c := by
    have hfst := List.mem_map_of_mem (f := Prod.fst) hmem
    rw [h.handed] at hfst
    exact List.mem_of_mem_take hfst
  have hlinked := hr.linked p.1 c
  rw [stage_of_unlocked (exclusive_of_walk hl hp).1] at hlinked
  have hsub := hlinked.1.mp hlisted
  rw [hrem] at hsub
  cases hsub

/-- A walk begins with nobody handed the message. -/
theorem dispatching_lock {m : MessageId} (hr : Registered s)
    (he : Enabled s (.lockDispatch i c m)) :
    Dispatching (next s (.lockDispatch i c m)) i c 0 := by
  refine ⟨?_, fun p hmem => ?_, fun n => ?_⟩
  · simp [next, State.setPc]
  · simp [next, State.setPc] at hmem
  · have hlinked := hr.linked n c
    rw [stage_of_unlocked he.2] at hlinked
    simp [next, State.setPc, hlinked.1]

theorem dispatchOk_step (he : Enabled s a) (hl : LockOk s) (hr : Registered s)
    (h : DispatchOk s) : DispatchOk (next s a) := by
  intro i c m k hp
  have hother {u : ThreadId} {q : Pc} (hpc : (next s a).pc = Function.update s.pc u q)
      (hq : q.reads = false) : s.pc i = .walk c m k ∧ i ≠ u := by
    rw [hpc, Function.update_apply] at hp
    split_ifs at hp with hiu
    · rw [hp] at hq
      cases hq
    · exact ⟨hp, hiu⟩
  -- no other thread is in a step under the exclusive lock while `i` walks
  have hwriter {u : ThreadId} {q : Pc} (hu : (s.pc u).writes = true)
      (hpc : (next s a).pc = Function.update s.pc u q) (hq : q.reads = false) : False := by
    have hx := (exclusive_of_walk hl (hother hpc hq).1).1
    rw [(hl.exclusive u).mpr hu] at hx
    cases hx
  cases a with
  | construct n canSubscribe =>
    have hp : s.pc i = .walk c m k := hp
    have hrem : (s.node n).remaining = [] := by
      rw [hr.absent n he]
      rfl
    refine (h i c m k hp).frame rfl rfl rfl fun p hmem => ?_
    have hne := (h i c m k hp).handed_ne hl hr hp hrem p hmem
    simp [next, State.setNode, hne]
  | callSubscribe u n c' info =>
    obtain ⟨hs, -⟩ := hother rfl rfl
    refine (h i c m k hs).frame rfl rfl rfl fun p _ => ?_
    by_cases hn : p.1 = n <;> simp [next, State.setPc, State.setNode, hn]
  | lockSubscribe u n c' info => exact absurd he.2.2 (exclusive_of_walk hl (hother rfl rfl).1).2
  | subscribe u n c' info =>
    obtain ⟨q, hq, hread⟩ : ∃ q, (next s (.subscribe u n c' info)).pc =
        Function.update s.pc u q ∧ q.reads = false := by
      simp only [next, subscribe]
      split
      · exact ⟨_, rfl, rfl⟩
      · exact ⟨_, rfl, rfl⟩
    exact (hwriter (by rw [he.1]; rfl) hq hread).elim
  | pushBack u n c' info =>
    exact (hwriter (u := u) (by rw [he]; rfl) rfl rfl).elim
  | emplace u n c' info =>
    exact (hwriter (u := u) (by rw [he]; rfl) rfl rfl).elim
  | unlockSubscribe u n =>
    exact (hwriter (u := u) (by rw [he]; rfl) rfl rfl).elim
  | publish u c' m' => exact (h i c m k (hother rfl rfl).1).frame rfl rfl rfl fun _ _ => rfl
  | lockDispatch u c' m' =>
    by_cases hiu : i = u
    · subst hiu
      simp only [next, State.setPc, Function.update_self, Pc.walk.injEq] at hp
      obtain ⟨rfl, -, rfl⟩ := hp
      exact dispatching_lock hr he
    · have hs : s.pc i = .walk c m k := by
        rwa [show (next s (.lockDispatch u c' m')).pc i = s.pc i from
          Function.update_of_ne hiu _ _] at hp
      exact (h i c m k hs).frame rfl (Function.update_of_ne hiu _ _)
        (Function.update_of_ne hiu _ _) fun _ _ => rfl
  | addMessageToRunner u c' m' k' n =>
    have hpc : (next s (.addMessageToRunner u c' m' k' n)).pc =
        Function.update s.pc u (.walk c' m' (k' + 1)) := by
      simp only [next, addMessageToRunner]
      split <;> rfl
    by_cases hiu : i = u
    · subst hiu
      rw [hpc, Function.update_self, Pc.walk.injEq] at hp
      obtain ⟨rfl, rfl, rfl⟩ := hp
      exact dispatching_hand hl hr he (h i c' m' k' he.1)
    · rw [hpc, Function.update_of_ne hiu] at hp
      refine (h i c m k hp).frame ?_ ?_ ?_ fun p _ => ?_ <;> simp only [next, addMessageToRunner] <;>
        split
      all_goals first | rfl | exact Function.update_of_ne hiu _ _
  | unlockDispatch u c' m' k' =>
    exact (h i c m k (hother rfl rfl).1).frame rfl rfl rfl fun _ _ => rfl
  | destroy u n =>
    obtain ⟨hs, -⟩ := hother rfl rfl
    refine (h i c m k hs).frame rfl rfl rfl fun p _ => ?_
    by_cases hn : p.1 = n <;> simp [next, State.setPc, State.setNode, hn]
  | lockUnsubscribe u n => exact absurd he.2.2.2 (exclusive_of_walk hl (hother rfl rfl).1).2
  | erase u n c' =>
    exact (hwriter (u := u) (by rw [he.1]; rfl) rfl rfl).elim
  | unlockUnsubscribe u n =>
    exact (hwriter (u := u) (by rw [he]; rfl) rfl rfl).elim
  | endDestroy u n =>
    obtain ⟨hs, -⟩ := hother rfl rfl
    refine (h i c m k hs).frame rfl rfl rfl fun p hmem => ?_
    -- the node that goes has no subscription left, so it is none of those
    have hne := (h i c m k hs).handed_ne hl hr hs he.2 p hmem
    simp [next, State.setPc, State.setNode, hne]

/-- What holds of the registry in every reachable state. -/
structure Inv (s : State) : Prop where
  lock : LockOk s
  calls : CallsOk s
  registered : Registered s
  dispatch : DispatchOk s

theorem inv_step (he : Enabled s a) (h : Inv s) : Inv (next s a) :=
  ⟨lockOk_step he h.lock, callsOk_step he h.calls,
    registered_step he h.lock h.calls h.registered,
    dispatchOk_step he h.lock h.registered h.dispatch⟩

theorem reachable_inv (h : system.Reachable s) : Inv s := by
  refine h.invariant ?_ ?_
  · rintro s rfl
    exact ⟨lockOk_initial, callsOk_initial, registered_initial, fun i c m k hp => nomatch hp⟩
  · intro u a v hu hst
    obtain ⟨he, rfl⟩ := step_eq_some.mp hst
    exact inv_step he hu

/-- A thread that has just got the lock for a node without a subscription finds it unlisted. -/
theorem not_mem_of_lookup_none {info : SubscriptionInfo} (h : Inv s)
    (he : Enabled s (.subscribe i n c info))
    (hnone : (s.node n).requests.lookup c = none) : n ∉ s.subList c := by
  have hlinked := h.registered.linked n c
  rw [stage_of_holder h.lock (i := i) (by rw [he.1]; rfl), he.1] at hlinked
  intro hmem
  have hsub := (remaining_sublist _).subset (hlinked.1.mp hmem)
  have hcall := hlinked.2.1.mp hsub
  rw [hlinked.2.2, hnone] at hcall
  cases hcall

theorem count_eq_one_iff_mem {α : Type*} [DecidableEq α] {l : List α} (h : l.Nodup) (x : α) :
    l.count x = 1 ↔ x ∈ l := by
  rw [← List.count_pos_iff]
  have hle := List.nodup_iff_count_le_one.mp h x
  omega

/-- The three copies of one subscription, with nobody in the middle of changing them. -/
theorem subscription_copies (h : Inv s) (hx : s.exclusive = none) (n : NodeId) (c : ChannelId) :
    (s.subList c).count n ≤ 1 ∧ (n ∈ s.subList c ↔ c ∈ (s.node n).remaining) ∧
      ((s.node n).subscribed.count c = 1 ↔ ((s.node n).callbacks c).isSome = true) ∧
      (s.node n).callbacks c = (s.node n).requests.lookup c := by
  have hlinked := h.registered.linked n c
  rw [stage_of_unlocked hx] at hlinked
  refine ⟨List.nodup_iff_count_le_one.mp (h.registered.listNodup c) n, hlinked.1, ?_, hlinked.2.2⟩
  rw [count_eq_one_iff_mem (h.registered.nodup n)]
  exact hlinked.2.1

/-- What a dispatch has done when it has come past `k` nodes. -/
theorem dispatch_so_far {m : MessageId} {k : ℕ} (h : Inv s) (hp : s.pc i = .walk c m k) :
    ((s.handed i).map Prod.fst).Nodup ∧
      (∀ p ∈ s.handed i, s.subscribers i p.1 = true ∧ (s.node p.1).life ≠ .absent ∧
        (s.node p.1).requests.lookup c = some p.2) ∧
      (∀ n, (s.subList c)[k]? = some n →
        (s.node n).life ≠ .absent ∧ ((s.node n).callbacks c).isSome = true) ∧
      ((s.subList c).length ≤ k →
        ∀ n, n ∈ (s.handed i).map Prod.fst ↔ s.subscribers i n = true) := by
  obtain ⟨hhanded, hfirst, hsubs⟩ := h.dispatch i c m k hp
  have hx := (exclusive_of_walk h.lock hp).1
  have hlisted (n) (hn : n ∈ s.subList c) : (s.node n).life ≠ .absent := by
    intro hlife
    obtain ⟨info, hcall, -⟩ := callback_of_listed h.registered hx hn
    rw [h.registered.absent n hlife] at hcall
    cases hcall
  refine ⟨?_, fun p hmem => ?_, fun n hk => ?_, fun hlen n => ?_⟩
  · rw [hhanded]
    exact (h.registered.listNodup c).sublist (List.take_sublist k _)
  · have hfst := List.mem_map_of_mem (f := Prod.fst) hmem
    rw [hhanded] at hfst
    have hin := List.mem_of_mem_take hfst
    exact ⟨(hsubs p.1).mpr hin, hlisted p.1 hin, hfirst p hmem⟩
  · have hin := List.mem_of_getElem? hk
    obtain ⟨info, hcall, -⟩ := callback_of_listed h.registered hx hin
    exact ⟨hlisted n hin, by rw [hcall]; rfl⟩
  · rw [hhanded, List.take_of_length_le hlen, hsubs]

/-- The three copies in terms of the node's life, with nobody in the middle of changing them. -/
theorem subscription_copies_of_life (h : Inv s) (hx : s.exclusive = none) (n : NodeId)
    (c : ChannelId) :
    (s.subList c).count n ≤ 1 ∧
      ((s.node n).life = .alive →
        (n ∈ s.subList c ↔ (s.node n).subscribed.count c = 1) ∧
        (n ∈ s.subList c ↔ ((s.node n).callbacks c).isSome = true) ∧
        (s.node n).callbacks c = (s.node n).requests.lookup c) ∧
      (∀ erased, (s.node n).life = .destroying erased →
        (n ∈ s.subList c ↔ c ∈ (s.node n).subscribed.drop erased)) ∧
      ((s.node n).life = .absent → n ∉ s.subList c) := by
  obtain ⟨hone, hlist, hsub, hcall⟩ := subscription_copies h hx n c
  refine ⟨hone, fun hlife => ?_, fun erased hlife => ?_, fun hlife => ?_⟩
  · have hmem : n ∈ s.subList c ↔ (s.node n).subscribed.count c = 1 := by
      rw [hlist, remaining_of_alive hlife, count_eq_one_iff_mem (h.registered.nodup n)]
    exact ⟨hmem, hmem.trans hsub, hcall⟩
  · simpa only [Node.remaining, hlife] using hlist
  · rw [hlist, h.registered.absent n hlife]
    exact List.not_mem_nil

/-- Who counts as subscribed for a dispatch: the nodes in the list when it takes the lock. -/
theorem subscribers_of_lockDispatch {m : MessageId} (h : Inv s) (hx : s.exclusive = none)
    (n : NodeId) :
    (next s (.lockDispatch i c m)).subscribers i n = true ↔ n ∈ s.subList c := by
  have hlist := (subscription_copies h hx n c).2.1
  simp [next, State.setPc, hlist]

end Steps

def testChannel : ChannelId := ⟨1, 2⟩

def otherChannel : ChannelId := ⟨1, 3⟩

end CrisCore.SubscriptionRegistry
