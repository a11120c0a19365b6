import CrisCore.ItemPlaces
import CrisCore.TimelineNesting

/-! `print` beside threads that open and close sessions and regions. The ready sessions and the
events are in queues that all threads share. -/
namespace CrisCore.Timeline

abbrev EventId := ℕ
abbrev ThreadId := ℕ

structure Event where
  beg : ℕ
  endTick : ℕ
  sess : SessionName

/-- An object of a thread; a `Region` has no event when no session was open. -/
inductive Scope
  | object (object : Object)
  | region (event : Option EventId)
  deriving DecidableEq

/-- Where a thread is: between two calls, in `push` after it queued the event, or in one of the
stages of `print` with what it holds there. -/
inductive Pc
  | running
  | pushing (event : EventId)
  | readySessions (sessSel : List SessionName)
  | queuedEvents (sessSel : List SessionName) (evtSel : List EventId)
  | chains (sessSel : List SessionName) (evtSel chain : List EventId)
  deriving DecidableEq

namespace Pc

def sessSel : Pc → List SessionName
  | running | pushing _ => []
  | readySessions sel | queuedEvents sel _ | chains sel _ _ => sel

def evtSel : Pc → List EventId
  | running | pushing _ | readySessions _ => []
  | queuedEvents _ evts | chains _ evts _ => evts

def chain : Pc → List EventId
  | chains _ _ chain => chain
  | _ => []

end Pc

structure Thread where
  sessions : Sessions
  scopes : List Scope
  pc : Pc

/-- The session objects of a thread, innermost first. -/
def objectsOf (scopes : List Scope) : List Object :=
  scopes.filterMap fun
    | .object object => some object
    | .region _ => none

def Thread.nest (th : Thread) : Nest where
  sessions := th.sessions
  objects := objectsOf th.scopes
  undefined := false

/-- `released` is history: the events that `print` freed, the last one first. -/
structure State where
  thread : ThreadId → Thread
  sessReady : List SessionName
  events : List EventId
  event : EventId → Event
  nextEvent : EventId
  released : List EventId

inductive Action
  | construct (t : ThreadId) (kind : ObjectKind) (name : SessionName)
  | openRegion (t : ThreadId) (tic : ℕ)
  | stamp (t : ThreadId) (toc : ℕ)
  | destroy (t : ThreadId) (k tick : ℕ)
  | print (t : ThreadId)
  | takeSession (t : ThreadId)
  | sessionsTaken (t : ThreadId)
  | takeEvent (t : ThreadId)
  | eventsTaken (t : ThreadId)
  | group (t : ThreadId)
  | release (t : ThreadId) (k : ℕ)
  | finish (t : ThreadId)
  deriving DecidableEq

def Action.thread : Action → ThreadId
  | .construct t _ _ | .openRegion t _ | .stamp t _ | .destroy t _ _ | .print t | .takeSession t
  | .sessionsTaken t | .takeEvent t | .eventsTaken t | .group t | .release t _ | .finish t => t

namespace State

def initial : State where
  thread := fun _ => ⟨.initial, [], .running⟩
  sessReady := []
  events := []
  event := fun _ => ⟨0, 0, 0⟩
  nextEvent := 0
  released := []

def setThread (s : State) (t : ThreadId) (th : Thread) : State :=
  { s with thread := Function.update s.thread t th }

def setPc (s : State) (t : ThreadId) (pc : Pc) : State :=
  s.setThread t { s.thread t with pc := pc }

def setEvent (s : State) (e : EventId) (event : Event) : State :=
  { s with event := Function.update s.event e event }

def construct (s : State) (t : ThreadId) (kind : ObjectKind) (name : SessionName) :
    Option State := do
  let th := s.thread t
  let (started, sessions) ← th.sessions.start name
  some (s.setThread t
    { th with sessions := sessions, scopes := .object ⟨kind, name, started⟩ :: th.scopes })

/-- `push` up to the queueing of the event, which from then on is seen by every thread. -/
def pushEvent (s : State) (t : ThreadId) (tic : ℕ) (sess : SessionName) : State :=
  let e := s.nextEvent
  { s.setThread t ⟨(s.thread t).sessions, .region (some e) :: (s.thread t).scopes, .pushing e⟩ with
    event := Function.update s.event e ⟨tic, tic, sess⟩
    events := s.events ++ [e]
    nextEvent := e + 1 }

def openRegion (s : State) (t : ThreadId) (tic : ℕ) : State :=
  match (s.thread t).sessions.sessStack with
  | [] => s.setThread t { s.thread t with scopes := .region none :: (s.thread t).scopes }
  | sess :: _ => s.pushEvent t tic sess

def closeRegion (s : State) (t : ThreadId) (rest : List Scope) (tick : ℕ) :
    Option EventId → State
  | none => s.setThread t { s.thread t with scopes := rest }
  | some e =>
    (s.setThread t { s.thread t with scopes := rest }).setEvent e { s.event e with endTick := tick }

/-- A `LocalSession` goes on to `print`; there is no step where the stack of the thread is empty. -/
def endObject (s : State) (t : ThreadId) (rest : List Scope) : ObjectKind → Option State
  | .session => do
    let (_, sessions) ← (s.thread t).sessions.pause
    some (s.setThread t { s.thread t with sessions := sessions, scopes := rest })
  | .localSession => do
    let (_, ready, sessions) ← (s.thread t).sessions.stop
    some { s.setThread t ⟨sessions, rest, .readySessions []⟩ with
      sessReady := s.sessReady ++ ready.toList }

/-- The destructor of the object that is the `k`-th from the inside. -/
def destroy (s : State) (t : ThreadId) (k tick : ℕ) : Option State :=
  let rest := (s.thread t).scopes.eraseIdx k
  match (s.thread t).scopes[k]? with
  | none => none
  | some (.region event) => some (s.closeRegion t rest tick event)
  | some (.object object) => s.endObject t rest object.kind

/-- One round of the loop that groups the events by session: an event that ends before it begins is
dropped, one of another session goes back to the queue. -/
def group (s : State) (t : ThreadId) (sel : List SessionName) (e : EventId) (rest chain : List EventId) :
    State :=
  let evt := s.event e
  if evt.beg > evt.endTick then s.setPc t (.chains sel rest chain)
  else if evt.sess ∈ sel then s.setPc t (.chains sel rest (e :: chain))
  else { s.setPc t (.chains sel rest chain) with events := s.events ++ [e] }

/-- The events of the chains are freed one by one while they are drawn. -/
def release (s : State) (t : ThreadId) (sel : List SessionName) (chain : List EventId) (k : ℕ) :
    Option State :=
  match chain[k]? with
  | none => none
  | some e => some { s.setPc t (.chains sel [] (chain.eraseIdx k)) with released := e :: s.released }

def next (threadNum : ℕ) (s : State) (a : Action) : Option State :=
  if a.thread < threadNum then
    match a, (s.thread a.thread).pc with
    | .construct t kind name, .running => s.construct t kind name
    | .openRegion t tic, .running => some (s.openRegion t tic)
    | .stamp t toc, .pushing e =>
      some ((s.setPc t .running).setEvent e { s.event e with endTick := toc })
    | .destroy t k tick, .running => s.destroy t k tick
    | .print t, .running => some (s.setPc t (.readySessions []))
    | .takeSession t, .readySessions sel =>
      match s.sessReady with
      | [] => none
      | sess :: rest => some { s.setPc t (.readySessions (sel ++ [sess])) with sessReady := rest }
    | .sessionsTaken t, .readySessions sel =>
      if s.sessReady = [] then some (s.setPc t (.queuedEvents sel [])) else none
    | .takeEvent t, .queuedEvents sel evts =>
      match s.events with
      | [] => none
      | e :: rest => some { s.setPc t (.queuedEvents sel (evts ++ [e])) with events := rest }
    | .eventsTaken t, .queuedEvents sel evts =>
      if s.events = [] then some (s.setPc t (.chains sel evts [])) else none
    | .group t, .chains sel (e :: rest) chain => some (s.group t sel e rest chain)
    | .release t k, .chains sel [] chain => s.release t sel chain k
    | .finish t, .chains _ [] [] => some (s.setPc t .running)
    | _, _ => none
  else none

def system (threadNum : ℕ) : TransitionSystem State Action where
  init s := s = initial
  step := next threadNum

/-- The steps with what holds before each of them. -/
inductive Step (s : State) : Action → State → Prop
  | construct {t : ThreadId} {kind : ObjectKind} {name : SessionName}
      {started : Option SessionName} {sessions : Sessions} (hpc : (s.thread t).pc = .running)
      (hs : (s.thread t).sessions.start name = some (started, sessions)) :
      Step s (.construct t kind name) (s.setThread t
        ⟨sessions, .object ⟨kind, name, started⟩ :: (s.thread t).scopes, .running⟩)
  | openNothing {t : ThreadId} {tic : ℕ} (hpc : (s.thread t).pc = .running)
      (hstack : (s.thread t).sessions.sessStack = []) :
      Step s (.openRegion t tic)
        (s.setThread t { s.thread t with scopes := .region none :: (s.thread t).scopes })
  | openRegion {t : ThreadId} {tic : ℕ} {sess : SessionName} {rest : List SessionName}
      (hpc : (s.thread t).pc = .running) (hstack : (s.thread t).sessions.sessStack = sess :: rest) :
      Step s (.openRegion t tic) (s.pushEvent t tic sess)
  | stamp {t : ThreadId} {toc : ℕ} {e : EventId} (hpc : (s.thread t).pc = .pushing e) :
      Step s (.stamp t toc) ((s.setPc t .running).setEvent e { s.event e with endTick := toc })
  | closeRegion {t : ThreadId} {k tick : ℕ} {event : Option EventId}
      (hpc : (s.thread t).pc = .running) (hscope : (s.thread t).scopes[k]? = some (.region event)) :
      Step s (.destroy t k tick) (s.closeRegion t ((s.thread t).scopes.eraseIdx k) tick event)
  | endObject {t : ThreadId} {k tick : ℕ} {object : Object} {returned : Option SessionName}
      {sessions : Sessions} {pc : Pc} {ready : List SessionName} (hpc : (s.thread t).pc = .running)
      (hscope : (s.thread t).scopes[k]? = some (.object object))
      (hs : destruct object.kind (s.thread t).sessions = some (returned, sessions))
      (hpc' : pc = .running ∨ pc = .readySessions []) :
      Step s (.destroy t k tick)
        { s.setThread t ⟨sessions, (s.thread t).scopes.eraseIdx k, pc⟩ with
          sessReady := s.sessReady ++ ready }
  | print {t : ThreadId} (hpc : (s.thread t).pc = .running) :
      Step s (.print t) (s.setPc t (.readySessions []))
  | takeSession {t : ThreadId} {sel rest : List SessionName} {sess : SessionName}
      (hpc : (s.thread t).pc = .readySessions sel) (hready : s.sessReady = sess :: rest) :
      Step s (.takeSession t) { s.setPc t (.readySessions (sel ++ [sess])) with sessReady := rest }
  | sessionsTaken {t : ThreadId} {sel : List SessionName}
      (hpc : (s.thread t).pc = .readySessions sel) :
      Step s (.sessionsTaken t) (s.setPc t (.queuedEvents sel []))
  | takeEvent {t : ThreadId} {sel : List SessionName} {evts rest : List EventId} {e : EventId}
      (hpc : (s.thread t).pc = .queuedEvents sel evts) (hevents : s.events = e :: rest) :
      Step s (.takeEvent t) { s.setPc t (.queuedEvents sel (evts ++ [e])) with events := rest }
  | eventsTaken {t : ThreadId} {sel : List SessionName} {evts : List EventId}
      (hpc : (s.thread t).pc = .queuedEvents sel evts) :
      Step s (.eventsTaken t) (s.setPc t (.chains sel evts []))
  | group {t : ThreadId} {sel : List SessionName} {e : EventId} {rest chain : List EventId}
      (hpc : (s.thread t).pc = .chains sel (e :: rest) chain) :
      Step s (.group t) (s.group t sel e rest chain)
  | release {t : ThreadId} {k : ℕ} {sel : List SessionName} {chain : List EventId} {e : EventId}
      (hpc : (s.thread t).pc = .chains sel [] chain) (he : chain[k]? = some e) :
      Step s (.release t k)
        { s.setPc t (.chains sel [] (chain.eraseIdx k)) with released := e :: s.released }
  | finish {t : ThreadId} {sel : List SessionName} (hpc : (s.thread t).pc = .chains sel [] []) :
      Step s (.finish t) (s.setPc t .running)

theorem step_of_construct {s s' : State} {t : ThreadId} {kind : ObjectKind} {name : SessionName}
    (hpc : (s.thread t).pc = .running) (hs : s.construct t kind name = some s') :
    Step s (.construct t kind name) s' := by
  obtain ⟨⟨started, sessions⟩, hstart, hs⟩ := Option.bind_eq_some_iff.mp hs
  cases hs
  have hstep : Step s (.construct t kind name) _ := .construct hpc hstart
  rwa [← hpc] at hstep

theorem step_of_destroy {s s' : State} {t : ThreadId} {k tick : ℕ}
    (hpc : (s.thread t).pc = .running) (hs : s.destroy t k tick = some s') :
    Step s (.destroy t k tick) s' := by
  unfold destroy at hs
  split at hs
  · cases hs
  · next event hscope =>
    cases hs
    exact .closeRegion hpc hscope
  · next object hscope =>
    cases hkind : object.kind with
    | session =>
      rw [hkind] at hs
      obtain ⟨⟨returned, sessions⟩, hpause, hs⟩ := Option.bind_eq_some_iff.mp hs
      cases hs
      have hd : destruct object.kind (s.thread t).sessions = some (returned, sessions) := by
        rw [hkind]
        exact hpause
      have hstep : Step s (.destroy t k tick)
          { s.setThread t ⟨sessions, (s.thread t).scopes.eraseIdx k, .running⟩ with
            sessReady := s.sessReady ++ [] } := .endObject hpc hscope hd (.inl rfl)
      rw [List.append_nil, ← hpc] at hstep
      exact hstep
    | localSession =>
      rw [hkind] at hs
      obtain ⟨⟨returned, ready, sessions⟩, hstop, hs⟩ := Option.bind_eq_some_iff.mp hs
      cases hs
      have hd : destruct object.kind (s.thread t).sessions = some (returned, sessions) := by
        rw [hkind]
        exact Option.map_eq_some_iff.mpr ⟨_, hstop, rfl⟩
      exact .endObject hpc hscope hd (.inr rfl)

theorem step_of_next {threadNum : ℕ} {s s' : State} {a : Action}
    (hs : next threadNum s a = some s') : a.thread < threadNum ∧ Step s a s' := by
  unfold next at hs
  by_cases ht : a.thread < threadNum
  swap
  · rw [if_neg ht] at hs
    cases hs
  rw [if_pos ht] at hs
  refine ⟨ht, ?_⟩
  split at hs
  · next hpc => exact step_of_construct hpc hs
  · next hpc =>
    cases hs
    unfold openRegion
    split
    · next hstack => exact .openNothing hpc hstack
    · next hstack => exact .openRegion hpc hstack
  · next hpc =>
    cases hs
    exact .stamp hpc
  · next hpc => exact step_of_destroy hpc hs
  · next hpc =>
    cases hs
    exact .print hpc
  · next hpc =>
    split at hs
    · cases hs
    · next hready =>
      cases hs
      exact .takeSession hpc hready
  · next hpc =>
    split_ifs at hs
    cases hs
    exact .sessionsTaken hpc
  · next hpc =>
    split at hs
    · cases hs
    · next hevents =>
      cases hs
      exact .takeEvent hpc hevents
  · next hpc =>
    split_ifs at hs
    cases hs
    exact .eventsTaken hpc
  · next hpc =>
    cases hs
    exact .group hpc
  · next hpc =>
    unfold release at hs
    split at hs
    · cases hs
    · next he =>
      cases hs
      exact .release hpc he
  · next hpc =>
    cases hs
    exact .finish hpc
  · cases hs

/-- Where an event can be. -/
inductive Place
  | queue
  | taken (t : ThreadId)
  | chain (t : ThreadId)
  | released
  deriving DecidableEq

def held (s : State) : Place → List EventId
  | .queue => s.events
  | .taken t => (s.thread t).pc.evtSel
  | .chain t => (s.thread t).pc.chain
  | .released => s.released

/-- Every event is in one place at most. -/
structure Kept (s : State) : Prop where
  exclusive : Exclusive s.held
  known : ∀ p, ∀ e ∈ s.held p, e < s.nextEvent

theorem kept_initial : Kept initial := by
  have hempty (p : Place) : initial.held p = [] := by cases p <;> rfl
  exact ⟨.of_empty hempty, fun p e he => by simp [hempty p] at he⟩

@[simp] theorem setPc_thread_self (s : State) (t : ThreadId) (pc : Pc) :
    (s.setPc t pc).thread t = { s.thread t with pc := pc } := Function.update_self ..

theorem setPc_thread_of_ne (s : State) {t t' : ThreadId} (pc : Pc) (hne : t' ≠ t) :
    (s.setPc t pc).thread t' = s.thread t' := Function.update_of_ne hne ..

@[simp] theorem setThread_thread_self (s : State) (t : ThreadId) (th : Thread) :
    (s.setThread t th).thread t = th := Function.update_self ..

theorem setThread_thread_of_ne (s : State) {t t' : ThreadId} (th : Thread) (hne : t' ≠ t) :
    (s.setThread t th).thread t' = s.thread t' := Function.update_of_ne hne ..

/-- What a step of one thread leaves in a place. -/
theorem held_frame {s s' : State} {t : ThreadId} {r : Place}
    (hthread : ∀ t', t' ≠ t → s'.thread t' = s.thread t')
    (hqueue : r = .queue → s'.events = s.events)
    (htaken : r = .taken t → (s'.thread t).pc.evtSel = (s.thread t).pc.evtSel)
    (hchain : r = .chain t → (s'.thread t).pc.chain = (s.thread t).pc.chain)
    (hreleased : r = .released → s'.released = s.released) : s'.held r = s.held r := by
  cases r with
  | queue => exact hqueue rfl
  | taken t' =>
    by_cases ht : t' = t
    · rw [ht]
      exact htaken (by rw [ht])
    · simp only [held, hthread t' ht]
  | chain t' =>
    by_cases ht : t' = t
    · rw [ht]
      exact hchain (by rw [ht])
    · simp only [held, hthread t' ht]
  | released => exact hreleased rfl

/-- A step that leaves a thread the same events leaves them where they are. -/
theorem Kept.same {s s' : State} {t : ThreadId} (h : Kept s)
    (hthread : ∀ t', t' ≠ t → s'.thread t' = s.thread t')
    (hevtSel : (s'.thread t).pc.evtSel = (s.thread t).pc.evtSel)
    (hchain : (s'.thread t).pc.chain = (s.thread t).pc.chain) (hevents : s'.events = s.events)
    (hreleased : s'.released = s.released) (hnext : s.nextEvent ≤ s'.nextEvent) : Kept s' := by
  have hheld : s'.held = s.held := by
    funext r
    exact held_frame hthread (fun _ => hevents) (fun _ => hevtSel) (fun _ => hchain)
      fun _ => hreleased
  refine ⟨hheld ▸ h.exclusive, fun p e he => ?_⟩
  rw [hheld] at he
  exact Nat.lt_of_lt_of_le (h.known p e he) hnext

/-- A step that takes an event from one place to another. -/
theorem Kept.moved {s s' : State} {p q : Place} {e : EventId} (h : Kept s) (hne : p ≠ q)
    (hp : (s.held p).Perm (e :: s'.held p)) (hq : (s'.held q).Perm (e :: s.held q))
    (hr : ∀ r, r ≠ p → r ≠ q → s'.held r = s.held r) (hnext : s'.nextEvent = s.nextEvent) :
    Kept s' := by
  refine ⟨h.exclusive.move hne hp hq hr, fun r x hx => ?_⟩
  rw [hnext]
  by_cases hrp : r = p
  · rw [hrp] at hx
    exact h.known p x (hp.mem_iff.mpr (List.mem_cons_of_mem e hx))
  · by_cases hrq : r = q
    · rw [hrq] at hx
      rcases List.mem_cons.mp (hq.mem_iff.mp hx) with rfl | hx
      · exact h.known p x (hp.mem_iff.mpr List.mem_cons_self)
      · exact h.known q x hx
    · rw [hr r hrp hrq] at hx
      exact h.known r x hx

theorem kept_pushEvent {s : State} (h : Kept s) {t : ThreadId} (tic : ℕ) (sess : SessionName)
    (hpc : (s.thread t).pc = .running) : Kept (s.pushEvent t tic sess) := by
  have hnew (r : Place) : s.nextEvent ∉ s.held r := fun hr => Nat.lt_irrefl _ (h.known r _ hr)
  have hr (r : Place) (hne : r ≠ .queue) : (s.pushEvent t tic sess).held r = s.held r := by
    apply held_frame (t := t)
    · exact fun t' ht => setThread_thread_of_ne s _ ht
    · exact fun hq => absurd hq hne
    · exact fun _ => by simp [pushEvent, hpc, Pc.evtSel]
    · exact fun _ => by simp [pushEvent, hpc, Pc.chain]
    · exact fun _ => rfl
  refine ⟨h.exclusive.add (q := .queue) (List.perm_append_singleton ..) hnew hr, ?_⟩
  intro r e he
  by_cases hq : r = .queue
  · rw [hq] at he
    rcases List.mem_append.mp he with he | he
    · exact Nat.lt_succ_of_lt (h.known .queue e he)
    · rw [List.mem_singleton.mp he]
      exact Nat.lt_succ_self _
  · rw [hr r hq] at he
    exact Nat.lt_succ_of_lt (h.known r e he)

theorem kept_group {s : State} (h : Kept s) {t : ThreadId} {sel : List SessionName} {e : EventId}
    {rest chain : List EventId} (hpc : (s.thread t).pc = .chains sel (e :: rest) chain) :
    Kept (s.group t sel e rest chain) := by
  have hother (pc : Pc) (t' : ThreadId) (ht : t' ≠ t) : (s.setPc t pc).thread t' = s.thread t' :=
    setPc_thread_of_ne s pc ht
  have htaken : s.held (.taken t) = e :: rest := by simp [held, hpc, Pc.evtSel]
  have hchain : s.held (.chain t) = chain := by simp [held, hpc, Pc.chain]
  have hrest : ((s.setPc t (.chains sel rest chain)).thread t).pc.chain =
      (s.thread t).pc.chain := by simp [hpc, Pc.chain]
  unfold group
  simp only
  split_ifs with hinvalid hsel
  · -- the event is dropped
    have hr (r : Place) (hne : r ≠ .taken t) :
        (s.setPc t (.chains sel rest chain)).held r = s.held r :=
      held_frame (hother _) (fun _ => rfl) (fun hp => absurd hp hne) (fun _ => hrest) fun _ => rfl
    have htaken' : (s.held (.taken t)).Perm
        (e :: (s.setPc t (.chains sel rest chain)).held (.taken t)) := by
      rw [htaken]
      simp [held, Pc.evtSel]
    have hdrop := h.exclusive.drop htaken' hr
    refine ⟨hdrop.1, fun r x hx => ?_⟩
    by_cases hne : r = .taken t
    · apply h.known (.taken t) x
      rw [hne] at hx
      rw [htaken]
      exact List.mem_cons_of_mem e (by simpa [held, Pc.evtSel] using hx)
    · rw [hr r hne] at hx
      exact h.known r x hx
  · -- it goes into the chains
    refine h.moved (p := .taken t) (q := .chain t) (e := e) (by simp)
      (by rw [htaken]; simp [held, Pc.evtSel]) (by rw [hchain]; simp [held, Pc.chain]) ?_ rfl
    intro r hp hq
    exact held_frame (hother _) (fun _ => rfl) (fun heq => absurd heq hp)
      (fun heq => absurd heq hq) fun _ => rfl
  · -- it goes back to the queue
    refine h.moved (p := .taken t) (q := .queue) (e := e) (by simp)
      (by rw [htaken]; simp [held, Pc.evtSel]) (List.perm_append_singleton ..) ?_ rfl
    intro r hp hq
    exact held_frame (hother _) (fun heq => absurd heq hq) (fun heq => absurd heq hp)
      (fun _ => hrest) fun _ => rfl

/-- A thread goes on to another place of `print` and takes its events with it. -/
theorem Kept.setPc {s : State} {t : ThreadId} {pc : Pc} (h : Kept s)
    (hevtSel : pc.evtSel = (s.thread t).pc.evtSel) (hchain : pc.chain = (s.thread t).pc.chain) :
    Kept (s.setPc t pc) := by
  refine h.same (t := t) (fun t' ht => setPc_thread_of_ne s pc ht) ?_ ?_ rfl rfl (Nat.le_refl _)
  · rw [setPc_thread_self]
    exact hevtSel
  · rw [setPc_thread_self]
    exact hchain

theorem kept_next {threadNum : ℕ} {s s' : State} {a : Action} (h : Kept s)
    (hs : next threadNum s a = some s') : Kept s' := by
  have hother (t : ThreadId) (th : Thread) (t' : ThreadId) (ht : t' ≠ t) :
      (s.setThread t th).thread t' = s.thread t' := setThread_thread_of_ne s th ht
  cases (step_of_next hs).2 with
  | construct hpc hstart =>
    exact h.same (hother _ _) (by simp [setThread, hpc]) (by simp [setThread, hpc]) rfl rfl (Nat.le_refl _)
  | openNothing hpc hstack =>
    exact h.same (hother _ _) (by simp [setThread]) (by simp [setThread]) rfl rfl (Nat.le_refl _)
  | openRegion hpc hstack => exact kept_pushEvent h _ _ hpc
  | stamp hpc =>
    exact h.same (hother _ _) (by simp [setEvent, hpc, Pc.evtSel])
      (by simp [setEvent, hpc, Pc.chain]) rfl rfl (Nat.le_refl _)
  | @closeRegion t k tick event hpc hscope =>
    cases event with
    | none =>
      exact h.same (t := t) (hother _ _) (by simp [closeRegion, setThread])
        (by simp [closeRegion, setThread]) rfl rfl (Nat.le_refl _)
    | some e =>
      exact h.same (t := t) (hother _ _) (by simp [closeRegion, setThread, setEvent])
        (by simp [closeRegion, setThread, setEvent]) rfl rfl (Nat.le_refl _)
  | endObject hpc hscope hd hpc' =>
    refine h.same (hother _ _) ?_ ?_ rfl rfl (Nat.le_refl _) <;> rcases hpc' with rfl | rfl <;>
      simp [setThread, hpc, Pc.evtSel, Pc.chain]
  | print hpc => exact h.setPc (by rw [hpc]; rfl) (by rw [hpc]; rfl)
  | takeSession hpc hready =>
    exact h.same (hother _ _) (by simp [hpc, Pc.evtSel]) (by simp [hpc, Pc.chain]) rfl rfl (Nat.le_refl _)
  | sessionsTaken hpc => exact h.setPc (by rw [hpc]; rfl) (by rw [hpc]; rfl)
  | @takeEvent t sel evts rest e hpc hevents =>
    have htaken : s.held (.taken t) = evts := by simp [held, hpc, Pc.evtSel]
    refine h.moved (p := .queue) (q := .taken t) (e := e) (by simp)
      (by rw [held, hevents]; exact .refl _) ?_ ?_ rfl
    · rw [htaken]
      simp [held, Pc.evtSel]
    · intro r hp hq
      exact held_frame (hother t _) (fun heq => absurd heq hp) (fun heq => absurd heq hq)
        (fun _ => by simp [hpc, Pc.chain]) fun _ => rfl
  | eventsTaken hpc => exact h.setPc (by rw [hpc]; rfl) (by rw [hpc]; rfl)
  | group hpc => exact kept_group h hpc
  | @release t k sel chain e hpc he =>
    have hchain : s.held (.chain t) = chain := by simp [held, hpc, Pc.chain]
    obtain ⟨hk, rfl⟩ := List.getElem?_eq_some_iff.mp he
    refine h.moved (p := .chain t) (q := .released) (e := chain[k]) (by simp) ?_ (.refl _) ?_ rfl
    · rw [hchain]
      simpa [held, Pc.chain] using (List.getElem_cons_eraseIdx_perm hk).symm
    · intro r hp hq
      exact held_frame (hother t _) (fun _ => rfl) (fun _ => by simp [hpc, Pc.evtSel])
        (fun heq => absurd heq hp) fun heq => absurd heq hq
  | finish hpc => exact h.setPc (by rw [hpc]; rfl) (by rw [hpc]; rfl)

end State
end CrisCore.Timeline
