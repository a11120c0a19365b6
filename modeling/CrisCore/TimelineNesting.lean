import CrisCore.TimelineSessions

/-! Nested `Session` and `LocalSession` objects on one thread: what their constructors and
destructors do to the sessions of the thread. -/
namespace CrisCore.Timeline

inductive ObjectKind
  | session
  | localSession
  deriving DecidableEq

/-- `started` is history: what `start` returned to the constructor, which does not keep it. -/
structure Object where
  kind : ObjectKind
  name : SessionName
  started : Option SessionName
  deriving DecidableEq

/-- What the destructor's `pause` or `stop` does; `none` where it asks an empty stack for its top. -/
def destruct (kind : ObjectKind) (s : Sessions) : Option (Option SessionName × Sessions) :=
  match kind with
  | .session => s.pause
  | .localSession => s.stop.map fun (returned, _, s') => (returned, s')

theorem destruct_eq (kind : ObjectKind) (s : Sessions) :
    destruct kind s = s.leave.map fun left => (left.returned, left.sessions) := by
  cases kind with
  | session => rfl
  | localSession =>
    simp only [destruct, Sessions.stop, Option.map_map]
    rfl

/-- The open objects are listed innermost first. Once `undefined` is set, the sessions stand for
nothing any more. -/
structure Nest where
  sessions : Sessions
  objects : List Object
  undefined : Bool

namespace Nest

inductive Action
  | construct (kind : ObjectKind) (name : SessionName)
  | destroy
  deriving DecidableEq

def initial : Nest where
  sessions := .initial
  objects := []
  undefined := false

def construct (s : Nest) (kind : ObjectKind) (name : SessionName) : Nest :=
  match s.sessions.start name with
  | none => { s with objects := ⟨kind, name, none⟩ :: s.objects, undefined := true }
  | some (started, sessions) =>
    { s with sessions := sessions, objects := ⟨kind, name, started⟩ :: s.objects }

def destroy (s : Nest) (object : Object) (rest : List Object) : Nest :=
  match destruct object.kind s.sessions with
  | none => { s with objects := rest, undefined := true }
  | some (_, sessions) => { s with sessions := sessions, objects := rest }

def next (s : Nest) : Action → Option Nest
  | .construct kind name => some (s.construct kind name)
  | .destroy =>
    match s.objects with
    | [] => none
    | object :: rest => some (s.destroy object rest)

def system : TransitionSystem Nest Action where
  init s := s = initial
  step := next

/-- A destruction ends no session but the one that its own constructor started. -/
def EndsOwn (s : Nest) : Action → Prop
  | .construct _ _ => True
  | .destroy => ∀ object ∈ s.objects.head?, ∀ returned s',
      destruct object.kind s.sessions = some (returned, s') →
        ∀ sess ∈ returned, object.started = some sess

/-- No empty stack was asked for its top, and without an object there is no session. -/
def Clean (s : Nest) : Prop :=
  s.undefined = false ∧
    (s.objects = [] → s.sessions.sessStack = [] ∧ ∀ n, s.sessions.sessCnt n = 0)

/-- The names of the objects that were not refused. -/
def accepted : List Object → List SessionName
  | [] => []
  | object :: rest =>
    if Sessions.Openable (accepted rest) object.name then object.name :: accepted rest
    else accepted rest

/-- The object to be destroyed was not constructed inside another session while its name was open. -/
def DestroysOpened (s : Nest) : Action → Prop
  | .construct _ _ => True
  | .destroy => ∀ object ∈ s.objects.head?,
      Sessions.Openable (accepted s.objects.tail) object.name

instance (s : Nest) : (a : Action) → Decidable (DestroysOpened s a)
  | .construct _ _ => .isTrue trivial
  | .destroy => inferInstanceAs (Decidable (∀ object ∈ s.objects.head?, _))

/-- Each open object was started exactly when its name could be opened. -/
inductive Started : List Object → Prop
  | nil : Started []
  | cons {object : Object} {rest : List Object} (h : Started rest)
      (hs : object.started = if Sessions.Openable (accepted rest) object.name then some object.name
        else none) : Started (object :: rest)

structure Inv (s : Nest) : Prop where
  defined : s.undefined = false
  follows : s.sessions.Follows (accepted s.objects)
  started : Started s.objects

theorem inv_initial : Inv initial :=
  ⟨rfl, Sessions.follows_initial, .nil⟩

theorem inv_construct {s : Nest} (h : Inv s) (kind : ObjectKind) (name : SessionName) :
    Inv (s.construct kind name) := by
  unfold construct
  by_cases ho : Sessions.Openable (accepted s.objects) name
  · obtain ⟨sessions, hs, hf⟩ := h.follows.start ho
    rw [hs]
    refine ⟨h.defined, ?_, .cons h.started (by rw [if_pos ho])⟩
    simpa only [accepted, if_pos ho] using hf
  · rw [h.follows.start_refused ho]
    refine ⟨h.defined, ?_, .cons h.started (by rw [if_neg ho])⟩
    simpa only [accepted, if_neg ho] using h.follows

/-- The destruction of an object that was opened ends its session. -/
theorem inv_destroy {s : Nest} {object : Object} {rest : List Object} (h : Inv s)
    (hobjects : s.objects = object :: rest)
    (ho : Sessions.Openable (accepted rest) object.name) :
    Inv (s.destroy object rest) ∧ ∃ s', destruct object.kind s.sessions = some (object.started, s') := by
  have hstarted := h.started
  have hfollows := h.follows
  rw [hobjects] at hstarted hfollows
  simp only [accepted, if_pos ho] at hfollows
  obtain ⟨left, hleave, hreturned, -, hleft⟩ := hfollows.leave
  cases hstarted with
  | cons hrest hs =>
    rw [if_pos ho] at hs
    have hd : destruct object.kind s.sessions = some (object.started, left.sessions) := by
      rw [destruct_eq, hleave, Option.map_some, hreturned, hs]
    refine ⟨?_, left.sessions, hd⟩
    unfold destroy
    rw [hd]
    exact ⟨h.defined, hleft, hrest⟩

/-- An object that was refused ends the session of another one. -/
theorem destruct_refused {s : Nest} {object : Object} {rest : List Object} (h : Inv s)
    (hobjects : s.objects = object :: rest)
    (ho : ¬ Sessions.Openable (accepted rest) object.name) :
    object.started = none ∧ ∃ n s', destruct object.kind s.sessions = some (some n, s') := by
  have hstarted := h.started
  have hfollows := h.follows
  rw [hobjects] at hstarted hfollows
  simp only [accepted, if_neg ho] at hfollows
  cases hstarted with
  | cons hrest hs =>
    rw [if_neg ho] at hs
    refine ⟨hs, ?_⟩
    cases hnames : accepted rest with
    | nil => exact absurd (.inl (by simp [hnames])) ho
    | cons n names =>
      rw [hnames] at hfollows
      obtain ⟨left, hleave, hreturned, -⟩ := hfollows.leave
      exact ⟨n, left.sessions, by rw [destruct_eq, hleave, Option.map_some, hreturned]⟩

theorem inv_next {s s' : Nest} {a : Action} (h : Inv s) (hc : DestroysOpened s a)
    (hs : s.next a = some s') : Inv s' := by
  cases a with
  | construct kind name =>
    cases hs
    exact inv_construct h kind name
  | destroy =>
    cases hobjects : s.objects with
    | nil => simp [next, hobjects] at hs
    | cons object rest =>
      simp only [next, hobjects, Option.some.injEq] at hs
      subst hs
      simp only [DestroysOpened, hobjects, List.head?_cons, List.tail_cons, Option.mem_some_iff,
        forall_eq'] at hc
      exact (inv_destroy h hobjects hc).1

theorem endsOwn_iff {s : Nest} (h : Inv s) (a : Action) : DestroysOpened s a ↔ EndsOwn s a := by
  cases a with
  | construct kind name => exact Iff.rfl
  | destroy =>
    cases hobjects : s.objects with
    | nil => simp [DestroysOpened, EndsOwn, hobjects]
    | cons object rest =>
      simp only [DestroysOpened, EndsOwn, hobjects, List.head?_cons, List.tail_cons,
        Option.mem_some_iff, forall_eq']
      constructor
      · intro ho returned s' hd sess hsess
        obtain ⟨s'', hown⟩ := (inv_destroy h hobjects ho).2
        cases hown.symm.trans hd
        exact hsess
      · intro hends
        by_contra ho
        obtain ⟨hstarted, n, s', hd⟩ := destruct_refused h hobjects ho
        cases hstarted.symm.trans (hends (some n) s' hd n rfl)

theorem clean_of_inv {s : Nest} (h : Inv s) : Clean s := by
  refine ⟨h.defined, fun hobjects => ?_⟩
  have hfollows := h.follows
  rw [hobjects] at hfollows
  refine ⟨?_, fun n => (hfollows.count n).trans rfl⟩
  have hhead := hfollows.nested.head?
  exact List.head?_eq_none_iff.mp hhead

/-- Whichever objects are refused, and whatever is destroyed, the stack holds the sessions that are
counted, each once. -/
theorem reachable_counted {s : Nest} (h : system.Reachable s) : s.sessions.Counted := by
  refine TransitionSystem.Reachable.invariant (P := fun s : Nest => s.sessions.Counted) h ?_ ?_
  · intro s hs
    cases hs
    exact Sessions.counted_initial
  · intro u a v hu hv
    cases a with
    | construct kind name =>
      cases hv
      unfold construct
      split
      · exact hu
      · next hstart => exact hu.start hstart
    | destroy =>
      simp only [system, next] at hv
      split at hv
      · cases hv
      · next object rest _ =>
        cases hv
        unfold destroy
        split
        · exact hu
        · next hdestruct =>
          rw [destruct_eq] at hdestruct
          obtain ⟨left, hleave, heq⟩ := Option.map_eq_some_iff.mp hdestruct
          cases heq
          exact (hu.leave hleave).1

/-- In a sequence of nested constructions and destructions no empty stack is asked for its top, every
destruction ends only its own session and nothing remains in the end, exactly when no object is
destroyed that was refused. -/
theorem nested_sessions_safe (as : List Action) :
    (system.StepsMeet EndsOwn initial as ∧ system.StatesMeet Clean initial as) ↔
      system.StepsMeet DestroysOpened initial as := by
  have hiff : system.StepsMeet DestroysOpened initial as ↔ system.StepsMeet EndsOwn initial as :=
    TransitionSystem.stepsMeet_congr_of_kept inv_initial (fun _ _ _ h hc hs => inv_next h hc hs)
      fun _ a h => endsOwn_iff h a
  constructor
  · exact fun h => hiff.mpr h.1
  · intro h
    refine ⟨hiff.mp h, ?_⟩
    have hinv : system.StatesMeet Inv initial as :=
      h.statesMeet inv_initial fun _ _ _ h hc hs => inv_next h hc hs
    exact hinv.mono fun _ h => clean_of_inv h

/-- The first session is opened again inside the second one. -/
def reopened : List Action :=
  [.construct .session 1, .construct .localSession 2, .construct .session 1,
    .destroy, .destroy, .destroy]

/-- The refused object ends the second session, and the last destruction finds the stack empty. -/
theorem reopened_session_breaks : ∃ s, system.exec initial reopened = some s ∧ s.objects = [] ∧
    s.undefined = true ∧ ¬ system.StepsMeet EndsOwn initial reopened := by
  refine ⟨_, rfl, rfl, rfl, fun h => ?_⟩
  have hthird := (((h.2 _ rfl).2 _ rfl).2 _ rfl).1
  cases hthird _ rfl (some 2) _ rfl 2 rfl

end Nest
end CrisCore.Timeline
