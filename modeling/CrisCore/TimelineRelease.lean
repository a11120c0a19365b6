import CrisCore.TimelinePrint

/-! When `print` frees no event of a region that is still open. -/
namespace CrisCore.Timeline.State

def RegionOpen (threadNum : ℕ) (s : State) (e : EventId) : Prop :=
  ∃ t < threadNum, Scope.region (some e) ∈ (s.thread t).scopes

def SessionActive (threadNum : ℕ) (s : State) (sess : SessionName) : Prop :=
  ∃ t < threadNum, 0 < (s.thread t).sessions.sessCnt sess

instance (threadNum : ℕ) (s : State) (e : EventId) : Decidable (RegionOpen threadNum s e) :=
  inferInstanceAs (Decidable (∃ t < threadNum, _))

instance (threadNum : ℕ) (s : State) (sess : SessionName) :
    Decidable (SessionActive threadNum s sess) :=
  inferInstanceAs (Decidable (∃ t < threadNum, _))

/-- The region of an event that is freed is closed, and its session is active on no thread. -/
def ReleasesClosed (threadNum : ℕ) (s : State) : Action → Prop
  | .release t k => t < threadNum → ∀ e ∈ (s.thread t).pc.chain[k]?,
      ¬ RegionOpen threadNum s e ∧ ¬ SessionActive threadNum s (s.event e).sess
  | _ => True

instance (threadNum : ℕ) (s : State) : (a : Action) → Decidable (ReleasesClosed threadNum s a)
  | .release t k =>
    inferInstanceAs (Decidable (t < threadNum → ∀ e ∈ (s.thread t).pc.chain[k]?, _))
  | .construct .. | .openRegion .. | .stamp .. | .destroy .. | .print .. | .takeSession ..
  | .sessionsTaken .. | .takeEvent .. | .eventsTaken .. | .group .. | .finish .. => .isTrue trivial

/-- The names of the objects of a thread that were not refused. -/
def names (scopes : List Scope) : List SessionName :=
  Nest.accepted (objectsOf scopes)

/-- The `k`-th object is a region, or it is the innermost object and was not refused. -/
def Ends (scopes : List Scope) (k : ℕ) : Prop :=
  match scopes[k]? with
  | some (.object object) => k = 0 ∧ Sessions.Openable (names scopes.tail) object.name
  | _ => True

instance (scopes : List Scope) (k : ℕ) : Decidable (Ends scopes k) := by
  unfold Ends
  split <;> infer_instance

/-- No session is open on a thread when a `print` takes its name or is opened before that `print`
has finished, and every object that ends a session ends its own. -/
def KeepsApart (threadNum : ℕ) (s : State) : Action → Prop
  | .construct _ _ name => ∀ t < threadNum, name ∉ (s.thread t).pc.sessSel
  | .takeSession _ => ∀ sess ∈ s.sessReady.head?, ¬ SessionActive threadNum s sess
  | .destroy t k _ => Ends (s.thread t).scopes k
  | _ => True

instance (threadNum : ℕ) (s : State) : (a : Action) → Decidable (KeepsApart threadNum s a)
  | .construct .. => inferInstanceAs (Decidable (∀ t < threadNum, _))
  | .takeSession _ => inferInstanceAs (Decidable (∀ sess ∈ s.sessReady.head?, _))
  | .destroy t k _ => inferInstanceAs (Decidable (Ends (s.thread t).scopes k))
  | .openRegion .. | .stamp .. | .print .. | .sessionsTaken .. | .takeEvent .. | .eventsTaken ..
  | .group .. | .release .. | .finish .. => .isTrue trivial

/-- Every open region that has an event lies in an open object of the event's session. -/
def RegionsIn (event : EventId → Event) (nextEvent : EventId) : List Scope → Prop
  | [] => True
  | .object _ :: rest | .region none :: rest => RegionsIn event nextEvent rest
  | .region (some e) :: rest =>
    (e < nextEvent ∧ (event e).sess ∈ names rest) ∧ RegionsIn event nextEvent rest

theorem names_object (object : Object) (scopes : List Scope) :
    names (.object object :: scopes) =
      if Sessions.Openable (names scopes) object.name then object.name :: names scopes
      else names scopes := rfl

theorem names_cons_subset (scope : Scope) (scopes : List Scope) :
    names scopes ⊆ names (scope :: scopes) := by
  cases scope with
  | region event => exact List.Subset.refl _
  | object object =>
    rw [names_object]
    split_ifs
    · exact List.subset_cons_self ..
    · exact List.Subset.refl _

theorem RegionsIn.of_mem {event : EventId → Event} {nextEvent e : EventId} {scopes : List Scope}
    (h : RegionsIn event nextEvent scopes) (he : Scope.region (some e) ∈ scopes) :
    (event e).sess ∈ names scopes := by
  induction scopes with
  | nil => cases he
  | cons scope scopes ih =>
    rcases List.mem_cons.mp he with hscope | he
    · subst hscope
      exact h.1.2
    · refine names_cons_subset scope scopes (ih ?_ he)
      cases scope with
      | object object => exact h
      | region event' =>
        cases event' with
        | none => exact h
        | some e' => exact h.2

theorem RegionsIn.mono {event event' : EventId → Event} {nextEvent nextEvent' : EventId}
    {scopes : List Scope} (h : RegionsIn event nextEvent scopes) (hnext : nextEvent ≤ nextEvent')
    (hevent : ∀ e < nextEvent, (event' e).sess = (event e).sess) :
    RegionsIn event' nextEvent' scopes := by
  induction scopes with
  | nil => trivial
  | cons scope scopes ih =>
    cases scope with
    | object object => exact ih h
    | region region =>
      cases region with
      | none => exact ih h
      | some e =>
        obtain ⟨⟨he, hsess⟩, hrest⟩ := h
        refine ⟨⟨Nat.lt_of_lt_of_le he hnext, ?_⟩, ih hrest⟩
        rwa [hevent e he]

theorem objectsOf_eraseIdx {scopes : List Scope} {k : ℕ} {event : Option EventId}
    (hk : scopes[k]? = some (.region event)) : objectsOf (scopes.eraseIdx k) = objectsOf scopes := by
  induction scopes generalizing k with
  | nil => simp at hk
  | cons scope scopes ih =>
    cases k with
    | zero =>
      rw [List.getElem?_cons_zero, Option.some.injEq] at hk
      rw [hk]
      rfl
    | succ k =>
      rw [List.getElem?_cons_succ] at hk
      cases scope with
      | object object => exact congrArg (List.cons object) (ih hk)
      | region region => exact ih hk

theorem RegionsIn.eraseIdx {event : EventId → Event} {nextEvent : EventId} {scopes : List Scope}
    {k : ℕ} {region : Option EventId} (h : RegionsIn event nextEvent scopes)
    (hk : scopes[k]? = some (.region region)) : RegionsIn event nextEvent (scopes.eraseIdx k) := by
  induction scopes generalizing k with
  | nil => trivial
  | cons scope scopes ih =>
    cases k with
    | zero =>
      rw [List.getElem?_cons_zero, Option.some.injEq] at hk
      subst hk
      cases region with
      | none => exact h
      | some e => exact h.2
    | succ k =>
      rw [List.getElem?_cons_succ] at hk
      cases scope with
      | object object => exact ih h hk
      | region region' =>
        cases region' with
        | none => exact ih h hk
        | some e =>
          refine ⟨⟨h.1.1, ?_⟩, ih h.2 hk⟩
          rw [names, objectsOf_eraseIdx hk]
          exact h.1.2

structure Inv (threadNum : ℕ) (s : State) : Prop where
  kept : Kept s
  nest : ∀ t, Nest.Inv (s.thread t).nest
  regions : ∀ t, RegionsIn s.event s.nextEvent (s.thread t).scopes
  chosen : ∀ t, ∀ e ∈ (s.thread t).pc.chain, (s.event e).sess ∈ (s.thread t).pc.sessSel
  quiet : ∀ t < threadNum, ∀ n ∈ (s.thread t).pc.sessSel, ∀ t' < threadNum,
    n ∉ names (s.thread t').scopes

theorem inv_initial (threadNum : ℕ) : Inv threadNum initial where
  kept := kept_initial
  nest _ := Nest.inv_initial
  regions _ := trivial
  chosen _ _ he := nomatch he
  quiet _ _ _ hn := nomatch hn

/-- A name is counted on a thread exactly when one of its objects that were not refused has it. -/
theorem Inv.active_iff {threadNum : ℕ} {s : State} (h : Inv threadNum s) (t : ThreadId)
    (n : SessionName) : 0 < (s.thread t).sessions.sessCnt n ↔ n ∈ names (s.thread t).scopes := by
  have hcount : (s.thread t).sessions.sessCnt n = (names (s.thread t).scopes).count n :=
    (h.nest t).follows.count n
  rw [hcount]
  exact List.count_pos_iff

/-- What a step of one thread has to show for the invariant. -/
theorem Inv.changed {threadNum : ℕ} {s s' : State} {t : ThreadId} {th : Thread}
    (h : Inv threadNum s) (hkept : Kept s') (hself : s'.thread t = th)
    (hthread : ∀ t', t' ≠ t → s'.thread t' = s.thread t') (hnext : s.nextEvent ≤ s'.nextEvent)
    (hevent : ∀ e < s.nextEvent, (s'.event e).sess = (s.event e).sess) (hnest : Nest.Inv th.nest)
    (hregions : RegionsIn s'.event s'.nextEvent th.scopes)
    (hchosen : ∀ e ∈ th.pc.chain, (s'.event e).sess ∈ th.pc.sessSel)
    (hsel : ∀ n ∈ th.pc.sessSel, n ∈ (s.thread t).pc.sessSel ∨
      ∀ t' < threadNum, n ∉ names (s'.thread t').scopes)
    (hnames : ∀ n ∈ names th.scopes, n ∈ names (s.thread t).scopes ∨
      ∀ t' < threadNum, n ∉ (s'.thread t').pc.sessSel) : Inv threadNum s' := by
  refine ⟨hkept, fun t' => ?_, fun t' => ?_, fun t' e he => ?_, fun t₁ h₁ n hn t₂ h₂ hn' => ?_⟩
  · by_cases ht : t' = t
    · rwa [ht, hself]
    · rw [hthread t' ht]
      exact h.nest t'
  · by_cases ht : t' = t
    · rwa [ht, hself]
    · rw [hthread t' ht]
      exact (h.regions t').mono hnext hevent
  · by_cases ht : t' = t
    · rw [ht, hself] at he ⊢
      exact hchosen e he
    · rw [hthread t' ht] at he ⊢
      rw [hevent e (h.kept.known (.chain t') e he)]
      exact h.chosen t' e he
  · -- a session that is taken and open after the step was both before it
    have hold : n ∈ (s.thread t₁).pc.sessSel := by
      by_cases ht : t₁ = t
      · rw [ht, hself] at hn
        rw [ht]
        exact (hsel n hn).resolve_right fun hnot => hnot t₂ h₂ hn'
      · rwa [hthread t₁ ht] at hn
    have hold' : n ∈ names (s.thread t₂).scopes := by
      by_cases ht : t₂ = t
      · rw [ht, hself] at hn'
        rw [ht]
        exact (hnames n hn').resolve_right fun hnot => hnot t₁ h₁ hn
      · rwa [hthread t₂ ht] at hn'
    exact h.quiet t₁ h₁ n hold t₂ h₂ hold'

/-- A step that only moves a thread on inside `push` or `print`. -/
theorem Inv.moved {threadNum : ℕ} {s s' : State} {t : ThreadId} {pc : Pc} (h : Inv threadNum s)
    (hkept : Kept s') (hself : s'.thread t = { s.thread t with pc := pc })
    (hthread : ∀ t', t' ≠ t → s'.thread t' = s.thread t') (hnext : s'.nextEvent = s.nextEvent)
    (hevent : ∀ e, (s'.event e).sess = (s.event e).sess)
    (hchosen : ∀ e ∈ pc.chain, (s.event e).sess ∈ pc.sessSel)
    (hsel : ∀ n ∈ pc.sessSel, n ∈ (s.thread t).pc.sessSel) : Inv threadNum s' := by
  refine h.changed hkept hself hthread (Nat.le_of_eq hnext.symm) (fun e _ => hevent e) (h.nest t)
    ((h.regions t).mono (Nat.le_of_eq hnext.symm) fun e _ => hevent e) (fun e he => ?_) (fun n hn => .inl (hsel n hn))
    (fun n hn => .inl hn)
  rw [hevent e]
  exact hchosen e he

theorem nest_eq (th : Thread) : th.nest = ⟨th.sessions, objectsOf th.scopes, false⟩ := rfl

theorem inv_construct {threadNum : ℕ} {s : State} (h : Inv threadNum s) {t : ThreadId}
    {kind : ObjectKind} {name : SessionName} {started : Option SessionName} {sessions : Sessions}
    (hkept : Kept (s.setThread t
      ⟨sessions, .object ⟨kind, name, started⟩ :: (s.thread t).scopes, .running⟩))
    (hstart : (s.thread t).sessions.start name = some (started, sessions))
    (hc : ∀ t' < threadNum, name ∉ (s.thread t').pc.sessSel) : Inv threadNum (s.setThread t
      ⟨sessions, .object ⟨kind, name, started⟩ :: (s.thread t).scopes, .running⟩) := by
  have hnest := Nest.inv_construct (h.nest t) kind name
  simp only [Nest.construct, nest_eq, hstart] at hnest
  refine h.changed hkept (Function.update_self ..) (fun t' => setThread_thread_of_ne s _)
    (Nat.le_refl _) (fun _ _ => rfl) hnest (h.regions t) (fun e he => nomatch he)
    (fun n hn => nomatch hn) ?_
  intro n hn
  rw [names_object] at hn
  split_ifs at hn with ho
  · rcases List.mem_cons.mp hn with rfl | hn
    · -- the session that opens, which nobody has taken
      refine .inr fun t' ht' => ?_
      by_cases ht : t' = t
      · rw [ht, setThread_thread_self]
        exact List.not_mem_nil
      · rw [setThread_thread_of_ne s _ ht]
        exact hc t' ht'
    · exact .inl hn
  · exact .inl hn

theorem inv_pushEvent {threadNum : ℕ} {s : State} (h : Inv threadNum s) {t : ThreadId} {tic : ℕ}
    {sess : SessionName} {rest : List SessionName} (hkept : Kept (s.pushEvent t tic sess))
    (hstack : (s.thread t).sessions.sessStack = sess :: rest) :
    Inv threadNum (s.pushEvent t tic sess) := by
  have hevent (e : EventId) (he : e < s.nextEvent) : (s.pushEvent t tic sess).event e = s.event e :=
    Function.update_of_ne (Nat.ne_of_lt he) ..
  -- the region belongs to the innermost session of the thread
  have hopen : sess ∈ names (s.thread t).scopes := by
    have hhead := (h.nest t).follows.nested.head?
    simp only [nest_eq, hstack, List.head?_cons] at hhead
    exact List.mem_of_head? hhead.symm
  refine h.changed hkept (Function.update_self ..) (fun t' => setThread_thread_of_ne s _)
    (Nat.le_succ _) (fun e he => by rw [hevent e he]) (h.nest t) ?_ (fun e he => nomatch he)
    (fun n hn => nomatch hn) (fun n hn => .inl hn)
  refine ⟨⟨Nat.lt_succ_self _, ?_⟩, (h.regions t).mono (Nat.le_succ _) fun e he => by rw [hevent e he]⟩
  simp only [pushEvent, Function.update_self]
  exact hopen

theorem inv_closeRegion {threadNum : ℕ} {s : State} (h : Inv threadNum s) {t : ThreadId} {k : ℕ}
    {tick : ℕ} {event : Option EventId}
    (hkept : Kept (s.closeRegion t ((s.thread t).scopes.eraseIdx k) tick event))
    (hscope : (s.thread t).scopes[k]? = some (.region event)) :
    Inv threadNum (s.closeRegion t ((s.thread t).scopes.eraseIdx k) tick event) := by
  have hself : (s.closeRegion t ((s.thread t).scopes.eraseIdx k) tick event).thread t =
      { s.thread t with scopes := (s.thread t).scopes.eraseIdx k } := by
    cases event <;> exact Function.update_self ..
  have hthread (t' : ThreadId) (ht : t' ≠ t) :
      (s.closeRegion t ((s.thread t).scopes.eraseIdx k) tick event).thread t' = s.thread t' := by
    cases event <;> exact Function.update_of_ne ht ..
  have hsess (e : EventId) :
      ((s.closeRegion t ((s.thread t).scopes.eraseIdx k) tick event).event e).sess =
        (s.event e).sess := by
    cases event with
    | none => rfl
    | some e' =>
      by_cases he : e = e'
      · simp [closeRegion, setEvent, he]
      · simp [closeRegion, setEvent, setThread, he]
  have hnext : (s.closeRegion t ((s.thread t).scopes.eraseIdx k) tick event).nextEvent =
      s.nextEvent := by
    cases event <;> rfl
  -- a region goes, and the session objects stay
  have hobjects := objectsOf_eraseIdx hscope
  refine h.changed hkept hself hthread (Nat.le_of_eq hnext.symm) (fun e _ => hsess e) ?_
    (((h.regions t).eraseIdx hscope).mono (Nat.le_of_eq hnext.symm) fun e _ => hsess e) (fun e he => ?_)
    (fun n hn => .inl hn) (fun n hn => .inl ?_)
  · simp only [nest_eq, hobjects]
    exact h.nest t
  · rw [hsess]
    exact h.chosen t e he
  · rw [names, hobjects] at hn
    exact hn

/-- The innermost object, which was not refused, ends its session. -/
theorem inv_endObject {threadNum : ℕ} {s : State} (h : Inv threadNum s) {t : ThreadId} {k : ℕ}
    {object : Object} {returned : Option SessionName} {sessions : Sessions} {pc : Pc}
    {ready : List SessionName}
    (hkept : Kept { s.setThread t ⟨sessions, (s.thread t).scopes.eraseIdx k, pc⟩ with
      sessReady := s.sessReady ++ ready })
    (hscope : (s.thread t).scopes[k]? = some (.object object))
    (hd : destruct object.kind (s.thread t).sessions = some (returned, sessions))
    (hpc : pc = .running ∨ pc = .readySessions []) (hc : Ends (s.thread t).scopes k) :
    Inv threadNum { s.setThread t ⟨sessions, (s.thread t).scopes.eraseIdx k, pc⟩ with
      sessReady := s.sessReady ++ ready } := by
  rw [Ends, hscope] at hc
  obtain ⟨rfl, hopen⟩ := hc
  obtain ⟨rest, hscopes⟩ : ∃ rest, (s.thread t).scopes = .object object :: rest := by
    cases hs : (s.thread t).scopes with
    | nil => simp [hs] at hscope
    | cons scope rest =>
      rw [hs, List.getElem?_cons_zero, Option.some.injEq] at hscope
      exact ⟨rest, by rw [hscope]⟩
  have hrest : (s.thread t).scopes.eraseIdx 0 = rest := by rw [hscopes]; rfl
  rw [hscopes, List.tail_cons] at hopen
  have hobjects : (s.thread t).nest.objects = object :: objectsOf rest := by
    rw [nest_eq, hscopes]
    rfl
  have hnest := (Nest.inv_destroy (h.nest t) hobjects hopen).1
  simp only [Nest.destroy, nest_eq, hd] at hnest
  have hregions := h.regions t
  rw [hscopes] at hregions
  -- `print` has taken nothing yet
  have hempty : pc.sessSel = [] ∧ pc.chain = [] := by
    rcases hpc with rfl | rfl <;> exact ⟨rfl, rfl⟩
  rw [hrest] at hkept ⊢
  refine h.changed hkept (Function.update_self ..) (fun t' => setThread_thread_of_ne s _)
    (Nat.le_refl _) (fun _ _ => rfl) hnest hregions (fun e he => ?_) (fun n hn => ?_)
    (fun n hn => .inl ?_)
  · rw [hempty.2] at he
    cases he
  · rw [hempty.1] at hn
    cases hn
  · rw [hscopes]
    exact names_cons_subset _ _ hn

theorem inv_group {threadNum : ℕ} {s : State} (h : Inv threadNum s) {t : ThreadId}
    {sel : List SessionName} {e : EventId} {rest chain : List EventId}
    (hkept : Kept (s.group t sel e rest chain))
    (hpc : (s.thread t).pc = .chains sel (e :: rest) chain) :
    Inv threadNum (s.group t sel e rest chain) := by
  have hchosen := h.chosen t
  rw [hpc] at hchosen
  unfold group at hkept ⊢
  simp only at hkept ⊢
  split_ifs at hkept ⊢ with hinvalid hsel
  · exact h.moved hkept (setPc_thread_self ..) (fun t' => setPc_thread_of_ne s _) rfl (fun _ => rfl)
      hchosen (by rw [hpc]; exact fun n hn => hn)
  · refine h.moved hkept (setPc_thread_self ..) (fun t' => setPc_thread_of_ne s _) rfl (fun _ => rfl)
      (fun e' he' => ?_) (by rw [hpc]; exact fun n hn => hn)
    -- only an event of a session that was taken gets into the chains
    rcases List.mem_cons.mp he' with rfl | he'
    · exact hsel
    · exact hchosen e' he'
  · exact h.moved hkept (setPc_thread_self ..) (fun t' => setPc_thread_of_ne s _) rfl (fun _ => rfl)
      hchosen (by rw [hpc]; exact fun n hn => hn)

theorem inv_next {threadNum : ℕ} {s s' : State} {a : Action} (h : Inv threadNum s)
    (hc : KeepsApart threadNum s a) (hs : next threadNum s a = some s') : Inv threadNum s' := by
  have hkept := kept_next h.kept hs
  have hother (t : ThreadId) (pc : Pc) (t' : ThreadId) (ht : t' ≠ t) :
      (s.setPc t pc).thread t' = s.thread t' := setPc_thread_of_ne s pc ht
  cases (step_of_next hs).2 with
  | construct hpc hstart => exact inv_construct h hkept hstart hc
  | @openNothing t tic hpc hstack =>
    exact h.changed hkept (setThread_thread_self ..) (fun t' => setThread_thread_of_ne s _)
      (Nat.le_refl _) (fun _ _ => rfl) (h.nest t) (h.regions t) (h.chosen t) (fun n hn => .inl hn)
      fun n hn => .inl hn
  | openRegion hpc hstack => exact inv_pushEvent h hkept hstack
  | @stamp t toc e hpc =>
    refine h.moved hkept (setPc_thread_self ..) (hother t _) rfl (fun e' => ?_)
      (fun e he => by cases he) fun n hn => by cases hn
    by_cases he : e' = e
    · simp [setEvent, he]
    · simp [setEvent, setPc, setThread, he]
  | closeRegion hpc hscope => exact inv_closeRegion h hkept hscope
  | endObject hpc hscope hd hpc' => exact inv_endObject h hkept hscope hd hpc' hc
  | @print t hpc =>
    exact h.moved hkept (setPc_thread_self ..) (hother t _) rfl (fun _ => rfl)
      (fun e he => by cases he) fun n hn => by cases hn
  | @takeSession t sel rest sess hpc hready =>
    simp only [KeepsApart, hready, List.head?_cons, Option.mem_some_iff, forall_eq'] at hc
    refine h.changed hkept (setPc_thread_self ..) (hother t _) (Nat.le_refl _) (fun _ _ => rfl)
      (h.nest t) (h.regions t) (fun e he => by cases he) (fun n hn => ?_) fun n hn => .inl hn
    rw [hpc]
    rcases List.mem_append.mp hn with hn | hn
    · exact .inl hn
    · -- the condition: no thread has the session that is taken
      rw [List.mem_singleton.mp hn]
      refine .inr fun t' ht' hn' => hc ⟨t', ht', (h.active_iff t' sess).mpr ?_⟩
      by_cases ht : t' = t
      · rw [ht] at hn' ⊢
        simpa using hn'
      · rwa [← hother t _ t' ht]
  | @sessionsTaken t sel hpc =>
    exact h.moved hkept (setPc_thread_self ..) (hother t _) rfl (fun _ => rfl)
      (fun e he => by cases he) (by rw [hpc]; exact fun n hn => hn)
  | @takeEvent t sel evts rest e hpc hevents =>
    exact h.moved hkept (setPc_thread_self ..) (hother t _) rfl (fun _ => rfl)
      (fun e he => by cases he) (by rw [hpc]; exact fun n hn => hn)
  | @eventsTaken t sel evts hpc =>
    exact h.moved hkept (setPc_thread_self ..) (hother t _) rfl (fun _ => rfl)
      (fun e he => by cases he) (by rw [hpc]; exact fun n hn => hn)
  | group hpc => exact inv_group h hkept hpc
  | @release t k sel chain e hpc he =>
    have hchosen := h.chosen t
    rw [hpc] at hchosen
    exact h.moved hkept (setPc_thread_self ..) (hother t _) rfl (fun _ => rfl)
      (fun e' he' => hchosen e' (List.mem_of_mem_eraseIdx he')) (by rw [hpc]; exact fun n hn => hn)
  | @finish t sel hpc =>
    exact h.moved hkept (setPc_thread_self ..) (hother t _) rfl (fun _ => rfl)
      (fun e he => by cases he) fun n hn => by cases hn

theorem releasesClosed_of_inv {threadNum : ℕ} {s : State} (h : Inv threadNum s) (a : Action) :
    ReleasesClosed threadNum s a := by
  cases a with
  | release t k =>
    intro ht e he
    -- only events of sessions that were taken are in the chains
    have hsel : (s.event e).sess ∈ (s.thread t).pc.sessSel :=
      h.chosen t e (List.mem_of_getElem? he)
    constructor
    · rintro ⟨t', ht', hregion⟩
      exact h.quiet t ht _ hsel t' ht' ((h.regions t').of_mem hregion)
    · rintro ⟨t', ht', hactive⟩
      exact h.quiet t ht _ hsel t' ht' ((h.active_iff t' _).mp hactive)
  | _ => trivial

/-- No event is freed twice. While threads keep apart, an event is freed only when its region is
closed and no thread has its session open. -/
theorem print_frees_closed_events (threadNum : ℕ) (as : List Action) :
    (system threadNum).StatesMeet (fun s => s.released.Nodup) initial as ∧
      ((system threadNum).StepsMeet (KeepsApart threadNum) initial as →
        (system threadNum).StepsMeet (ReleasesClosed threadNum) initial as) := by
  constructor
  · have hkept : (system threadNum).StatesMeet Kept initial as :=
      TransitionSystem.statesMeet_of_invariant kept_initial (fun _ _ _ h hs => kept_next h hs) as
    exact hkept.mono fun s h => h.exclusive.nodup .released
  · intro hc
    exact hc.imp_of_kept (inv_initial threadNum) (fun _ _ _ h hc hs => inv_next h hc hs)
      fun _ a h _ => releasesClosed_of_inv h a

/-- Two threads open one session; the second closes it with a `LocalSession` after the first one. -/
def sharedRun : List Action :=
  [.construct 0 .session 7, .openRegion 0 10, .stamp 0 11, .construct 1 .localSession 7,
    .openRegion 1 12, .stamp 1 13, .destroy 1 0 14, .destroy 0 0 15, .destroy 0 0 0, .destroy 1 0 0,
    .takeSession 1, .sessionsTaken 1, .takeEvent 1, .takeEvent 1, .eventsTaken 1, .group 1, .group 1,
    .release 1 1, .release 1 0, .finish 1]

theorem print_frees_closed_events_sharedRun :
    (((system 2).exec initial sharedRun).map State.released = some [1, 0]) ∧
      (system 2).StepsMeet (ReleasesClosed 2) initial sharedRun :=
  ⟨by decide, (print_frees_closed_events 2 sharedRun).2 (by decide)⟩

/-- The second thread ends the session while the first one has a region open in it. -/
def earlyRun : List Action :=
  [.construct 0 .session 7, .openRegion 0 10, .stamp 0 11, .construct 1 .localSession 7,
    .destroy 1 0 0, .takeSession 1, .sessionsTaken 1, .takeEvent 1, .eventsTaken 1, .group 1,
    .release 1 0]

theorem print_frees_open_event :
    (((system 2).exec initial earlyRun).map fun s =>
      decide (s.released = [0] ∧ RegionOpen 2 s 0 ∧ SessionActive 2 s 7)) = some true ∧
      ¬ (system 2).StepsMeet (ReleasesClosed 2) initial earlyRun := by
  constructor <;> decide

end CrisCore.Timeline.State
