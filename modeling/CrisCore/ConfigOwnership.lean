import CrisCore.ConfigRegistry

/-! Which thread may write which config. Until a config is registered only the thread that made it has a
pointer to it; one that is not registered stays with the call that made it. -/
namespace CrisCore.ConfigRegistry
variable {ι J θ : Type} {V : ι → Type}

/-- `map_mutex_` is held. -/
def Stage.inside : Stage J → Bool
  | .find _ | .lookUp _ | .initValue .. | .store _ | .emplace _ | .unlock _ => true
  | .new | .lock _ | .cast _ | .loadInitialized _ | .assign _ | .ret _ => false

/-- The name has not been found in `config_map_`. -/
def Stage.searched : Stage J → Bool
  | .lookUp _ | .initValue .. | .store _ | .emplace _ => true
  | _ => false

/-- The pointer of the thread. -/
def Stage.pointer : Stage J → Option ℕ
  | .new => none
  | .lock config | .find config | .lookUp config | .initValue config _ | .store config
  | .emplace config => some config
  | .unlock result | .cast result | .loadInitialized result | .assign result | .ret result =>
    some result

/-- The config that the next step writes to, if any. -/
def Stage.writes : Stage J → Option ℕ
  | .initValue config _ | .store config => some config
  | .assign result => some result
  | _ => none

namespace Source
variable (F : Source V J)

/-- A config is its maker's until it is registered, and for good under a name that is not in the
document. -/
def owned (g : Get V) : Stage J → Option ℕ
  | .new => none
  | .lock config | .find config | .lookUp config | .initValue config _ | .store config
  | .emplace config => some config
  | .unlock result | .cast result | .loadInitialized result | .assign result | .ret result =>
    if (F.lookUp g.name).isNone then some result else none

/-- The config under the pointer has the value of the document, or the default value of the call if the
document has none for the name. -/
structure Gives (s : State θ V J) (g : Get V) (result : ℕ) : Prop where
  found : ∀ val, F.lookUp g.name = some val → s.configMap g.name = some result ∧
    ∃ data, F.parse g.type val = some data ∧
      s.configs[result]? = some ⟨g.name, g.type, true, data⟩
  missing : F.lookUp g.name = none →
    s.configs[result]? = some ⟨g.name, g.type, false, g.defaultValue⟩

/-- What `RegisterOrGet` returns. -/
structure Got (s : State θ V J) (g : Get V) (result : ℕ) : Prop where
  found : ∀ val, F.lookUp g.name = some val → s.configMap g.name = some result
  missing : F.lookUp g.name = none → s.configs[result]? = some (F.newConfig g)

/-- The value of the document has been stored in the config. -/
def HasRead (s : State θ V J) (name : String) (i : ι) (config : ℕ) (initialized : Bool) : Prop :=
  ∃ val data, F.lookUp name = some val ∧ F.parse i val = some data ∧
    s.configs[config]? = some ⟨name, i, initialized, data⟩

/-- What a thread knows about the config under its pointer. -/
def Points (s : State θ V J) (g : Get V) : Stage J → Prop
  | .new => True
  | .lock config | .find config | .lookUp config => s.configs[config]? = some (F.newConfig g)
  | .initValue config val =>
    s.configs[config]? = some (F.newConfig g) ∧ F.lookUp g.name = some val
  | .store config => F.HasRead s g.name g.type config false
  | .emplace config => F.HasRead s g.name g.type config true
  | .unlock result | .cast result => F.Got s g result
  | .loadInitialized result =>
    F.Got s g result ∧ ∃ c, s.configs[result]? = some c ∧ c.type = g.type
  | .assign result => F.lookUp g.name = none ∧ s.configs[result]? = some (F.newConfig g)
  | .ret result => F.Gives s g result

/-- What a thread inside `Get` may rely on before its next step. -/
structure Holds (s : State θ V J) (t : θ) (g : Get V) (stage : Stage J) : Prop where
  lock : stage.inside = true → s.holder = some t
  searched : stage.searched = true → s.configMap g.name = none
  points : F.Points s g stage

section Frames
variable {F} {s s' : State θ V J} {g : Get V} {stage : Stage J} {c r : ℕ}

theorem owned_of_missing (h : F.lookUp g.name = none) (hp : stage.pointer = some c) :
    F.owned g stage = some c := by
  have hnone : (F.lookUp g.name).isNone = true := by rw [h]; rfl
  cases stage <;> simp_all [Stage.pointer, owned]

theorem pointer_of_owned (h : F.owned g stage = some c) : stage.pointer = some c := by
  cases stage <;> simp_all [Stage.pointer, owned]

/-- What a thread knows stays true when its own config and the registered ones are left alone. -/
theorem Points.frame (h : F.Points s g stage)
    (hown : ∀ c o, F.owned g stage = some c → s.configs[c]? = some o → s'.configs[c]? = some o)
    (hreg : ∀ n c o, s.configMap n = some c → s.configs[c]? = some o → s'.configs[c]? = some o)
    (hmap : ∀ n c, s.configMap n = some c → s'.configMap n = some c) : F.Points s' g stage := by
  have hgot {r : ℕ} (hp : stage.pointer = some r) (h : F.Got s g r) : F.Got s' g r := by
    refine ⟨fun val hval => hmap _ _ (h.found val hval), fun hnone => ?_⟩
    exact hown _ _ (owned_of_missing hnone hp) (h.missing hnone)
  have hread {c : ℕ} {b : Bool} (hc : F.owned g stage = some c)
      (h : F.HasRead s g.name g.type c b) : F.HasRead s' g.name g.type c b := by
    obtain ⟨val, data, hval, hdata, hconfig⟩ := h
    exact ⟨val, data, hval, hdata, hown _ _ hc hconfig⟩
  cases stage with
  | new => trivial
  | lock | find | lookUp => exact hown _ _ rfl h
  | initValue => exact ⟨hown _ _ rfl h.1, h.2⟩
  | store | emplace => exact hread rfl h
  | unlock | cast => exact hgot rfl h
  | loadInitialized r =>
    obtain ⟨hr, o, ho, htype⟩ := h
    refine ⟨hgot rfl hr, o, ?_, htype⟩
    cases hl : F.lookUp g.name with
    | none => exact hown _ _ (owned_of_missing hl rfl) ho
    | some val => exact hreg _ _ _ (hr.found val hl) ho
  | assign => exact ⟨h.1, hown _ _ (owned_of_missing h.1 rfl) h.2⟩
  | ret r =>
    refine ⟨fun val hval => ?_, fun hnone => ?_⟩
    · obtain ⟨hr, data, hdata, hconfig⟩ := h.found val hval
      exact ⟨hmap _ _ hr, data, hdata, hreg _ _ _ hr hconfig⟩
    · exact hown _ _ (owned_of_missing hnone rfl) (h.missing hnone)

/-- The config that a thread owns was made. -/
theorem Points.exists_owned (h : F.Points s g stage) (hc : F.owned g stage = some c) :
    ∃ o, s.configs[c]? = some o := by
  have hmissing {r : ℕ} (hr : (if (F.lookUp g.name).isNone then some r else none) = some c) :
      F.lookUp g.name = none ∧ r = c := by
    split_ifs at hr with hnone
    exact ⟨Option.isNone_iff_eq_none.mp hnone, Option.some.inj hr⟩
  cases stage with
  | new => cases hc
  | lock | find | lookUp =>
    cases hc
    exact ⟨_, h⟩
  | initValue =>
    cases hc
    exact ⟨_, h.1⟩
  | store | emplace =>
    cases hc
    obtain ⟨val, data, -, -, hconfig⟩ := h
    exact ⟨_, hconfig⟩
  | unlock | cast =>
    obtain ⟨hnone, rfl⟩ := hmissing hc
    exact ⟨_, h.missing hnone⟩
  | loadInitialized =>
    obtain ⟨hnone, rfl⟩ := hmissing hc
    exact ⟨_, h.1.missing hnone⟩
  | assign =>
    obtain ⟨-, rfl⟩ := hmissing hc
    exact ⟨_, h.2⟩
  | ret =>
    obtain ⟨hnone, rfl⟩ := hmissing hc
    exact ⟨_, h.missing hnone⟩

theorem Points.of_eq (h : F.Points s g stage) (hconfigs : s'.configs = s.configs)
    (hmap : s'.configMap = s.configMap) : F.Points s' g stage := by
  apply h.frame
  · intro c o _ ho
    rw [hconfigs]
    exact ho
  · intro n c o _ ho
    rw [hconfigs]
    exact ho
  · intro n c hn
    rw [hmap]
    exact hn

theorem Holds.of_eq {t : θ} (h : F.Holds s t g stage) (hconfigs : s'.configs = s.configs)
    (hmap : s'.configMap = s.configMap) (hholder : s'.holder = s.holder) :
    F.Holds s' t g stage where
  lock hin := hholder.trans (h.lock hin)
  searched hin := by rw [hmap]; exact h.searched hin
  points := h.points.of_eq hconfigs hmap

theorem Points.pointer_cases (h : F.Points s g stage) (hc : stage.pointer = some c) :
    F.owned g stage = some c ∨ s.configMap g.name = some c := by
  cases hl : F.lookUp g.name with
  | none => exact .inl (owned_of_missing hl hc)
  | some val =>
    cases stage with
    | new => cases hc
    | lock | find | lookUp | initValue | store | emplace => exact .inl hc
    | unlock | cast =>
      cases hc
      exact .inr (h.found val hl)
    | loadInitialized =>
      cases hc
      exact .inr (h.1.found val hl)
    | assign => cases hl.symm.trans h.1
    | ret =>
      cases hc
      exact .inr (h.found val hl).1

/-- Only the thread itself has a pointer to the config that it writes to. -/
theorem Points.owned_of_writes (h : F.Points s g stage)
    (hc : stage.writes = some c) : F.owned g stage = some c := by
  cases stage with
  | initValue | store => exact hc
  | assign => exact owned_of_missing h.1 hc
  | _ => cases hc

end Frames

end Source

/-- A returned pointer to a config that is not registered belongs to its call. -/
def State.ownReturned (s : State θ V J) (F : Source V J) : List ℕ :=
  (s.returned.filter fun e => (F.lookUp e.1.name).isNone).map Prod.snd

structure Inv (F : Source V J) (s : State θ V J) : Prop where
  holds : ∀ t g stage, s.pc t = some (g, stage) → F.Holds s t g stage
  apart : ∀ t t' g g' stage stage' c, s.pc t = some (g, stage) → s.pc t' = some (g', stage') →
    F.owned g stage = some c → F.owned g' stage' = some c → t = t'
  unregistered : ∀ t g stage c, s.pc t = some (g, stage) → F.owned g stage = some c →
    ∀ n, s.configMap n ≠ some c
  unreturned : ∀ t g stage c, s.pc t = some (g, stage) → F.owned g stage = some c →
    ∀ e ∈ s.returned, e.2 ≠ c
  registered : ∀ n c, s.configMap n = some c → ∃ i, F.HasRead s n i c true
  returned : ∀ e ∈ s.returned, F.Gives s e.1 e.2
  distinct : (s.ownReturned F).Nodup

namespace Inv
variable {F : Source V J} {s : State θ V J}

theorem exists_registered (h : Inv F s) {n : String} {c : ℕ} (hc : s.configMap n = some c) :
    ∃ o, s.configs[c]? = some o := by
  obtain ⟨i, val, data, -, -, hconfig⟩ := h.registered n c hc
  exact ⟨_, hconfig⟩

theorem exists_returned (h : Inv F s) {e : Get V × ℕ} (he : e ∈ s.returned) :
    ∃ o, s.configs[e.2]? = some o := by
  have hg := h.returned e he
  cases hl : F.lookUp e.1.name with
  | none => exact ⟨_, hg.missing hl⟩
  | some val =>
    obtain ⟨-, data, -, hconfig⟩ := hg.found val hl
    exact ⟨_, hconfig⟩

/-- The last two fields are not looked at. -/
theorem of_fatal (h : Inv F s) (converted : List String) (fatal : Option (Fatal V)) :
    Inv F { s with converted := converted, fatal := fatal } where
  holds t g stage hp := (h.holds t g stage hp).of_eq rfl rfl rfl
  apart := h.apart
  unregistered := h.unregistered
  unreturned := h.unreturned
  registered := h.registered
  returned e he := ⟨(h.returned e he).found, (h.returned e he).missing⟩
  distinct := h.distinct

theorem init : Inv F (initial : State θ V J) where
  holds t g stage hp := by cases hp
  apart t t' g g' stage stage' c hp := by cases hp
  unregistered t g stage c hp := by cases hp
  unreturned t g stage c hp := by cases hp
  registered n c hn := by cases hn
  returned e he := absurd he List.not_mem_nil
  distinct := List.nodup_nil

/-- A config is initialized exactly if the document has a value for its name. -/
theorem initialized_iff {t : θ} {g : Get V} {result : ℕ} {c : Config V} (h : Inv F s)
    (hp : s.pc t = some (g, .loadInitialized result)) (hc : s.configs[result]? = some c) :
    (∀ val, F.lookUp g.name = some val →
        ∃ data, F.parse g.type val = some data ∧ c = ⟨g.name, g.type, true, data⟩) ∧
      (F.lookUp g.name = none → c = F.newConfig g) := by
  obtain ⟨hgot, c', hc', htype⟩ := (h.holds t g _ hp).points
  have hsame := Option.some.inj (hc.symm.trans hc')
  subst hsame
  constructor
  · intro val hval
    obtain ⟨i, val', data, hval', hdata, hreg⟩ := h.registered _ _ (hgot.found val hval)
    cases hval.symm.trans hval'
    cases hc.symm.trans hreg
    subst htype
    exact ⟨data, hdata, rfl⟩
  · intro hnone
    exact Option.some.inj (hc.symm.trans (hgot.missing hnone))

end Inv

section Kept
variable [DecidableEq θ] {F : Source V J} {s s' : State θ V J} {t : θ} {g : Get V}
  {stage stage' : Stage J}

/-- What a step inside `Get` may change: the config that the thread owns, the map at the name of such a
config, and the lock if no other thread holds it. -/
structure Change (F : Source V J) (s s' : State θ V J) (t : θ) (g : Get V)
    (stage stage' : Stage J) : Prop where
  pc : s'.pc = Function.update s.pc t (some (g, stage'))
  configs : ∀ c o, s.configs[c]? = some o → F.owned g stage ≠ some c → s'.configs[c]? = some o
  kept : ∀ n c, s.configMap n = some c → s'.configMap n = some c
  added : ∀ n c, s'.configMap n = some c → s.configMap n = some c ∨
    (F.owned g stage = some c ∧ F.owned g stage' = none)
  lock : ∀ t', t' ≠ t → s.holder = some t' → s'.holder = some t' ∧ s'.configMap = s.configMap
  owned : ∀ c, F.owned g stage' = some c → F.owned g stage = some c ∨ s.configs[c]? = none
  returned : s'.returned = s.returned

/-- Nothing is written that another thread could see. -/
theorem Change.of_eq (hpc : s'.pc = Function.update s.pc t (some (g, stage')))
    (hconfigs : s'.configs = s.configs) (hmap : s'.configMap = s.configMap)
    (hreturned : s'.returned = s.returned)
    (hlock : ∀ t', t' ≠ t → s.holder = some t' → s'.holder = some t')
    (hown : ∀ c, F.owned g stage' = some c → F.owned g stage = some c) :
    Change F s s' t g stage stage' where
  pc := hpc
  configs c o ho _ := by rw [hconfigs]; exact ho
  kept n c hn := by rw [hmap]; exact hn
  added n c hn := by rw [hmap] at hn; exact .inl hn
  lock t' ht hh := ⟨hlock t' ht hh, hmap⟩
  owned c hc := .inl (hown c hc)
  returned := hreturned

/-- The config that the thread owns is written. -/
theorem Change.of_set {config : ℕ} {o : Config V}
    (hpc : s'.pc = Function.update s.pc t (some (g, stage')))
    (hconfigs : s'.configs = s.configs.set config o) (hmine : F.owned g stage = some config)
    (hmap : s'.configMap = s.configMap) (hholder : s'.holder = s.holder)
    (hreturned : s'.returned = s.returned)
    (hown : ∀ c, F.owned g stage' = some c → F.owned g stage = some c) :
    Change F s s' t g stage stage' where
  pc := hpc
  configs c o ho hne := by
    have hc : config ≠ c := fun heq => hne (heq ▸ hmine)
    rw [hconfigs, List.getElem?_set_ne hc]
    exact ho
  kept n c hn := by rw [hmap]; exact hn
  added n c hn := by rw [hmap] at hn; exact .inl hn
  lock t' ht hh := ⟨hholder.trans hh, hmap⟩
  owned c hc := .inl (hown c hc)
  returned := hreturned

theorem getElem?_set_of_some {configs : List (Config V)} {config : ℕ} {c o : Config V}
    (hc : configs[config]? = some c) : (configs.set config o)[config]? = some o := by
  have hlt := (List.getElem?_eq_some_iff.mp hc).1
  rw [List.getElem?_set_self hlt]

theorem not_here {P : Prop} (h : false = true) : P :=
  absurd h Bool.false_ne_true

namespace Inv

/-- The thread steps on and the others do not see it. -/
theorem change (h : Inv F s) (hp : s.pc t = some (g, stage)) (stage' : Stage J)
    (hc : Change F s s' t g stage stage')
    (hnew : F.Holds s' t g stage')
    (hreg : ∀ n c, s'.configMap n = some c → s.configMap n = some c ∨ ∃ i, F.HasRead s' n i c true) :
    Inv F s' := by
  have hself : s'.pc t = some (g, stage') := by rw [hc.pc, Function.update_self]
  have hother {t' : θ} (ht : t' ≠ t) : s'.pc t' = s.pc t' := by
    rw [hc.pc, Function.update_of_ne ht]
  -- what is registered or returned is not what the thread writes to
  have hregistered (n : String) (c : ℕ) (o : Config V) (hn : s.configMap n = some c)
      (ho : s.configs[c]? = some o) : s'.configs[c]? = some o :=
    hc.configs c o ho fun hown => h.unregistered t g stage c hp hown n hn
  have hgives {e : Get V × ℕ} (he : e ∈ s.returned) : F.Gives s' e.1 e.2 := by
    have hpoints : F.Points s e.1 (.ret e.2) := h.returned e he
    refine hpoints.frame (fun c o hown ho => hc.configs c o ho fun hown' => ?_) hregistered hc.kept
    have hpc := Source.pointer_of_owned hown
    cases hpc
    exact h.unreturned t g stage _ hp hown' e he rfl
  -- a config that the thread comes to own was not there before
  have hfresh {c : ℕ} (hown : F.owned g stage' = some c) (hmade : ∃ o, s.configs[c]? = some o) :
      F.owned g stage = some c := by
    obtain ⟨o, ho⟩ := hmade
    exact (hc.owned c hown).resolve_right (by simp [ho])
  constructor
  · intro t' g' st hp'
    by_cases ht : t' = t
    · subst ht
      cases hself.symm.trans hp'
      exact hnew
    · have hp' := (hother ht).symm.trans hp'
      have hold := h.holds t' g' st hp'
      refine ⟨fun hin => (hc.lock t' ht (hold.lock hin)).1, fun hin => ?_, ?_⟩
      · have hinside : st.inside = true := by cases st <;> first | rfl | cases hin
        rw [(hc.lock t' ht (hold.lock hinside)).2]
        exact hold.searched hin
      · refine hold.points.frame (fun c o hown ho => hc.configs c o ho fun hown' => ?_)
          hregistered hc.kept
        exact ht (h.apart t' t g' g st stage c hp' hp hown hown')
  · intro t₁ t₂ g₁ g₂ st₁ st₂ c h₁ h₂ hown₁ hown₂
    have hmine {t' : θ} {g' : Get V} {st : Stage J} (ht : t' ≠ t) (hp' : s'.pc t' = some (g', st))
        (hown' : F.owned g' st = some c) (hown : F.owned g stage' = some c) : False := by
      have hp' := (hother ht).symm.trans hp'
      have hmade := (h.holds t' g' st hp').points.exists_owned hown'
      exact ht (h.apart t' t g' g st stage c hp' hp hown' (hfresh hown hmade))
    by_cases ht₁ : t₁ = t <;> by_cases ht₂ : t₂ = t
    · rw [ht₁, ht₂]
    · subst ht₁
      cases hself.symm.trans h₁
      exact (hmine ht₂ h₂ hown₂ hown₁).elim
    · subst ht₂
      cases hself.symm.trans h₂
      exact (hmine ht₁ h₁ hown₁ hown₂).elim
    · exact h.apart t₁ t₂ g₁ g₂ st₁ st₂ c ((hother ht₁).symm.trans h₁)
        ((hother ht₂).symm.trans h₂) hown₁ hown₂
  · intro t' g' st c hp' hown n hn
    by_cases ht : t' = t
    · subst ht
      cases hself.symm.trans hp'
      rcases hc.added n c hn with hold | ⟨-, hnone⟩
      · exact h.unregistered t' g stage c hp (hfresh hown (h.exists_registered hold)) n hold
      · cases hnone.symm.trans hown
    · have hp' := (hother ht).symm.trans hp'
      rcases hc.added n c hn with hold | ⟨hmine, -⟩
      · exact h.unregistered t' g' st c hp' hown n hold
      · exact ht (h.apart t' t g' g st stage c hp' hp hown hmine)
  · intro t' g' st c hp' hown e he
    rw [hc.returned] at he
    by_cases ht : t' = t
    · subst ht
      cases hself.symm.trans hp'
      rintro rfl
      exact h.unreturned t' g stage _ hp (hfresh hown (h.exists_returned he)) e he rfl
    · exact h.unreturned t' g' st c ((hother ht).symm.trans hp') hown e he
  · intro n c hn
    rcases hreg n c hn with hold | hnew
    · obtain ⟨i, val, data, hval, hdata, hconfig⟩ := h.registered n c hold
      exact ⟨i, val, data, hval, hdata, hregistered n c _ hold hconfig⟩
    · exact hnew
  · intro e he
    rw [hc.returned] at he
    exact hgives he
  · rw [State.ownReturned, hc.returned]
    exact h.distinct

theorem call_step (h : Inv F s) (hp : s.pc t = none) :
    Inv F { s.setPc t (some (g, .new)) with calls := s.calls ++ [g] } := by
  have hself : (s.setPc t (some (g, .new))).pc t = some (g, .new) := setPc_self ..
  have hold {t' : θ} {g' : Get V} {st : Stage J} {c : ℕ}
      (hp' : (s.setPc t (some (g, .new))).pc t' = some (g', st)) (hown : F.owned g' st = some c) :
      s.pc t' = some (g', st) := by
    by_cases ht : t' = t
    · subst ht
      cases hself.symm.trans hp'
      cases hown
    · exact (setPc_of_ne s _ ht).symm.trans hp'
  constructor
  · intro t' g' st hp'
    by_cases ht : t' = t
    · subst ht
      cases hself.symm.trans hp'
      exact ⟨fun hin => absurd hin Bool.false_ne_true, fun hin => absurd hin Bool.false_ne_true,
        trivial⟩
    · exact (h.holds t' g' st ((setPc_of_ne s _ ht).symm.trans hp')).of_eq rfl rfl rfl
  · intro t₁ t₂ g₁ g₂ st₁ st₂ c h₁ h₂ hown₁ hown₂
    exact h.apart t₁ t₂ g₁ g₂ st₁ st₂ c (hold h₁ hown₁) (hold h₂ hown₂) hown₁ hown₂
  · intro t' g' st c hp' hown
    exact h.unregistered t' g' st c (hold hp' hown) hown
  · intro t' g' st c hp' hown
    exact h.unreturned t' g' st c (hold hp' hown) hown
  · exact h.registered
  · intro e he
    exact ⟨(h.returned e he).found, (h.returned e he).missing⟩
  · exact h.distinct

theorem ret_step (h : Inv F s) {result : ℕ} (hp : s.pc t = some (g, .ret result)) :
    Inv F { s.setPc t none with returned := s.returned ++ [(g, result)] } := by
  have hgives : F.Gives s g result := (h.holds t g _ hp).points
  have hold {t' : θ} {g' : Get V} {st : Stage J}
      (hp' : (s.setPc t none).pc t' = some (g', st)) : t' ≠ t ∧ s.pc t' = some (g', st) := by
    have ht : t' ≠ t := by
      rintro rfl
      cases (setPc_self s t' none).symm.trans hp'
    exact ⟨ht, (setPc_of_ne s none ht).symm.trans hp'⟩
  constructor
  · intro t' g' st hp'
    exact (h.holds t' g' st (hold hp').2).of_eq rfl rfl rfl
  · intro t₁ t₂ g₁ g₂ st₁ st₂ c h₁ h₂
    exact h.apart t₁ t₂ g₁ g₂ st₁ st₂ c (hold h₁).2 (hold h₂).2
  · intro t' g' st c hp'
    exact h.unregistered t' g' st c (hold hp').2
  · intro t' g' st c hp' hown e he
    obtain ⟨ht, hp'⟩ := hold hp'
    rcases List.mem_append.mp he with he | he
    · exact h.unreturned t' g' st c hp' hown e he
    · cases List.mem_singleton.mp he
      rintro rfl
      cases hl : F.lookUp g.name with
      | none =>
        exact ht (h.apart t' t g' g st _ _ hp' hp hown (Source.owned_of_missing hl rfl))
      | some val => exact h.unregistered t' g' st _ hp' hown _ (hgives.found val hl).1
  · exact h.registered
  · intro e he
    rcases List.mem_append.mp he with he | he
    · exact ⟨(h.returned e he).found, (h.returned e he).missing⟩
    · cases List.mem_singleton.mp he
      exact ⟨hgives.found, hgives.missing⟩
  · show (((s.returned ++ [(g, result)]).filter fun e => (F.lookUp e.1.name).isNone).map
      Prod.snd).Nodup
    rw [List.filter_append, List.map_append]
    refine List.nodup_append.mpr ⟨h.distinct, ?_, ?_⟩
    · rw [List.filter_singleton]
      cases (F.lookUp (g, result).1.name).isNone <;> simp
    · intro c hc c' hc' heq
      obtain ⟨e, he, rfl⟩ := List.mem_map.mp hc
      obtain ⟨e', he', rfl⟩ := List.mem_map.mp hc'
      obtain ⟨he', hnone⟩ := List.mem_filter.mp he'
      cases List.mem_singleton.mp he'
      have hown : F.owned g (.ret result : Stage J) = some result :=
        Source.owned_of_missing (Option.isNone_iff_eq_none.mp hnone) rfl
      exact h.unreturned t g _ _ hp hown e (List.mem_filter.mp he).1 heq

section Steps
variable {config result : ℕ} {c c' : Config V} {val : J}

theorem new_step (h : Inv F s) (hp : s.pc t = some (g, .new)) :
    Inv F { s.setPc t (some (g, .lock s.configs.length)) with
      configs := s.configs ++ [F.newConfig g] } := by
  refine h.change hp (.lock s.configs.length) ?_ ?_ fun n c hn => .inl hn
  · refine ⟨rfl, fun c o ho _ => ?_, fun _ _ hn => hn, fun _ _ hn => .inl hn,
      fun t' _ hh => ⟨hh, rfl⟩, fun c hc => .inr ?_, rfl⟩
    · show (s.configs ++ [F.newConfig g])[c]? = some o
      rw [List.getElem?_append_left (List.getElem?_eq_some_iff.mp ho).1]
      exact ho
    · cases hc
      exact List.getElem?_eq_none (Nat.le_refl _)
  · refine ⟨not_here, not_here, ?_⟩
    show (s.configs ++ [F.newConfig g])[s.configs.length]? = some (F.newConfig g)
    simp

theorem lock_step (h : Inv F s) (hp : s.pc t = some (g, .lock config)) (hfree : s.holder = none) :
    Inv F { s.setPc t (some (g, .find config)) with holder := some t } := by
  refine h.change hp (.find config) ?_ ?_ fun n c hn => .inl hn
  · refine .of_eq rfl rfl rfl rfl (fun t' _ hh => ?_) fun c hc => hc
    cases hfree.symm.trans hh
  · exact ⟨fun _ => rfl, not_here, (h.holds t g _ hp).points⟩

theorem found_step (h : Inv F s) (hp : s.pc t = some (g, .find config))
    (hfound : s.configMap g.name = some result) :
    Inv F (s.setPc t (some (g, .unlock result))) := by
  obtain ⟨i, val, data, hval, -⟩ := h.registered _ _ hfound
  refine h.change hp (.unlock result) ?_ ?_ fun n c hn => .inl hn
  · refine .of_eq rfl rfl rfl rfl (fun t' _ hh => hh) fun c hc => ?_
    simp [Source.owned, hval] at hc
  · refine ⟨fun _ => (h.holds t g _ hp).lock rfl, not_here, fun _ _ => hfound, fun hnone => ?_⟩
    cases hnone.symm.trans hval

theorem notFound_step (h : Inv F s) (hp : s.pc t = some (g, .find config))
    (hmissed : s.configMap g.name = none) : Inv F (s.setPc t (some (g, .lookUp config))) := by
  have hold := h.holds t g _ hp
  refine h.change hp (.lookUp config) ?_ ?_ fun n c hn => .inl hn
  · exact .of_eq rfl rfl rfl rfl (fun t' _ hh => hh) fun c hc => hc
  · exact ⟨fun _ => hold.lock rfl, fun _ => hmissed, hold.points⟩

theorem lookUp_step (h : Inv F s) (hp : s.pc t = some (g, .lookUp config)) :
    (∀ val, F.lookUp g.name = some val → Inv F (s.setPc t (some (g, .initValue config val)))) ∧
      (F.lookUp g.name = none → Inv F (s.setPc t (some (g, .unlock config)))) := by
  have hold := h.holds t g _ hp
  constructor
  · intro val hval
    refine h.change hp (.initValue config val) ?_ ?_ fun n c hn => .inl hn
    · exact .of_eq rfl rfl rfl rfl (fun t' _ hh => hh) fun c hc => hc
    · exact ⟨fun _ => hold.lock rfl, fun _ => hold.searched rfl, hold.points, hval⟩
  · intro hnone
    refine h.change hp (.unlock config) ?_ ?_ fun n c hn => .inl hn
    · refine .of_eq rfl rfl rfl rfl (fun t' _ hh => hh) fun c hc => ?_
      simpa [Source.owned, hnone] using hc
    · refine ⟨fun _ => hold.lock rfl, not_here, fun val hval => ?_, fun _ => hold.points⟩
      cases hnone.symm.trans hval

theorem converted_step (h : Inv F s) (hp : s.pc t = some (g, .initValue config val))
    (hc : s.configs[config]? = some c) (hinit : F.initValue c val = some c')
    (converted : List String) :
    Inv F { s.setPc t (some (g, .store config)) with
      configs := s.configs.set config c'
      converted := converted } := by
  have hold := h.holds t g _ hp
  obtain ⟨hconfig, hval⟩ := hold.points
  cases hc.symm.trans hconfig
  obtain ⟨data, hdata, rfl⟩ := Option.map_eq_some_iff.mp hinit
  refine h.change hp (.store config) ?_ ?_ fun n c hn => .inl hn
  · exact .of_set rfl rfl rfl rfl rfl rfl fun c hc => hc
  · refine ⟨fun _ => hold.lock rfl, fun _ => hold.searched rfl, val, data, hval, hdata, ?_⟩
    exact getElem?_set_of_some hconfig

theorem store_step (h : Inv F s) (hp : s.pc t = some (g, .store config))
    (hc : s.configs[config]? = some c) :
    Inv F { s.setPc t (some (g, .emplace config)) with configs := s.configs.set config c.store } := by
  have hold := h.holds t g _ hp
  obtain ⟨val, data, hval, hdata, hconfig⟩ := hold.points
  cases hc.symm.trans hconfig
  refine h.change hp (.emplace config) ?_ ?_ fun n c hn => .inl hn
  · exact .of_set rfl rfl rfl rfl rfl rfl fun c hc => hc
  · refine ⟨fun _ => hold.lock rfl, fun _ => hold.searched rfl, val, data, hval, hdata, ?_⟩
    exact getElem?_set_of_some hconfig

/-- The config is its thread's no more: under its name the map has it for all. -/
theorem emplace_step (h : Inv F s) (hp : s.pc t = some (g, .emplace config)) :
    Inv F { s.setPc t (some (g, .unlock config)) with
      configMap := Function.update s.configMap g.name (some config) } := by
  have hold := h.holds t g _ hp
  obtain ⟨val, data, hval, hdata, hconfig⟩ := hold.points
  have hmissed := hold.searched rfl
  have hmap (n : String) (c : ℕ)
      (hn : Function.update s.configMap g.name (some config) n = some c) :
      s.configMap n = some c ∨ (n = g.name ∧ config = c) := by
    by_cases hname : n = g.name
    · subst hname
      rw [Function.update_self] at hn
      exact .inr ⟨rfl, Option.some.inj hn⟩
    · rw [Function.update_of_ne hname] at hn
      exact .inl hn
  refine h.change hp (.unlock config) ?_ ?_ fun n c hn => ?_
  · refine ⟨rfl, fun c o ho _ => ho, fun n c hn => ?_, fun n c hn => ?_, fun t' ht hh => ?_,
      fun c hc => ?_, rfl⟩
    · have hname : n ≠ g.name := by
        rintro rfl
        cases hmissed.symm.trans hn
      show Function.update s.configMap g.name (some config) n = some c
      rw [Function.update_of_ne hname]
      exact hn
    · rcases hmap n c hn with hn | ⟨-, rfl⟩
      · exact .inl hn
      · exact .inr ⟨rfl, by simp [Source.owned, hval]⟩
    · cases (hold.lock rfl).symm.trans hh
      exact absurd rfl ht
    · simp [Source.owned, hval] at hc
  · refine ⟨fun _ => hold.lock rfl, not_here, fun _ _ => ?_, fun hnone => ?_⟩
    · exact Function.update_self ..
    · cases hnone.symm.trans hval
  · rcases hmap n c hn with hn | ⟨rfl, rfl⟩
    · exact .inl hn
    · exact .inr ⟨g.type, val, data, hval, hdata, hconfig⟩

theorem unlock_step (h : Inv F s) (hp : s.pc t = some (g, .unlock result)) :
    Inv F { s.setPc t (some (g, .cast result)) with holder := none } := by
  have hold := h.holds t g _ hp
  refine h.change hp (.cast result) ?_ ?_ fun n c hn => .inl hn
  · refine .of_eq rfl rfl rfl rfl (fun t' ht hh => ?_) fun c hc => hc
    cases (hold.lock rfl).symm.trans hh
    exact absurd rfl ht
  · exact ⟨not_here, not_here, hold.points.found, hold.points.missing⟩

theorem cast_step (h : Inv F s) (hp : s.pc t = some (g, .cast result))
    (hc : s.configs[result]? = some c) (htype : c.type = g.type) :
    Inv F (s.setPc t (some (g, .loadInitialized result))) := by
  have hpoints := (h.holds t g _ hp).points
  refine h.change hp (.loadInitialized result) ?_ ?_ fun n c hn => .inl hn
  · exact .of_eq rfl rfl rfl rfl (fun t' _ hh => hh) fun c hc => hc
  · exact ⟨not_here, not_here, ⟨hpoints.found, hpoints.missing⟩, c, hc, htype⟩

theorem loadInitialized_step (h : Inv F s) (hp : s.pc t = some (g, .loadInitialized result))
    (hc : s.configs[result]? = some c) :
    (c.initialized = true → Inv F (s.setPc t (some (g, .ret result)))) ∧
      (c.initialized = false → Inv F (s.setPc t (some (g, .assign result)))) := by
  obtain ⟨hinit, hnew⟩ := h.initialized_iff hp hc
  have hgot := (h.holds t g _ hp).points.1
  constructor
  · intro htrue
    refine h.change hp (.ret result) ?_ ?_ fun n c hn => .inl hn
    · exact .of_eq rfl rfl rfl rfl (fun t' _ hh => hh) fun c hc => hc
    · refine ⟨not_here, not_here, fun val hval => ?_, fun hnone => ?_⟩
      · obtain ⟨data, hdata, heq⟩ := hinit val hval
        exact ⟨hgot.found val hval, data, hdata, heq ▸ hc⟩
      · rw [hnew hnone] at htrue
        cases htrue
  · intro hfalse
    have hnone : F.lookUp g.name = none := by
      cases hl : F.lookUp g.name with
      | none => rfl
      | some val =>
        obtain ⟨data, -, heq⟩ := hinit val hl
        rw [heq] at hfalse
        cases hfalse
    refine h.change hp (.assign result) ?_ ?_ fun n c hn => .inl hn
    · exact .of_eq rfl rfl rfl rfl (fun t' _ hh => hh) fun c hc => hc
    · exact ⟨not_here, not_here, hnone, hgot.missing hnone⟩

theorem assign_step (h : Inv F s) (hp : s.pc t = some (g, .assign result))
    (hc : s.configs[result]? = some c) :
    Inv F { s.setPc t (some (g, .ret result)) with configs := s.configs.set result (c.assign g) } := by
  obtain ⟨hnone, hconfig⟩ := (h.holds t g _ hp).points
  cases hc.symm.trans hconfig
  refine h.change hp (.ret result) ?_ ?_ fun n c hn => .inl hn
  · exact .of_set rfl rfl (Source.owned_of_missing hnone rfl) rfl rfl rfl fun c hc => hc
  · refine ⟨not_here, not_here, fun val hval => ?_, fun _ => getElem?_set_of_some hconfig⟩
    cases hnone.symm.trans hval

theorem went (h : Inv F s) (hp : s.pc t = some (g, stage)) (hs : Went F s t g stage s') :
    Inv F s' := by
  cases hs with
  | new => exact h.new_step hp
  | lock hfree => exact h.lock_step hp hfree
  | found hfound => exact h.found_step hp hfound
  | notFound hmissed => exact h.notFound_step hp hmissed
  | inDocument hval => exact (h.lookUp_step hp).1 _ hval
  | notInDocument hnone => exact (h.lookUp_step hp).2 hnone
  | converted hc hinit => exact h.converted_step hp hc hinit _
  | failedToParse | typeMismatched => exact h.of_fatal _ _
  | store hc => exact h.store_step hp hc
  | emplace => exact h.emplace_step hp
  | unlock => exact h.unlock_step hp
  | cast hc htype => exact h.cast_step hp hc htype
  | initialized hc htrue => exact (h.loadInitialized_step hp hc).1 htrue
  | notInitialized hc hfalse => exact (h.loadInitialized_step hp hc).2 hfalse
  | assign hc => exact h.assign_step hp hc
  | ret => exact h.ret_step hp

end Steps

end Inv

end Kept

end CrisCore.ConfigRegistry
