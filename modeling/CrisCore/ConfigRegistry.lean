import CrisCore.ConfigIntegers
import CrisCore.TransitionSystem
import Mathlib.Logic.Function.Basic

/-! `ConfigFile::Get` from many threads: `RegisterOrGet` under `map_mutex_`, the rest of `Get` without
a lock. Every config that was made has a place in a list, and a pointer is such a place. -/
namespace CrisCore.ConfigRegistry
variable {ι J θ : Type} {V : ι → Type}

/-- The configs differ in `data_t`, of which `ι` has the names. -/
structure Config (V : ι → Type) where
  name : String
  type : ι
  initialized : Bool
  data : V type

/-- A call of `Get` with its default value. -/
structure Get (V : ι → Type) where
  name : String
  type : ι
  defaultValue : V type

/-- The document that the file was read into, and the types that `Get` is called with. -/
structure Source (V : ι → Type) (J : Type) where
  /-- `json_context_.doc_[config_name].get(val)`; `none` is an error code. -/
  lookUp : String → Option J
  /-- What `InitValue` stores; `none` ends the process. -/
  parse : (i : ι) → J → Option (V i)
  /-- `data_t{}` -/
  zero : (i : ι) → V i

namespace Source
variable (F : Source V J)

/-- `Get` without a default value. -/
def get (configName : String) (i : ι) : Get V :=
  ⟨configName, i, F.zero i⟩

/-- `new Config<data_t>(config_name)` -/
def newConfig (g : Get V) : Config V :=
  ⟨g.name, g.type, false, F.zero g.type⟩

/-- `InitValue` but for `initialized_`. -/
def initValue (c : Config V) (val : J) : Option (Config V) :=
  (F.parse c.type val).map fun data => { c with data := data }

end Source

/-- `initialized_.store(true)` -/
def Config.store (c : Config V) : Config V :=
  { c with initialized := true }

/-- `config_ptr->data_ = std::forward<arg_t>(default_value)`, behind the cast to the type of the value. -/
def Config.assign (c : Config V) (g : Get V) : Config V :=
  { c with type := g.type, data := g.defaultValue }

/-- The next step of a `Get`: what it does, with the pointer it does it to. -/
inductive Stage (J : Type)
  | new
  | lock (config : ℕ)
  | find (config : ℕ)
  | lookUp (config : ℕ)
  | initValue (config : ℕ) (val : J)
  | store (config : ℕ)
  | emplace (config : ℕ)
  | unlock (result : ℕ)
  | cast (result : ℕ)
  | loadInitialized (result : ℕ)
  | assign (result : ℕ)
  | ret (result : ℕ)

/-- `LOG(FATAL)` -/
inductive Fatal (V : ι → Type)
  | failedToParse (g : Get V)
  | typeMismatched (g : Get V) (registered : ι)

structure State (θ : Type) (V : ι → Type) (J : Type) where
  configs : List (Config V)
  configMap : String → Option ℕ
  /-- The thread that holds `map_mutex_`. -/
  holder : Option θ
  pc : θ → Option (Get V × Stage J)
  calls : List (Get V)
  /-- The calls that returned, with the pointers they returned. -/
  returned : List (Get V × ℕ)
  /-- The names under which a value was converted. -/
  converted : List String
  fatal : Option (Fatal V)

def initial : State θ V J where
  configs := []
  configMap _ := none
  holder := none
  pc _ := none
  calls := []
  returned := []
  converted := []
  fatal := none

inductive Action (θ : Type) (V : ι → Type)
  | call (t : θ) (g : Get V)
  | go (t : θ)

section Steps
variable [DecidableEq θ]

def State.setPc (s : State θ V J) (t : θ) (p : Option (Get V × Stage J)) : State θ V J :=
  { s with pc := Function.update s.pc t p }

@[simp] theorem setPc_self (s : State θ V J) (t : θ) (p : Option (Get V × Stage J)) :
    (s.setPc t p).pc t = p := by
  simp [State.setPc]

theorem setPc_of_ne (s : State θ V J) {t t' : θ} (p : Option (Get V × Stage J)) (h : t' ≠ t) :
    (s.setPc t p).pc t' = s.pc t' := by
  simp [State.setPc, h]

variable [DecidableEq ι] (F : Source V J)

/-- The step of a thread inside `Get`. -/
def go (s : State θ V J) (t : θ) (g : Get V) : Stage J → Option (State θ V J)
  | .new =>
    some { s.setPc t (some (g, .lock s.configs.length)) with
      configs := s.configs ++ [F.newConfig g] }
  | .lock config =>
    if s.holder.isNone then
      some { s.setPc t (some (g, .find config)) with holder := some t }
    else none
  | .find config =>
    match s.configMap g.name with
    | some second => some (s.setPc t (some (g, .unlock second)))
    | none => some (s.setPc t (some (g, .lookUp config)))
  | .lookUp config =>
    match F.lookUp g.name with
    | some val => some (s.setPc t (some (g, .initValue config val)))
    | none => some (s.setPc t (some (g, .unlock config)))
  | .initValue config val =>
    s.configs[config]?.bind fun c =>
      match F.initValue c val with
      | some c' =>
        some { s.setPc t (some (g, .store config)) with
          configs := s.configs.set config c'
          converted := s.converted ++ [g.name] }
      | none => some { s with
          converted := s.converted ++ [g.name]
          fatal := some (.failedToParse g) }
  | .store config =>
    s.configs[config]?.map fun c =>
      { s.setPc t (some (g, .emplace config)) with configs := s.configs.set config c.store }
  | .emplace config =>
    some { s.setPc t (some (g, .unlock config)) with
      configMap := Function.update s.configMap g.name (some config) }
  | .unlock result => some { s.setPc t (some (g, .cast result)) with holder := none }
  | .cast result =>
    s.configs[result]?.map fun c =>
      if c.type = g.type then s.setPc t (some (g, .loadInitialized result))
      else { s with fatal := some (.typeMismatched g c.type) }
  | .loadInitialized result =>
    s.configs[result]?.map fun c =>
      s.setPc t (some (g, if c.initialized then .ret result else .assign result))
  | .assign result =>
    s.configs[result]?.map fun c =>
      { s.setPc t (some (g, .ret result)) with configs := s.configs.set result (c.assign g) }
  | .ret result => some { s.setPc t none with returned := s.returned ++ [(g, result)] }

/-- No thread steps after a fatal message. -/
def step (s : State θ V J) : Action θ V → Option (State θ V J)
  | .call t g =>
    if s.fatal.isNone ∧ (s.pc t).isNone then
      some { s.setPc t (some (g, .new)) with calls := s.calls ++ [g] }
    else none
  | .go t => if s.fatal.isNone then (s.pc t).bind fun p => go F s t p.1 p.2 else none

def system (θ : Type) [DecidableEq θ] : TransitionSystem (State θ V J) (Action θ V) where
  init s := s = initial
  step := step F

/-- All that a step inside `Get` can do. -/
inductive Went (s : State θ V J) (t : θ) (g : Get V) : Stage J → State θ V J → Prop
  | new :
      Went s t g .new
        { s.setPc t (some (g, .lock s.configs.length)) with
          configs := s.configs ++ [F.newConfig g] }
  | lock {config : ℕ} (h : s.holder = none) :
      Went s t g (.lock config) { s.setPc t (some (g, .find config)) with holder := some t }
  | found {config second : ℕ} (h : s.configMap g.name = some second) :
      Went s t g (.find config) (s.setPc t (some (g, .unlock second)))
  | notFound {config : ℕ} (h : s.configMap g.name = none) :
      Went s t g (.find config) (s.setPc t (some (g, .lookUp config)))
  | inDocument {config : ℕ} {val : J} (h : F.lookUp g.name = some val) :
      Went s t g (.lookUp config) (s.setPc t (some (g, .initValue config val)))
  | notInDocument {config : ℕ} (h : F.lookUp g.name = none) :
      Went s t g (.lookUp config) (s.setPc t (some (g, .unlock config)))
  | converted {config : ℕ} {val : J} {c c' : Config V} (hc : s.configs[config]? = some c)
      (h : F.initValue c val = some c') :
      Went s t g (.initValue config val)
        { s.setPc t (some (g, .store config)) with
          configs := s.configs.set config c'
          converted := s.converted ++ [g.name] }
  | failedToParse {config : ℕ} {val : J} {c : Config V} (hc : s.configs[config]? = some c)
      (h : F.initValue c val = none) :
      Went s t g (.initValue config val)
        { s with converted := s.converted ++ [g.name], fatal := some (.failedToParse g) }
  | store {config : ℕ} {c : Config V} (hc : s.configs[config]? = some c) :
      Went s t g (.store config)
        { s.setPc t (some (g, .emplace config)) with configs := s.configs.set config c.store }
  | emplace {config : ℕ} :
      Went s t g (.emplace config)
        { s.setPc t (some (g, .unlock config)) with
          configMap := Function.update s.configMap g.name (some config) }
  | unlock {result : ℕ} :
      Went s t g (.unlock result) { s.setPc t (some (g, .cast result)) with holder := none }
  | cast {result : ℕ} {c : Config V} (hc : s.configs[result]? = some c) (h : c.type = g.type) :
      Went s t g (.cast result) (s.setPc t (some (g, .loadInitialized result)))
  | typeMismatched {result : ℕ} {c : Config V} (hc : s.configs[result]? = some c)
      (h : c.type ≠ g.type) :
      Went s t g (.cast result) { s with fatal := some (.typeMismatched g c.type) }
  | initialized {result : ℕ} {c : Config V} (hc : s.configs[result]? = some c)
      (h : c.initialized = true) :
      Went s t g (.loadInitialized result) (s.setPc t (some (g, .ret result)))
  | notInitialized {result : ℕ} {c : Config V} (hc : s.configs[result]? = some c)
      (h : c.initialized = false) :
      Went s t g (.loadInitialized result) (s.setPc t (some (g, .assign result)))
  | assign {result : ℕ} {c : Config V} (hc : s.configs[result]? = some c) :
      Went s t g (.assign result)
        { s.setPc t (some (g, .ret result)) with configs := s.configs.set result (c.assign g) }
  | ret {result : ℕ} :
      Went s t g (.ret result)
        { s.setPc t none with returned := s.returned ++ [(g, result)] }

variable {F} {s s' : State θ V J} {t : θ} {g : Get V} {stage : Stage J}

theorem went_of_go (hs : go F s t g stage = some s') : Went F s t g stage s' := by
  cases stage with
  | new =>
    cases hs
    exact .new
  | lock config =>
    simp only [go] at hs
    split_ifs at hs with hfree
    cases hs
    exact .lock (Option.isNone_iff_eq_none.mp hfree)
  | find config =>
    simp only [go] at hs
    split at hs <;> cases hs
    · exact .found ‹_›
    · exact .notFound ‹_›
  | lookUp config =>
    simp only [go] at hs
    split at hs <;> cases hs
    · exact .inDocument ‹_›
    · exact .notInDocument ‹_›
  | initValue config val =>
    obtain ⟨c, hc, hs⟩ := Option.bind_eq_some_iff.mp hs
    split at hs <;> cases hs
    · exact .converted hc ‹_›
    · exact .failedToParse hc ‹_›
  | store config =>
    obtain ⟨c, hc, rfl⟩ := Option.map_eq_some_iff.mp hs
    exact .store hc
  | emplace config =>
    cases hs
    exact .emplace
  | unlock result =>
    cases hs
    exact .unlock
  | cast result =>
    obtain ⟨c, hc, rfl⟩ := Option.map_eq_some_iff.mp hs
    split_ifs with htype
    · exact .cast hc htype
    · exact .typeMismatched hc htype
  | loadInitialized result =>
    obtain ⟨c, hc, rfl⟩ := Option.map_eq_some_iff.mp hs
    split_ifs with hinit
    · exact .initialized hc hinit
    · exact .notInitialized hc (Bool.eq_false_of_not_eq_true hinit)
  | assign result =>
    obtain ⟨c, hc, rfl⟩ := Option.map_eq_some_iff.mp hs
    exact .assign hc
  | ret result =>
    cases hs
    exact .ret

/-- A thread calls `Get` or goes on in it; none does after a fatal message. -/
theorem step_cases {a : Action θ V} (hs : step F s a = some s') : s.fatal = none ∧
    ((∃ t g, a = .call t g ∧ s.pc t = none ∧
        s' = { s.setPc t (some (g, .new)) with calls := s.calls ++ [g] }) ∨
      ∃ t g stage, a = .go t ∧ s.pc t = some (g, stage) ∧ Went F s t g stage s') := by
  cases a with
  | call t g =>
    simp only [step] at hs
    split_ifs at hs with hfree
    cases hs
    exact ⟨Option.isNone_iff_eq_none.mp hfree.1,
      .inl ⟨t, g, rfl, Option.isNone_iff_eq_none.mp hfree.2, rfl⟩⟩
  | go t =>
    simp only [step] at hs
    split_ifs at hs with hfatal
    obtain ⟨⟨g, stage⟩, hp, hgo⟩ := Option.bind_eq_some_iff.mp hs
    exact ⟨Option.isNone_iff_eq_none.mp hfatal, .inr ⟨t, g, stage, rfl, hp, went_of_go hgo⟩⟩

end Steps

end CrisCore.ConfigRegistry
