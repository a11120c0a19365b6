import CrisCore.ConfigOwnership

/-! What the calls of `ConfigFile::Get` return, whatever the order of the steps of their threads. -/
namespace CrisCore.ConfigRegistry
variable {ι J θ : Type} {V : ι → Type} {F : Source V J} {s s' : State θ V J} {t : θ}
  {g : Get V} {stage : Stage J}

/-- Every config was made for a call that was made. -/
structure Called (s : State θ V J) : Prop where
  inside : ∀ t g stage, s.pc t = some (g, stage) → g ∈ s.calls
  configs : ∀ c ∈ s.configs, ∃ g ∈ s.calls, c.name = g.name ∧ c.type = g.type

/-- Why the process ended. -/
def Fatal.Explained (F : Source V J) (calls : List (Get V)) : Fatal V → Prop
  | .failedToParse g =>
    g ∈ calls ∧ ∃ val, F.lookUp g.name = some val ∧ F.parse g.type val = none
  | .typeMismatched g registered =>
    g ∈ calls ∧ registered ≠ g.type ∧
      ∃ g' ∈ calls, g'.name = g.name ∧ g'.type = registered ∧ (F.lookUp g.name).isSome = true

/-- Behind the conversion, in front of `emplace`. -/
def Stage.hasConverted : Stage J → Bool
  | .store _ | .emplace _ => true
  | _ => false

/-- A name under which a value was converted is registered, or about to be. -/
def Settled (s : State θ V J) (name : String) : Prop :=
  (s.configMap name).isSome = true ∨
    ∃ t g stage, s.pc t = some (g, stage) ∧ stage.hasConverted = true ∧ g.name = name

structure ConvertedOnce (s : State θ V J) : Prop where
  nodup : s.converted.Nodup
  settled : s.fatal = none → ∀ name ∈ s.converted, Settled s name

/-- The name was not found in the map, and no other thread holds the lock. -/
theorem ConvertedOnce.first (h : ConvertedOnce s) (hinv : Inv F s) (hnone : s.fatal = none)
    {config : ℕ} {val : J} (hp : s.pc t = some (g, .initValue config val)) :
    g.name ∉ s.converted := by
  have hold := hinv.holds t g _ hp
  intro hin
  rcases h.settled hnone g.name hin with hreg | ⟨t', g', st, hp', hst, -⟩
  · rw [hold.searched rfl] at hreg
    cases hreg
  · have hinside : st.inside = true := by cases st <;> first | rfl | cases hst
    cases (hold.lock rfl).symm.trans ((hinv.holds t' g' st hp').lock hinside)
    cases hp.symm.trans hp'
    cases hst

structure Sound (F : Source V J) (s : State θ V J) : Prop where
  inv : Inv F s
  called : Called s
  explained : ∀ f ∈ s.fatal, f.Explained F s.calls
  once : ConvertedOnce s

theorem sound_initial : Sound F (initial : State θ V J) where
  inv := .init
  called :=
    { inside := fun t g stage hp => by cases hp
      configs := fun c hc => absurd hc List.not_mem_nil }
  explained f hf := by cases hf
  once :=
    { nodup := List.nodup_nil
      settled := fun _ name hname => absurd hname List.not_mem_nil }

/-- Two threads that are inside `Get`, of which one is about to write to a config: the other has no
pointer to it, and neither has the map or anybody who got one from `Get`. -/
structure WritesAlone (s : State θ V J) : Prop where
  threads : ∀ t t' g g' stage stage' c, s.pc t = some (g, stage) → s.pc t' = some (g', stage') →
    t ≠ t' → stage.writes = some c → stage'.pointer ≠ some c
  registered : ∀ t g stage c, s.pc t = some (g, stage) → stage.writes = some c →
    ∀ n, s.configMap n ≠ some c
  returned : ∀ t g stage c, s.pc t = some (g, stage) → stage.writes = some c →
    ∀ e ∈ s.returned, e.2 ≠ c

theorem Inv.writesAlone (h : Inv F s) : WritesAlone s := by
  have hmine {t : θ} {g : Get V} {stage : Stage J} {c : ℕ} (hp : s.pc t = some (g, stage))
      (hc : stage.writes = some c) : F.owned g stage = some c :=
    (h.holds t g stage hp).points.owned_of_writes hc
  constructor
  · intro t t' g g' stage stage' c hp hp' ht hc hc'
    rcases (h.holds t' g' stage' hp').points.pointer_cases hc' with hown | hreg
    · exact ht (h.apart t t' g g' stage stage' c hp hp' (hmine hp hc) hown)
    · exact h.unregistered t g stage c hp (hmine hp hc) g'.name hreg
  · intro t g stage c hp hc
    exact h.unregistered t g stage c hp (hmine hp hc)
  · intro t g stage c hp hc
    exact h.unreturned t g stage c hp (hmine hp hc)

section Steps
variable [DecidableEq θ]

theorem Called.change (h : Called s) (hp : s.pc t = some (g, stage))
    {p : Option (Get V × Stage J)} (hpc : s'.pc = Function.update s.pc t p)
    (hg : ∀ q ∈ p, q.1 = g) (hcalls : s'.calls = s.calls)
    (hconfigs : ∀ c ∈ s'.configs, c ∈ s.configs ∨ (c.name = g.name ∧ c.type = g.type)) :
    Called s' where
  inside t' g' st hp' := by
    rw [hcalls]
    rw [hpc] at hp'
    by_cases ht : t' = t
    · subst ht
      rw [Function.update_self] at hp'
      have hsame : g' = g := hg (g', st) hp'
      rw [hsame]
      exact h.inside t' g stage hp
    · rw [Function.update_of_ne ht] at hp'
      exact h.inside t' g' st hp'
  configs c hc := by
    rw [hcalls]
    rcases hconfigs c hc with hold | hnew
    · exact h.configs c hold
    · exact ⟨g, h.inside t g stage hp, hnew⟩

theorem Called.went (h : Called s) (hinv : Inv F s) (hp : s.pc t = some (g, stage))
    (hs : Went F s t g stage s') : Called s' := by
  have hpoints := (hinv.holds t g stage hp).points
  have hsame (p : Stage J) : ∀ q ∈ (some (g, p) : Option (Get V × Stage J)), q.1 = g := by
    intro q hq
    cases hq
    rfl
  have hset {config : ℕ} {o : Config V} (hname : o.name = g.name) (htype : o.type = g.type) :
      ∀ c ∈ s.configs.set config o, c ∈ s.configs ∨ (c.name = g.name ∧ c.type = g.type) := by
    intro c hc
    rcases List.mem_or_eq_of_mem_set hc with hold | rfl
    · exact .inl hold
    · exact .inr ⟨hname, htype⟩
  cases hs with
  | new =>
    refine h.change hp rfl (hsame _) rfl fun c hc => ?_
    rcases List.mem_append.mp hc with hold | hnew
    · exact .inl hold
    · cases List.mem_singleton.mp hnew
      exact .inr ⟨rfl, rfl⟩
  | converted hc hinit =>
    cases hc.symm.trans hpoints.1
    obtain ⟨data, -, rfl⟩ := Option.map_eq_some_iff.mp hinit
    exact h.change hp rfl (hsame _) rfl (hset rfl rfl)
  | store hc =>
    obtain ⟨val, data, -, -, hconfig⟩ := hpoints
    cases hc.symm.trans hconfig
    exact h.change hp rfl (hsame _) rfl (hset rfl rfl)
  | assign hc =>
    cases hc.symm.trans hpoints.2
    exact h.change hp rfl (hsame _) rfl (hset rfl rfl)
  | failedToParse | typeMismatched => exact ⟨h.inside, h.configs⟩
  | ret => exact h.change hp rfl (fun q hq => by cases hq) rfl fun c hc => .inl hc
  | _ => exact h.change hp rfl (hsame _) rfl fun c hc => .inl hc

theorem explained_went (hinv : Inv F s) (hcalled : Called s) (hp : s.pc t = some (g, stage))
    (hnone : s.fatal = none) (hs : Went F s t g stage s') :
    ∀ f ∈ s'.fatal, f.Explained F s.calls := by
  have hpoints := (hinv.holds t g stage hp).points
  have hmine := hcalled.inside t g stage hp
  cases hs with
  | failedToParse hc hinit =>
    obtain ⟨hconfig, hval⟩ := hpoints
    cases hc.symm.trans hconfig
    intro f hf
    cases hf
    exact ⟨hmine, _, hval, Option.map_eq_none_iff.mp hinit⟩
  | typeMismatched hc htype =>
    intro f hf
    cases hf
    cases hl : F.lookUp g.name with
    | none =>
      -- the config of its own has the type that the call asks for
      cases hc.symm.trans (hpoints.missing hl)
      exact absurd rfl htype
    | some val =>
      obtain ⟨i, val', data, -, -, hreg⟩ := hinv.registered _ _ (hpoints.found val hl)
      cases hc.symm.trans hreg
      obtain ⟨g', hg', hname, hi⟩ := hcalled.configs _ (List.mem_of_getElem? hc)
      exact ⟨hmine, htype, g', hg', hname.symm, hi.symm, by rw [hl]; rfl⟩
  | _ =>
    intro f hf
    cases hnone.symm.trans hf

theorem Settled.change {name : String} (h : Settled s name) (hp : s.pc t = some (g, stage))
    {p : Option (Get V × Stage J)} (hpc : s'.pc = Function.update s.pc t p)
    (hmap : ∀ n, (s.configMap n).isSome = true → (s'.configMap n).isSome = true)
    (hmine : stage.hasConverted = true → Settled s' g.name) : Settled s' name := by
  rcases h with hreg | ⟨t', g', st, hp', hst, rfl⟩
  · exact .inl (hmap name hreg)
  · by_cases ht : t' = t
    · subst ht
      cases hp.symm.trans hp'
      exact hmine hst
    · refine .inr ⟨t', g', st, ?_, hst, rfl⟩
      rw [hpc, Function.update_of_ne ht]
      exact hp'

theorem ConvertedOnce.went (h : ConvertedOnce s) (hinv : Inv F s) (hp : s.pc t = some (g, stage))
    (hnone : s.fatal = none) (hs : Went F s t g stage s') : ConvertedOnce s' := by
  have hkept {p : Option (Get V × Stage J)} {s' : State θ V J}
      (hpc : s'.pc = Function.update s.pc t p) (hmap : s'.configMap = s.configMap)
      (hconverted : s'.converted = s.converted)
      (hmine : stage.hasConverted = true → Settled s' g.name) : ConvertedOnce s' := by
    refine ⟨hconverted ▸ h.nodup, fun _ name hname => ?_⟩
    rw [hconverted] at hname
    exact (h.settled hnone name hname).change hp hpc (fun n hn => hmap ▸ hn) hmine
  have hnodup {config : ℕ} {val : J} (hp : s.pc t = some (g, .initValue config val)) :
      (s.converted ++ [g.name]).Nodup := by
    refine List.nodup_append.mpr ⟨h.nodup, by simp, ?_⟩
    intro n hn n' hn' heq
    rw [heq, List.mem_singleton.mp hn'] at hn
    exact h.first hinv hnone hp hn
  cases hs with
  | converted hc hinit =>
    refine ⟨hnodup hp, fun _ name hname => ?_⟩
    rcases List.mem_append.mp hname with hname | hname
    · exact (h.settled hnone name hname).change hp rfl (fun n hn => hn) not_here
    · cases List.mem_singleton.mp hname
      exact .inr ⟨t, g, _, setPc_self .., rfl, rfl⟩
  | failedToParse hc hinit => exact ⟨hnodup hp, fun hfatal => by cases hfatal⟩
  | typeMismatched hc htype => exact ⟨h.nodup, fun hfatal => by cases hfatal⟩
  | store hc => exact hkept rfl rfl rfl fun _ => .inr ⟨t, g, _, setPc_self .., rfl, rfl⟩
  | @emplace config =>
    have hself : (Function.update s.configMap g.name (some config) g.name).isSome = true := by
      rw [Function.update_self]
      rfl
    refine ⟨h.nodup, fun _ name hname => ?_⟩
    refine (h.settled hnone name hname).change hp rfl (fun n hn => ?_) fun _ => .inl hself
    by_cases hn' : n = g.name
    · subst hn'
      exact hself
    · show (Function.update s.configMap g.name (some config) n).isSome = true
      rw [Function.update_of_ne hn']
      exact hn
  | _ => exact hkept rfl rfl rfl not_here

theorem Sound.call_step (h : Sound F s) (hnone : s.fatal = none) (hp : s.pc t = none) :
    Sound F { s.setPc t (some (g, .new)) with calls := s.calls ++ [g] } where
  inv := h.inv.call_step hp
  called :=
    { inside := fun t' g' st hp' => by
        by_cases ht : t' = t
        · subst ht
          cases (setPc_self s t' (some (g, .new))).symm.trans hp'
          exact List.mem_append_right _ (List.mem_singleton_self g)
        · exact List.mem_append_left _
            (h.called.inside t' g' st ((setPc_of_ne s _ ht).symm.trans hp'))
      configs := fun c hc => by
        obtain ⟨g', hg', heq⟩ := h.called.configs c hc
        exact ⟨g', List.mem_append_left _ hg', heq⟩ }
  explained f hf := by cases hnone.symm.trans hf
  once :=
    { nodup := h.once.nodup
      settled := fun _ name hname => by
        rcases h.once.settled hnone name hname with hreg | ⟨t', g', st, hp', hst⟩
        · exact .inl hreg
        · have ht : t' ≠ t := by
            rintro rfl
            cases hp.symm.trans hp'
          exact .inr ⟨t', g', st, (setPc_of_ne s _ ht).trans hp', hst⟩ }

theorem calls_went (hs : Went F s t g stage s') : s'.calls = s.calls := by
  cases hs <;> rfl

theorem Sound.went (h : Sound F s) (hnone : s.fatal = none) (hp : s.pc t = some (g, stage))
    (hs : Went F s t g stage s') : Sound F s' where
  inv := h.inv.went hp hs
  called := h.called.went h.inv hp hs
  explained := by
    rw [calls_went hs]
    exact explained_went h.inv h.called hp hnone hs
  once := h.once.went h.inv hp hnone hs

variable [DecidableEq ι]

theorem sound_of_reachable (h : (system F θ).Reachable s) : Sound F s := by
  apply h.invariant
  · rintro s rfl
    exact sound_initial
  · intro u a v hu hs
    obtain ⟨hnone, ⟨t, g, rfl, hp, rfl⟩ | ⟨t, g, stage, rfl, hp, hwent⟩⟩ := step_cases hs
    · exact hu.call_step hnone hp
    · exact hu.went hnone hp hwent

/-- A call that has returned stays returned. -/
theorem returned_of_exec {as : List (Action θ V)} {u : State θ V J}
    (h : (system F θ).exec s as = some u) : s.returned ⊆ u.returned := by
  refine TransitionSystem.exec_induction (P := fun u => s.returned ⊆ u.returned)
    (fun e he => he) ?_ h
  intro u a v hu hs
  obtain ⟨-, ⟨t, g, rfl, hp, rfl⟩ | ⟨t, g, stage, rfl, hp, hwent⟩⟩ := step_cases hs
  · exact hu
  · have hgrow : u.returned ⊆ v.returned := by
      cases hwent with
      | ret => exact List.subset_append_left _ _
      | _ => exact fun e he => he
    exact fun e he => hgrow (hu he)

/-- Whatever the threads and the types that they ask for: a call that returns gets the value of the
document, converted once for all calls and kept in one config, or a config of its own with its default
value; nobody writes to a config that another has a pointer to, and what was returned never changes;
the process ends only on a value that cannot be converted and on two calls of one name that ask for two
types. -/
theorem gets_agree_with_document (h : (system F θ).Reachable s) :
    (∀ e ∈ s.returned, F.Gives s e.1 e.2) ∧
    (∀ e ∈ s.returned, ∀ e' ∈ s.returned, e.1.name = e'.1.name →
      (F.lookUp e.1.name).isSome = true → e.2 = e'.2) ∧
    (s.ownReturned F).Nodup ∧ s.converted.Nodup ∧ WritesAlone s ∧
    (∀ as u, (system F θ).exec s as = some u →
      ∀ e ∈ s.returned, u.configs[e.2]? = s.configs[e.2]?) ∧
    ∀ f ∈ s.fatal, f.Explained F s.calls := by
  have hsound := sound_of_reachable h
  refine ⟨hsound.inv.returned, ?_, hsound.inv.distinct, hsound.once.nodup,
    hsound.inv.writesAlone, ?_, hsound.explained⟩
  · intro e he e' he' hname hsome
    obtain ⟨val, hval⟩ := Option.isSome_iff_exists.mp hsome
    have hmap := ((hsound.inv.returned e he).found val hval).1
    have hval' : F.lookUp e'.1.name = some val := hname ▸ hval
    have hmap' := ((hsound.inv.returned e' he').found val hval').1
    rw [← hname] at hmap'
    exact Option.some.inj (hmap.symm.trans hmap')
  · intro as u he e hmem
    have hnow := hsound.inv.returned e hmem
    have hlater := (sound_of_reachable (h.exec he)).inv.returned e (returned_of_exec he hmem)
    cases hl : F.lookUp e.1.name with
    | none => rw [hnow.missing hl, hlater.missing hl]
    | some val =>
      obtain ⟨-, data, hdata, hconfig⟩ := hnow.found val hl
      obtain ⟨-, data', hdata', hconfig'⟩ := hlater.found val hl
      cases hdata.symm.trans hdata'
      rw [hconfig, hconfig']

end Steps

/-! The integral types, with the parser that `InitValue` has for them. -/

open ConfigIntegers (IntegralType)

theorem integralType_ext_iff (i j : IntegralType) :
    i.isSigned = j.isSigned ∧ i.width = j.width ↔ i = j := by
  constructor
  · intro ⟨hsigned, hwidth⟩
    cases i
    cases j
    cases hsigned
    cases hwidth
    rfl
  · rintro rfl
    exact ⟨rfl, rfl⟩

instance : DecidableEq IntegralType := fun i j =>
  decidable_of_iff (i.isSigned = j.isSigned ∧ i.width = j.width) (integralType_ext_iff i j)

/-- A document with these entries. -/
def integers (entries : List (String × ℤ)) : Source IntegralType.Value ℤ where
  lookUp configName := (entries.find? fun e => e.1 == configName).map Prod.snd
  parse i val := (ConfigIntegers.Config.parse i val).map i.staticCast
  zero i := i.staticCast 0

/-- Two threads ask for the width, the second one before the first has registered it; the first one
also asks for a name that the document does not have. -/
def widthSteps : List (Action Bool IntegralType.Value) :=
  [.call false ⟨"width", .int, IntegralType.int.staticCast 1⟩, .go false, .go false,
    .call true ⟨"width", .int, IntegralType.int.staticCast 2⟩, .go true] ++
  List.replicate 6 (.go false) ++ List.replicate 3 (.go true) ++
  List.replicate 3 (.go false) ++ List.replicate 3 (.go true) ++
  [.call false ⟨"height", .unsigned, IntegralType.unsigned.staticCast 3⟩] ++
  List.replicate 9 (.go false)

def widthState : State Bool IntegralType.Value ℤ :=
  (system (integers [("width", 640)]) Bool).after initial widthSteps

theorem gets_agree_with_document_widthState :
    widthState.returned.map (fun e => (e.1.name, e.2)) =
      [("width", 0), ("width", 0), ("height", 2)] ∧
    ∀ e ∈ widthState.returned, (integers [("width", 640)]).Gives widthState e.1 e.2 :=
  ⟨by decide +kernel,
    (gets_agree_with_document (TransitionSystem.Reachable.after
      (M := system (integers [("width", 640)]) Bool) rfl widthSteps)).1⟩

end CrisCore.ConfigRegistry
