import CrisCore.ChannelDirs

/-! The recorders of one process and the directory each of them works in. `GetRecordDir` keeps its
answer in a static variable of the function, one for all instances. What an instance owes to the
others shows in the run that is left when the others are taken out. -/
namespace CrisCore.RecorderInstances

structure RecorderConfig where
  recordDir : List String
  hostname : String
  deriving DecidableEq

/-- What an instance asks `GetRecordDir` for. -/
inductive Use
  /-- `CreateFile` -/
  | createFile (channel : Channel) (filename : String)
  /-- The copy in `GenerateSnapshotImpl`. -/
  | copySource
  /-- `SnapshotWorker` -/
  | snapshotDir (interval name : String)
  /-- What the destructor removes when it is empty. -/
  | removeIfEmpty
  deriving DecidableEq

/-- The path that is used when `GetRecordDir` answers `recordDir`. -/
def Use.path (hostname : String) (recordDir : List String) : Use → List String
  | .createFile channel filename => recordDir ++ [hostname] ++ channel.dir ++ [filename]
  | .copySource | .removeIfEmpty => recordDir
  | .snapshotDir interval name => recordDir.dropLast ++ ["snapshots", interval, name]

/-- One call of `GetRecordDir`, with the time it was made at, its answer and the path made of it. -/
structure Used where
  recorder : ℕ
  config : RecorderConfig
  use : Use
  utcTime : String
  recordDir : List String
  path : List String
  deriving DecidableEq

structure Process where
  /-- `getpid()` -/
  pid : ℕ
  /-- `recorder_config_` of each instance, under a name of the instance. -/
  recorders : ℕ → Option RecorderConfig
  /-- `static const auto record_dir` of `GetRecordDir`. -/
  staticRecordDir : Option (List String)
  /-- History: the calls so far. -/
  used : List Used

def initial (pid : ℕ) : Process where
  pid := pid
  recorders _ := none
  staticRecordDir := none
  used := []

/-- What the static variable is set to when the call of this instance at this time is the first. -/
def ownDir (pid : ℕ) (config : RecorderConfig) (utcTime : String) : List String :=
  config.recordDir ++ [utcTime ++ ".UTC.pid." ++ toString pid]

def getRecordDir (s : Process) (config : RecorderConfig) (utcTime : String) : List String :=
  s.staticRecordDir.getD (ownDir s.pid config utcTime)

inductive Op
  | create (recorder : ℕ) (config : RecorderConfig)
  | use (recorder : ℕ) (use : Use) (utcTime : String)
  deriving DecidableEq

def Op.recorder : Op → ℕ
  | .create recorder _ | .use recorder _ _ => recorder

/-- The call that one use makes. -/
def usedBy (s : Process) (recorder : ℕ) (use : Use) (utcTime : String) (config : RecorderConfig) :
    Used :=
  let recordDir := getRecordDir s config utcTime
  ⟨recorder, config, use, utcTime, recordDir, use.path config.hostname recordDir⟩

def step (s : Process) : Op → Option Process
  | .create recorder config =>
    if s.recorders recorder = none then
      some { s with recorders := fun r => if r = recorder then some config else s.recorders r }
    else none
  | .use recorder use utcTime =>
    (s.recorders recorder).map fun config =>
      { s with
        staticRecordDir := some (getRecordDir s config utcTime)
        used := s.used ++ [usedBy s recorder use utcTime config] }

def system : TransitionSystem Process Op where
  init s := ∃ pid, s = initial pid
  step := step

/-- Each answer of `GetRecordDir` lies directly under the `record_dir_` of its caller. -/
def OwnDirs (s : Process) : Prop :=
  ∀ u ∈ s.used, ∃ name, u.recordDir = u.config.recordDir ++ [name]

def usesOf (recorder : ℕ) (used : List Used) : List Used :=
  used.filter (·.recorder == recorder)

def opsOf (recorder : ℕ) (ops : List Op) : List Op :=
  ops.filter (·.recorder == recorder)

/-- Each instance got the answers and used the paths that it gets and uses when none of the others
is created. -/
def DependsOnOwn (pid : ℕ) (ops : List Op) (t : Process) : Prop :=
  ∀ recorder, (system.exec (initial pid) (opsOf recorder ops)).map Process.used =
    some (usesOf recorder t.used)

/-- No record directory is that of two instances. -/
def Apart (s : Process) : Prop :=
  ∀ u ∈ s.used, ∀ v ∈ s.used, u.recordDir = v.recordDir → u.recorder = v.recorder

/-- No other instance has asked before. -/
def OnlyAsker (s : Process) : Op → Prop
  | .create _ _ => True
  | .use recorder _ _ => ∀ u ∈ s.used, u.recorder = recorder

/-- When an instance asked for the first time, if it asks at `utcTime` now. -/
def firstAsked (s : Process) (recorder : ℕ) (utcTime : String) : String :=
  ((s.used.find? (·.recorder == recorder)).map Used.utcTime).getD utcTime

/-- The instance that asks has the `record_dir_` of the first that asked in the process, and asked
for the first time in the same second. -/
def SharesFirst (s : Process) : Op → Prop
  | .create _ _ => True
  | .use recorder _ utcTime => ∀ first ∈ s.used.head?, ∀ config ∈ s.recorders recorder,
    config.recordDir = first.config.recordDir ∧ firstAsked s recorder utcTime = first.utcTime

instance (s : Process) : (op : Op) → Decidable (OnlyAsker s op)
  | .create _ _ => inferInstanceAs (Decidable True)
  | .use _ _ _ => inferInstanceAs (Decidable (∀ u ∈ s.used, _))

instance (s : Process) : (op : Op) → Decidable (SharesFirst s op)
  | .create _ _ => inferInstanceAs (Decidable True)
  | .use _ _ _ => inferInstanceAs (Decidable (∀ first ∈ s.used.head?, _))

theorem ownDir_inj {pid : ℕ} {c d : RecorderConfig} {a b : String} :
    ownDir pid c a = ownDir pid d b ↔ c.recordDir = d.recordDir ∧ a = b := by
  constructor
  · intro h
    obtain ⟨hdir, hname⟩ := List.append_inj' h rfl
    refine ⟨hdir, ?_⟩
    have hchars := congrArg String.toList (List.cons.inj hname).1
    exact String.toList_injective (by simpa [List.append_assoc] using hchars)
  · rintro ⟨hdir, rfl⟩
    rw [ownDir, hdir, ownDir]

/-- The static variable was set by the first call and has been the answer of every call, and the
calls name the configurations of their instances. -/
structure StaticInv (s : Process) : Prop where
  static : s.staticRecordDir =
    s.used.head?.map fun first => ownDir s.pid first.config first.utcTime
  answers : ∀ u ∈ s.used, s.staticRecordDir = some u.recordDir
  configs : ∀ u ∈ s.used, s.recorders u.recorder = some u.config

section Steps
variable {s t : Process} {op : Op} {recorder : ℕ} {config : RecorderConfig} {utcTime : String}

theorem staticInv_initial (pid : ℕ) : StaticInv (initial pid) :=
  ⟨rfl, nofun, nofun⟩

theorem getRecordDir_eq (h : StaticInv s) :
    getRecordDir s config utcTime =
      (s.used.head?.map fun first => ownDir s.pid first.config first.utcTime).getD
        (ownDir s.pid config utcTime) := by
  rw [getRecordDir, h.static]

theorem staticInv_step (h : StaticInv s) (hst : step s op = some t) : StaticInv t := by
  cases op with
  | create recorder config =>
    obtain ⟨hnew, ht⟩ := Option.ite_none_right_eq_some.mp hst
    cases ht
    refine ⟨h.static, h.answers, fun u hu => ?_⟩
    have hu' := h.configs u hu
    -- the new name was not in use
    have hne : u.recorder ≠ recorder := by
      rintro rfl
      rw [hnew] at hu'
      cases hu'
    simpa [hne] using hu'
  | use recorder use utcTime =>
    obtain ⟨config, hconfig, rfl⟩ := Option.map_eq_some_iff.mp hst
    constructor
    · simp only [getRecordDir_eq h]
      cases hused : s.used with
      | nil => rfl
      | cons first rest => rfl
    · intro u hu
      rcases List.mem_append.mp hu with hu | hu
      · simp only [getRecordDir, h.answers u hu, Option.getD_some]
      · rw [List.mem_singleton.mp hu]
        rfl
    · intro u hu
      rcases List.mem_append.mp hu with hu | hu
      · exact h.configs u hu
      · rw [List.mem_singleton.mp hu]
        exact hconfig

theorem staticInv_exec {pid : ℕ} {ops : List Op} (h : system.exec (initial pid) ops = some t) :
    StaticInv t :=
  TransitionSystem.exec_induction (staticInv_initial pid) (fun _ _ _ hu hv => staticInv_step hu hv)
    h

/-- The answer of the next call is the instance's own directory, of the time it first asked. -/
theorem getRecordDir_own_iff (h : StaticInv s) (hconfig : s.recorders recorder = some config)
    (use : Use) :
    getRecordDir s config utcTime = ownDir s.pid config (firstAsked s recorder utcTime) ↔
      SharesFirst s (.use recorder use utcTime) := by
  rw [getRecordDir_eq h, SharesFirst, hconfig]
  cases hhead : s.used.head? with
  | none =>
    have hnil : s.used = [] := List.head?_eq_none_iff.mp hhead
    simp [firstAsked, hnil]
  | some first =>
    simp only [Option.map_some, Option.getD_some, Option.mem_def, Option.some.injEq, forall_eq',
      ownDir_inj]
    exact and_congr eq_comm eq_comm

/-- Who asks alone shares with the first caller, which it is itself. -/
theorem sharesFirst_of_onlyAsker (h : StaticInv s) (honly : OnlyAsker s op) : SharesFirst s op := by
  cases op with
  | create recorder config => trivial
  | use recorder use utcTime =>
    intro first hfirst config hconfig
    have hmem : first ∈ s.used := List.mem_of_mem_head? hfirst
    have hrec := honly first hmem
    have hown := h.configs first hmem
    rw [hrec, hconfig] at hown
    cases hown
    refine ⟨rfl, ?_⟩
    cases hused : s.used with
    | nil => simp [hused] at hfirst
    | cons u rest =>
      rw [hused] at hfirst
      cases hfirst
      simp [firstAsked, hused, hrec]

/-- In a run of one instance the answer is always its own directory. -/
theorem getRecordDir_alone (h : StaticInv s) (hconfig : s.recorders recorder = some config)
    (halone : ∀ u ∈ s.used, u.recorder = recorder) :
    getRecordDir s config utcTime = ownDir s.pid config (firstAsked s recorder utcTime) :=
  (getRecordDir_own_iff h hconfig .copySource).mpr (sharesFirst_of_onlyAsker h halone)

/-- Every later call gets the answer of the calls before. -/
theorem getRecordDir_again (h : StaticInv s) {u : Used} (hu : u ∈ s.used) :
    getRecordDir s config utcTime = u.recordDir := by
  rw [getRecordDir, h.answers u hu, Option.getD_some]

theorem ownDirs_step (h : StaticInv s) (hown : OwnDirs s) (hshares : SharesFirst s op)
    (hst : step s op = some t) : OwnDirs t := by
  cases op with
  | create recorder config =>
    obtain ⟨-, ht⟩ := Option.ite_none_right_eq_some.mp hst
    cases ht
    exact hown
  | use recorder use utcTime =>
    obtain ⟨config, hconfig, rfl⟩ := Option.map_eq_some_iff.mp hst
    intro u hu
    rcases List.mem_append.mp hu with hu | hu
    · exact hown u hu
    · rw [List.mem_singleton.mp hu]
      exact ⟨_, (getRecordDir_own_iff h hconfig use).mpr hshares⟩

theorem Apart.of_step (h : Apart t) (hst : step s op = some t) : Apart s := by
  cases op with
  | create recorder config =>
    obtain ⟨-, ht⟩ := Option.ite_none_right_eq_some.mp hst
    cases ht
    exact h
  | use recorder use utcTime =>
    obtain ⟨config, -, rfl⟩ := Option.map_eq_some_iff.mp hst
    exact fun u hu v hv => h u (List.mem_append_left _ hu) v (List.mem_append_left _ hv)

/-- All calls have one answer, so the directories are apart while one instance makes all calls. -/
theorem apart_step (h : StaticInv s) (hapart : Apart s) (hst : step s op = some t) :
    Apart t ↔ OnlyAsker s op := by
  cases op with
  | create recorder config =>
    obtain ⟨-, ht⟩ := Option.ite_none_right_eq_some.mp hst
    cases ht
    exact iff_of_true hapart trivial
  | use recorder use utcTime =>
    obtain ⟨config, hconfig, rfl⟩ := Option.map_eq_some_iff.mp hst
    constructor
    · intro ht u hu
      exact ht u (List.mem_append_left _ hu) _ List.mem_concat_self
        (getRecordDir_again h hu).symm
    · intro honly u hu v hv _
      have hone : ∀ w ∈ s.used ++ [usedBy s recorder use utcTime config],
          w.recorder = recorder := by
        intro w hw
        rcases List.mem_append.mp hw with hw | hw
        · exact honly w hw
        · rw [List.mem_singleton.mp hw]
          rfl
      rw [hone u hu, hone v hv]

end Steps

theorem firstAsked_alone {s a : Process} {recorder : ℕ} {utcTime : String}
    (h : a.used = usesOf recorder s.used) :
    firstAsked a recorder utcTime = firstAsked s recorder utcTime := by
  have hfind : (usesOf recorder s.used).find? (·.recorder == recorder) =
      s.used.find? (·.recorder == recorder) := by
    simp only [usesOf, List.find?_filter, and_self, Bool.decide_eq_true]
  rw [firstAsked, h, hfind, firstAsked]

/-- A call gets the answer that it gets when its instance is alone, after the same calls. -/
theorem getRecordDir_alone_iff {s a : Process} {recorder : ℕ} {config : RecorderConfig}
    {utcTime : String} (hs : StaticInv s) (ha : StaticInv a) (hpid : a.pid = s.pid)
    (hconfig : s.recorders recorder = some config) (hconfig' : a.recorders recorder = some config)
    (hused : a.used = usesOf recorder s.used) (use : Use) :
    getRecordDir a config utcTime = getRecordDir s config utcTime ↔
      SharesFirst s (.use recorder use utcTime) := by
  have halone : ∀ u ∈ a.used, u.recorder = recorder := by
    rw [hused]
    simp [usesOf]
  rw [getRecordDir_alone ha hconfig' halone, hpid, firstAsked_alone hused, eq_comm]
  exact getRecordDir_own_iff hs hconfig use

theorem usedBy_inj {s a : Process} {recorder : ℕ} {use : Use} {utcTime : String}
    {config : RecorderConfig} :
    usedBy a recorder use utcTime config = usedBy s recorder use utcTime config ↔
      getRecordDir a config utcTime = getRecordDir s config utcTime := by
  constructor
  · exact congrArg Used.recordDir
  · intro h
    rw [usedBy, usedBy, h]

section Runs
variable {pid : ℕ} {ops : List Op} {t : Process}

/-- The run of one instance alone has the instance's configuration. -/
theorem alone_exec (h : system.exec (initial pid) ops = some t) (recorder : ℕ) :
    ∃ a, system.exec (initial pid) (opsOf recorder ops) = some a ∧ a.pid = t.pid ∧
      a.recorders recorder = t.recorders recorder := by
  have hall : system.StepsMeet (fun _ _ => True) (initial pid) ops :=
    TransitionSystem.stepsMeet_of_invariant (I := fun _ => True) (fun _ _ _ _ _ => trivial)
      (fun _ _ _ => trivial) trivial ops
  refine hall.exec_filter (R := fun s a => a.pid = s.pid ∧
    a.recorders recorder = s.recorders recorder) ⟨rfl, rfl⟩ ?_ ?_ h
  · rintro s op t a ⟨hpid, hrec⟩ - hk hst
    have hne : op.recorder ≠ recorder := by simpa using hk
    cases op with
    | create r config =>
      obtain ⟨-, ht⟩ := Option.ite_none_right_eq_some.mp hst
      cases ht
      exact ⟨hpid, hrec.trans (if_neg (Ne.symm hne)).symm⟩
    | use r use utcTime =>
      obtain ⟨config, -, rfl⟩ := Option.map_eq_some_iff.mp hst
      exact ⟨hpid, hrec⟩
  · rintro s op t a ⟨hpid, hrec⟩ - hk hst
    have heq : op.recorder = recorder := by simpa using hk
    subst heq
    cases op with
    | create r config =>
      obtain ⟨hnew, ht⟩ := Option.ite_none_right_eq_some.mp hst
      cases ht
      refine ⟨_, if_pos (hrec.trans hnew), hpid, ?_⟩
      simp [Op.recorder]
    | use r use utcTime =>
      obtain ⟨config, hconfig, rfl⟩ := Option.map_eq_some_iff.mp hst
      exact ⟨_, congrArg (Option.map _) (hrec.trans hconfig), hpid, hrec⟩

/-- The part of one instance in `DependsOnOwn`, over one more step. -/
theorem alone_snoc {s : Process} {op : Op} (h : system.exec (initial pid) ops = some s)
    (hst : step s op = some t) (recorder : ℕ) :
    (system.exec (initial pid) (opsOf recorder (ops ++ [op]))).map Process.used =
        some (usesOf recorder t.used) ↔
      (system.exec (initial pid) (opsOf recorder ops)).map Process.used =
        some (usesOf recorder s.used) ∧ (op.recorder = recorder → SharesFirst s op) := by
  obtain ⟨a, ha, hpid, hrec⟩ := alone_exec h recorder
  by_cases hop : op.recorder = recorder
  · have hops : opsOf recorder (ops ++ [op]) = opsOf recorder ops ++ [op] := by
      simp [opsOf, hop]
    rw [hops, system.exec_append_some ha, ha]
    subst hop
    cases op with
    | create r config =>
      obtain ⟨hnew, ht⟩ := Option.ite_none_right_eq_some.mp hst
      cases ht
      have hstep : system.step a (.create r config) = some _ := if_pos (hrec.trans hnew)
      simp [hstep, SharesFirst, Op.recorder]
    | use r use utcTime =>
      obtain ⟨config, hconfig, rfl⟩ := Option.map_eq_some_iff.mp hst
      have hconfig' : a.recorders r = some config := hrec.trans hconfig
      have hstep : system.step a (.use r use utcTime) = some _ :=
        congrArg (Option.map _) hconfig'
      simp only [TransitionSystem.exec_cons, TransitionSystem.exec_nil, hstep, Option.bind_some,
        Option.map_some, Option.some.injEq, Op.recorder, true_imp_iff]
      have huses : usesOf r (s.used ++ [usedBy s r use utcTime config]) =
          usesOf r s.used ++ [usedBy s r use utcTime config] := by
        simp [usesOf, usedBy]
      rw [huses, List.append_singleton_inj, usedBy_inj]
      -- the last answer is compared after the calls before have been found alike
      apply and_congr_right
      intro hbefore
      exact getRecordDir_alone_iff (staticInv_exec h) (staticInv_exec ha) hpid hconfig hconfig'
        hbefore use
  · have hops : opsOf recorder (ops ++ [op]) = opsOf recorder ops := by
      simp [opsOf, hop]
    have huses : usesOf recorder t.used = usesOf recorder s.used := by
      cases op with
      | create r config =>
        obtain ⟨-, ht⟩ := Option.ite_none_right_eq_some.mp hst
        cases ht
        rfl
      | use r use utcTime =>
        obtain ⟨config, -, rfl⟩ := Option.map_eq_some_iff.mp hst
        simp only [Op.recorder] at hop
        simp [usesOf, usedBy, hop]
    simp [hops, huses, hop]

theorem dependsOnOwn_iff (h : system.exec (initial pid) ops = some t) :
    DependsOnOwn pid ops t ↔ system.StepsMeet SharesFirst (initial pid) ops := by
  induction ops using List.reverseRecOn generalizing t with
  | nil =>
    cases h
    exact iff_of_true (fun _ => rfl) trivial
  | append_singleton ops op ih =>
    obtain ⟨s, hs, hst⟩ := system.exec_snoc.mp h
    rw [TransitionSystem.stepsMeet_snoc hs, ← ih hs]
    simp only [DependsOnOwn, alone_snoc hs hst, forall_and, forall_eq']

theorem ownDirs_of_sharesFirst (h : system.exec (initial pid) ops = some t)
    (hshares : system.StepsMeet SharesFirst (initial pid) ops) : OwnDirs t := by
  refine (hshares.invariant (P := fun s => StaticInv s ∧ OwnDirs s)
    ⟨staticInv_initial pid, nofun⟩ ?_ h).2
  intro s op u hs hc hst
  exact ⟨staticInv_step hs.1 hst, ownDirs_step hs.1 hs.2 hc hst⟩

theorem apart_iff (h : system.exec (initial pid) ops = some t) :
    Apart t ↔ system.StepsMeet OnlyAsker (initial pid) ops := by
  induction ops using List.reverseRecOn generalizing t with
  | nil =>
    cases h
    exact iff_of_true nofun trivial
  | append_singleton ops op ih =>
    obtain ⟨s, hs, hst⟩ := system.exec_snoc.mp h
    rw [TransitionSystem.stepsMeet_snoc hs, ← ih hs]
    constructor
    · intro hapart
      have hbefore : Apart s := hapart.of_step hst
      exact ⟨hbefore, (apart_step (staticInv_exec hs) hbefore hst).mp hapart⟩
    · rintro ⟨hbefore, honly⟩
      exact (apart_step (staticInv_exec hs) hbefore hst).mpr honly

/-- Each instance has a directory of its own, the one its own configuration gives, exactly while one
instance alone asks for it; the answers are what each would get alone exactly when those that ask
have one `record_dir_` and first asked in one second. -/
theorem record_dirs_independent (h : system.exec (initial pid) ops = some t) :
    (OwnDirs t ∧ DependsOnOwn pid ops t ∧ Apart t ↔
        system.StepsMeet OnlyAsker (initial pid) ops) ∧
      (OwnDirs t ∧ DependsOnOwn pid ops t ↔
        system.StepsMeet SharesFirst (initial pid) ops) := by
  have hnames : OwnDirs t ∧ DependsOnOwn pid ops t ↔
      system.StepsMeet SharesFirst (initial pid) ops := by
    rw [dependsOnOwn_iff h, and_iff_right_iff_imp]
    exact fun hshares => ownDirs_of_sharesFirst h hshares
  refine ⟨?_, hnames⟩
  rw [← and_assoc, hnames, apart_iff h, and_iff_right_iff_imp]
  intro honly
  exact honly.imp_of_kept (staticInv_initial pid) (fun _ _ _ hu _ hv => staticInv_step hu hv)
    fun _ _ hu => sharesFirst_of_onlyAsker hu

/-- Two recorders, of which only the second asks for its directory. -/
def oneAskerRun : List Op :=
  [.create 0 ⟨["first"], "host"⟩, .create 1 ⟨["second"], "host"⟩,
    .use 1 (.createFile ⟨"TestMessage<int>", 1⟩ "a.ldb.d") "20230316T041531",
    .use 1 .copySource "20230316T041532", .use 1 .removeIfEmpty "20230316T041533"]

theorem record_dirs_independent_oneAskerRun :
    OwnDirs (system.after (initial 7) oneAskerRun) ∧
      DependsOnOwn 7 oneAskerRun (system.after (initial 7) oneAskerRun) ∧
      Apart (system.after (initial 7) oneAskerRun) :=
  (record_dirs_independent (system.exec_after (by decide))).1.mpr (by decide)

/-- The second recorder writes its files under the directory of the first. -/
def twoDirsRun : List Op :=
  [.create 0 ⟨["first"], "host"⟩, .create 1 ⟨["second"], "host"⟩,
    .use 0 .copySource "20230316T041531",
    .use 1 (.createFile ⟨"TestMessage<int>", 1⟩ "a.ldb.d") "20230316T041532"]

/-- Two recorders with one `record_dir_`. -/
def sharedDirRun : List Op :=
  [.create 0 ⟨["records"], "host"⟩, .create 1 ⟨["records"], "host"⟩,
    .use 0 (.createFile ⟨"TestMessage<int>", 1⟩ "a.ldb.d") "20230316T041531",
    .use 1 .copySource "20230316T041532", .use 1 .removeIfEmpty "20230316T041533"]

/-- The second recorder of the one run leaves its `record_dir_`; that of the other keeps to it and
copies the directory of the first. -/
theorem second_recorder_leaves_its_dir :
    ¬ OwnDirs (system.after (initial 7) twoDirsRun) ∧
      ¬ DependsOnOwn 7 sharedDirRun (system.after (initial 7) sharedDirRun) := by
  constructor
  · intro h
    have hmem : (⟨1, ⟨["second"], "host"⟩, .createFile ⟨"TestMessage<int>", 1⟩ "a.ldb.d",
        "20230316T041532", ["first", "20230316T041531.UTC.pid.7"],
        ["first", "20230316T041531.UTC.pid.7", "host", "TestMessage_int_", "1", "a.ldb.d"]⟩ :
          Used) ∈ (system.after (initial 7) twoDirsRun).used := by decide
    obtain ⟨name, hname⟩ := h _ hmem
    have hhead : "first" = "second" := List.head_eq_of_cons_eq hname
    exact absurd hhead (by decide)
  · intro h
    exact absurd (h 1) (by decide)

end Runs
end CrisCore.RecorderInstances
