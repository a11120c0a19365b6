import CrisCore.RollingHelpers
import CrisCore.ListSums

/-! How large the databases of a file get that rolls by size: the bytes that are put into one while
the file has it open. -/
namespace CrisCore.RollingSession
open TransitionSystem

section Comparison
variable {h : RollingBySize} {metadata : RollingHelper.Metadata}

/-- The rearranged comparison is the one of the exact sum. -/
theorem rollingBySize_needToRoll_iff :
    rollingBySizeHelper.needToRoll h metadata = true ↔
      h.limitBytesize.toNat ≤ h.currentBytesize.toNat + metadata.valueSize.toNat := by
  simp only [rollingBySizeHelper]
  split_ifs with hle
  -- a value of the size of the limit or more
  · rw [UInt64.le_iff_toNat_le] at hle
    simp only [true_iff]
    omega
  · have hlt : metadata.valueSize.toNat < h.limitBytesize.toNat := by
      rw [UInt64.le_iff_toNat_le] at hle
      omega
    rw [decide_eq_true_iff, UInt64.le_iff_toNat_le,
      UInt64.toNat_sub_of_le _ _ (UInt64.le_iff_toNat_le.mpr hlt.le)]
    omega

theorem rollingBySize_update (h : RollingBySize) (metadata : RollingHelper.Metadata) (hfit :
    h.currentBytesize.toNat + metadata.valueSize.toNat < 2 ^ 64) :
    (rollingBySizeHelper.update h metadata).currentBytesize.toNat =
      h.currentBytesize.toNat + metadata.valueSize.toNat := by
  change (h.currentBytesize + metadata.valueSize).toNat = _
  rw [UInt64.toNat_add, Nat.mod_eq_of_lt hfit]

theorem valueSize_metadata (w : Write) : w.metadata.valueSize.toNat = w.value.length := by
  change (UInt64.ofNat w.value.length).toNat = _
  rw [UInt64.toNat_ofNat']
  exact Nat.mod_eq_of_lt w.size_lt

end Comparison

/-- The bytes of the values put into the database of the file. -/
def putBytes {σ : Type} (s : State σ) : ℕ :=
  (s.puts.map fun e => e.2.length).sum

section Counts
variable {limit : ℕ} {s t : State RollingBySize} {w : Write}

/-- The helper counts exactly, and a database takes no more than the limit unless it has a single
value. -/
structure SizeKept (limit : ℕ) (s : State RollingBySize) : Prop where
  ready : Ready s
  limit_eq : s.helper.limitBytesize.toNat = limit
  current : s.helper.currentBytesize.toNat = putBytes s
  bound : s.puts = [] ∨ putBytes s < limit ∨ s.puts.length = 1

theorem rolls_rollingBySize_iff (h : SizeKept limit s) (w : Write) :
    rolls rollingBySizeHelper s w = true ↔ limit ≤ putBytes s + w.value.length := by
  rw [rolls, h.ready.rollingHelper, Bool.true_and, rollingBySize_needToRoll_iff, h.limit_eq,
    h.current, valueSize_metadata]

theorem sizeKept_step (h : SizeKept limit s) (hs : Succeeds rollingBySizeHelper s w)
    (hstep : step rollingBySizeHelper s w = some t) :
    SizeKept limit t ∧ t.puts ≠ [] := by
  obtain ⟨t', ht', hready, hhelper, hputs, -⟩ := step_of_succeeds h.ready hs
  cases ht'.symm.trans hstep
  have hlimit : limit < 2 ^ 64 := h.limit_eq ▸ s.helper.limitBytesize.toNat_lt
  have hsize := w.size_lt
  by_cases hn : rolls rollingBySizeHelper s w = true
  · rw [if_pos hn] at hhelper hputs
    have hsum : putBytes t = w.value.length := by simp [putBytes, hputs]
    have hupdate := rollingBySize_update (rollingBySizeHelper.reset s.helper w.resetTime)
      w.metadata (by rw [valueSize_metadata]; simpa [rollingBySizeHelper] using hsize)
    refine ⟨⟨hready, ?_, ?_, Or.inr (Or.inr ?_)⟩, ?_⟩
    · rw [hhelper]
      exact h.limit_eq
    · rw [hhelper, hupdate, valueSize_metadata, hsum]
      exact Nat.zero_add _
    · rw [hputs]
      rfl
    · simp [hputs]
  · rw [if_neg hn] at hhelper hputs
    -- no roll, so the sum stays below the limit
    have hlt : putBytes s + w.value.length < limit := by
      rw [rolls_rollingBySize_iff h] at hn
      omega
    have hsum : putBytes t = putBytes s + w.value.length := by
      unfold putBytes
      rw [hputs]
      exact ListSums.sum_map_concat _ _
    have hupdate := rollingBySize_update s.helper w.metadata
      (by rw [valueSize_metadata, h.current]; omega)
    refine ⟨⟨hready, ?_, ?_, Or.inr (Or.inl ?_)⟩, ?_⟩
    · rw [hhelper]
      exact h.limit_eq
    · rw [hhelper, hupdate, valueSize_metadata, h.current, hsum]
    · rw [hsum]
      exact hlt
    · simp [hputs]

end Counts

section Databases
variable {σ : Type} {H : RollingHelper σ} {s t : State σ} {w : Write}

/-- The bytes of the values in a database. -/
def valueBytes (db : Database) : ℕ :=
  (db.entries.map fun e => e.2.length).sum

/-- The open database of a file. -/
def current (fs : FileSystem) (f : RecordFile) : Option Database :=
  f.db.bind fun h => fs.database h.path

/-- A database that the file rolls to has no entry yet. -/
def RollsToEmpty (H : RollingHelper σ) (s : State σ) (w : Write) : Prop :=
  rolls H s w = true →
    (current (written H s w).1 (written H s w).2).map Database.entries = some []

instance (s : State σ) (w : Write) : Decidable (RollsToEmpty H s w) :=
  inferInstanceAs (Decidable (_ → _))

/-- The database that the value goes to has no entry with its key. -/
def PutsNewKey (H : RollingHelper σ) (s : State σ) (w : Write) : Prop :=
  ∀ db ∈ current (written H s w).1 (written H s w).2,
    ∀ e ∈ db.entries, Database.comparator db.legacy w.key.toBytes e.1 ≠ .eq

theorem current_step (hr : Ready s) (hs : Succeeds H s w) (hstep : step H s w = some t) :
    current t.fs t.file = (current (written H s w).1 (written H s w).2).map
      fun db => db.put w.key.toBytes w.value := by
  obtain ⟨t', ht', -, -, -, -, -, hfile, h, hdb, hfs⟩ := step_of_succeeds hr hs
  cases ht'.symm.trans hstep
  have hdb' : (written H s w).2.db = some h := hfile ▸ hdb
  rw [current, hdb, hfs, current, hdb', Option.bind_some, Option.bind_some,
    FileSystem.database_put, if_pos rfl]

/-- Whatever holds of an empty database and is kept by a put holds of the open one and of what was
put into it. -/
theorem exists_current_step {R : Database → List (RecordFileKey × Bytes) → Prop}
    (hr : Ready s) (hs : Succeeds H s w) (he : RollsToEmpty H s w)
    (hstep : step H s w = some t) (hnil : ∀ db, db.entries = [] → R db [])
    (hput : ∀ db ∈ current (written H s w).1 (written H s w).2, ∀ puts, R db puts →
      R (db.put w.key.toBytes w.value) (puts ++ [(w.key, w.value)]))
    (h : ∃ db, current s.fs s.file = some db ∧ R db s.puts) :
    ∃ db, current t.fs t.file = some db ∧ R db t.puts := by
  have hcurrent := current_step hr hs hstep
  obtain ⟨t', ht', -, -, hputs, -⟩ := step_of_succeeds hr hs
  cases ht'.symm.trans hstep
  by_cases hn : rolls H s w = true
  · rw [if_pos hn] at hputs
    obtain ⟨db, hdb, hempty⟩ := Option.map_eq_some_iff.mp (he hn)
    rw [hdb, Option.map_some] at hcurrent
    rw [hputs]
    exact ⟨_, hcurrent, hput db hdb [] (hnil db hempty)⟩
  · rw [if_neg hn] at hputs
    obtain ⟨db, hdb, hR⟩ := h
    have hdb' : current (written H s w).1 (written H s w).2 = some db := by
      unfold written
      rw [if_neg hn]
      exact hdb
    rw [hdb', Option.map_some] at hcurrent
    rw [hputs]
    exact ⟨_, hcurrent, hput db hdb' s.puts hR⟩

/-- Entries that were put into a database, of which later ones may have replaced earlier ones. -/
structure FromPuts (db : Database) (puts : List (RecordFileKey × Bytes)) : Prop where
  bytes_le : valueBytes db ≤ (puts.map fun e => e.2.length).sum
  length_le : db.entries.length ≤ puts.length
  ne_nil : puts ≠ [] → db.entries ≠ []

theorem fromPuts_nil {db : Database} (h : db.entries = []) : FromPuts db [] :=
  ⟨by simp [valueBytes, h], by simp [h], fun hne => absurd rfl hne⟩

theorem FromPuts.put {db : Database} {puts : List (RecordFileKey × Bytes)} (h : FromPuts db puts)
    (key : RecordFileKey) (value : Bytes) :
    FromPuts (db.put key.toBytes value) (puts ++ [(key, value)]) := by
  have hbytes := OrderedStore.sum_map_put_le (Database.comparator db.legacy) key.toBytes value
    db.entries fun e => e.2.length
  have hlength := OrderedStore.sum_map_put_le (Database.comparator db.legacy) key.toBytes value
    db.entries fun _ => 1
  refine ⟨?_, ?_, fun _ => OrderedStore.put_ne_nil _ _ _ _⟩
  · rw [ListSums.sum_map_concat]
    exact hbytes.trans (Nat.add_le_add_right h.bytes_le _)
  · have hlength : (db.put key.toBytes value).entries.length ≤ db.entries.length + 1 := by
      simpa [Database.put] using hlength
    rw [List.length_append]
    exact hlength.trans (Nat.add_le_add_right h.length_le 1)

/-- A new key takes the place of no other. -/
theorem valueBytes_put {db : Database} {key value : Bytes}
    (h : ∀ e ∈ db.entries, Database.comparator db.legacy key e.1 ≠ .eq) :
    valueBytes (db.put key value) = valueBytes db + value.length := by
  have hperm := (OrderedStore.perm_put (v := value) h).map fun e : Bytes × Bytes => e.2.length
  have hsum := hperm.sum_eq
  rw [List.map_cons, List.sum_cons, Nat.add_comm] at hsum
  exact hsum

end Databases

section Runs
variable {mb : UInt64} {s : State RollingBySize} {ws : List Write}

theorem limit_make (hlimit : mb.toNat * 1000000 < 2 ^ 64) :
    (RollingBySize.make mb).limitBytesize.toNat = mb.toNat * 1000000 := by
  change (mb * 1000000).toNat = _
  rw [UInt64.toNat_mul]
  exact Nat.mod_eq_of_lt hlimit

theorem sizeKept_of_init (hlimit : mb.toNat * 1000000 < 2 ^ 64)
    (hinit : (system rollingBySizeHelper).init s) (hmake : s.helper = .make mb) :
    SizeKept (mb.toNat * 1000000) s := by
  obtain ⟨hhelper, hdb, hputs, -⟩ := hinit
  refine ⟨⟨hhelper, hdb⟩, ?_, ?_, Or.inl hputs⟩
  · rw [hmake]
    exact limit_make hlimit
  · simp [hmake, RollingBySize.make, putBytes, hputs]

/-- Every write leaves something behind. -/
theorem puts_ne_nil {limit : ℕ} {t : State RollingBySize} (h : SizeKept limit s)
    (hmeet : (system rollingBySizeHelper).StepsMeet (Succeeds rollingBySizeHelper) s ws)
    (hne : ws ≠ []) (ht : (system rollingBySizeHelper).exec s ws = some t) : t.puts ≠ [] := by
  cases ws with
  | nil => exact absurd rfl hne
  | cons w ws =>
    obtain ⟨u, hu, ht⟩ := Option.bind_eq_some_iff.mp ht
    have hfirst := sizeKept_step h hmeet.1 hu
    have hlast := (hmeet.2 u hu).invariant (P := fun u => SizeKept limit u ∧ u.puts ≠ []) hfirst
      (fun u w v hkept hs hv => sizeKept_step hkept.1 hs hv) ht
    exact hlast.2

/-- What a run of writes says about the open database, if every database starts empty. -/
theorem exists_current_of_run {R : Database → List (RecordFileKey × Bytes) → Prop}
    {C : State RollingBySize → Write → Prop} {limit : ℕ} {t : State RollingBySize}
    (h : SizeKept limit s)
    (hmeet : (system rollingBySizeHelper).StepsMeet (Succeeds rollingBySizeHelper) s ws)
    (hempty : (system rollingBySizeHelper).StepsMeet (RollsToEmpty rollingBySizeHelper) s ws)
    (hC : (system rollingBySizeHelper).StepsMeet C s ws)
    (hnil : ∀ db, db.entries = [] → R db [])
    (hput : ∀ u w, C u w → ∀ db ∈ current (written rollingBySizeHelper u w).1
        (written rollingBySizeHelper u w).2, ∀ puts, R db puts →
      R (db.put w.key.toBytes w.value) (puts ++ [(w.key, w.value)]))
    (hstart : (current s.fs s.file).map Database.entries = some []) (hputs : s.puts = [])
    (ht : (system rollingBySizeHelper).exec s ws = some t) :
    ∃ db, current t.fs t.file = some db ∧ R db t.puts := by
  obtain ⟨db, hdb, hnone⟩ := Option.map_eq_some_iff.mp hstart
  have h0 : ∃ db, current s.fs s.file = some db ∧ R db s.puts :=
    ⟨db, hdb, hputs ▸ hnil db hnone⟩
  have hlast := ((hmeet.and hempty).and hC).invariant (P := fun u => SizeKept limit u ∧
      ∃ db, current u.fs u.file = some db ∧ R db u.puts) ⟨h, h0⟩
    (fun u w v hkept hc hv => ⟨(sizeKept_step hkept.1 hc.1.1 hv).1,
      exists_current_step hkept.1.ready hc.1.1 hc.1.2 hv hnil (hput u w hc.2) hkept.2⟩) ht
  exact hlast.2

/-- The bytes put into the open database since the file rolled to it decide about the next roll.
When databases start empty they bound what it holds, and when no key is put into it twice they are
what it holds. -/
theorem rolling_by_size_bounds (hlimit : mb.toNat * 1000000 < 2 ^ 64)
    (hinit : (system rollingBySizeHelper).init s) (hmake : s.helper = .make mb)
    (hmeet : (system rollingBySizeHelper).StepsMeet (Succeeds rollingBySizeHelper) s ws) :
    ∃ t, (system rollingBySizeHelper).exec s ws = some t ∧
      (∀ w, rolls rollingBySizeHelper t w = true ↔
        mb.toNat * 1000000 ≤ putBytes t + w.value.length) ∧
      t.helper.currentBytesize.toNat = putBytes t ∧
      (ws ≠ [] → putBytes t < mb.toNat * 1000000 ∨ t.puts.length = 1) ∧
      ((current s.fs s.file).map Database.entries = some [] →
        (system rollingBySizeHelper).StepsMeet (RollsToEmpty rollingBySizeHelper) s ws →
        ∃ db, current t.fs t.file = some db ∧
          (ws ≠ [] → valueBytes db < mb.toNat * 1000000 ∨ db.entries.length = 1) ∧
          ((system rollingBySizeHelper).StepsMeet (PutsNewKey rollingBySizeHelper) s ws →
            valueBytes db = putBytes t)) := by
  have h0 := sizeKept_of_init hlimit hinit hmake
  have hputs : s.puts = [] := hinit.2.2.1
  obtain ⟨t, ht⟩ := exec_of_succeeds h0.ready hmeet
  have hkept : SizeKept (mb.toNat * 1000000) t := hmeet.invariant h0
    (fun u w v hu hs hv => (sizeKept_step hu hs hv).1) ht
  have hbound (hne : ws ≠ []) : putBytes t < mb.toNat * 1000000 ∨ t.puts.length = 1 :=
    hkept.bound.resolve_left (puts_ne_nil h0 hmeet hne ht)
  refine ⟨t, ht, rolls_rollingBySize_iff hkept, hkept.current, hbound, fun hstart hempty => ?_⟩
  obtain ⟨db, hdb, hfrom⟩ := exists_current_of_run (C := fun _ _ => True) h0 hmeet hempty
    (stepsMeet_of_invariant (I := fun _ => True) (fun _ _ _ _ _ => trivial)
      (fun _ _ _ => trivial) trivial ws)
    (fun db => fromPuts_nil) (fun u w _ db _ puts h => h.put w.key w.value) hstart hputs ht
  refine ⟨db, hdb, fun hne => ?_, fun hnew => ?_⟩
  · rcases hbound hne with hlt | hone
    · exact Or.inl (hfrom.bytes_le.trans_lt hlt)
    · have hpos := List.length_pos_of_ne_nil (hfrom.ne_nil (puts_ne_nil h0 hmeet hne ht))
      have hle := hfrom.length_le
      exact Or.inr (by omega)
  · obtain ⟨db', hdb', hexact⟩ := exists_current_of_run
      (R := fun db puts => valueBytes db = (puts.map fun e => e.2.length).sum) h0 hmeet hempty hnew
      (fun db hnone => by simp [valueBytes, hnone])
      (fun u w hw db hmem puts h => by
        rw [valueBytes_put (hw db hmem), h, ListSums.sum_map_concat])
      hstart hputs ht
    cases hdb.symm.trans hdb'
    exact hexact

/-- Two values under the same key. -/
def sameKeyWrites : List Write :=
  [⟨⟨1, 0⟩, [65], 0, 0, RecordSession.noRoll, by decide⟩,
    ⟨⟨1, 0⟩, [66], 0, 0, RecordSession.noRoll, by decide⟩]

theorem rolling_by_size_bounds_sameKeyWrites :
    ∃ t, (system rollingBySizeHelper).exec (openedFile (.make 1) 0) sameKeyWrites = some t ∧
      t.helper.currentBytesize.toNat = putBytes t := by
  obtain ⟨t, ht, -, hcurrent, -⟩ := @rolling_by_size_bounds 1 (openedFile (.make 1) 0)
    sameKeyWrites (by decide) (init_openedFile _ _ _) rfl (by decide)
  exact ⟨t, ht, hcurrent⟩

/-- The second value replaces the first one, and both are counted. -/
theorem sameKeyWrites_counted_twice :
    ¬ ∀ (mb : UInt64) (s t : State RollingBySize) (ws : List Write),
      mb.toNat * 1000000 < 2 ^ 64 → (system rollingBySizeHelper).init s → s.helper = .make mb →
      (system rollingBySizeHelper).StepsMeet (Succeeds rollingBySizeHelper) s ws →
      (current s.fs s.file).map Database.entries = some [] →
      (system rollingBySizeHelper).StepsMeet (RollsToEmpty rollingBySizeHelper) s ws →
      (system rollingBySizeHelper).exec s ws = some t →
      (current t.fs t.file).map valueBytes = some t.helper.currentBytesize.toNat := by
  intro hall
  have hruns : ((system rollingBySizeHelper).exec (openedFile (.make 1) 0) sameKeyWrites).isSome =
      true := by decide
  exact absurd (hall 1 _ _ _ (by decide) (init_openedFile _ _ _) rfl (by decide) (by decide)
    (by decide) ((system rollingBySizeHelper).exec_after hruns)) (by decide)

end Runs
end CrisCore.RollingSession
