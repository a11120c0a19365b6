import CrisCore.RecordFileDecoding
import CrisCore.RecordKeyCodec

/-! What `Iterate` yields of the records that were written to one database. Writing always encodes
with `ToBytes`; reading decodes by the mode of the file. -/
namespace CrisCore

namespace RecordFileKey

/-- `FromBytesLegacy` never fails. -/
def legacyKey (bytes : Bytes) : RecordFileKey :=
  (fromBytesLegacy bytes).getD ⟨0, 0⟩

theorem compare_legacyKey (lhs rhs : Bytes) :
    compare (legacyKey lhs) (legacyKey rhs) = Database.comparator true lhs rhs := rfl

/-- The key that the legacy mode makes of the text of a key. -/
def reread (key : RecordFileKey) : RecordFileKey :=
  legacyKey key.toBytes

theorem yielded_legacy (entries : List (Bytes × Bytes)) :
    (RecordFileIterator.start entries true).yielded = entries.map (Prod.map legacyKey id) := by
  rw [RecordFileIterator.yielded_start, ← List.filterMap_eq_map]
  rfl

section Reread

theorem littleEndian_append (l m : Bytes) :
    littleEndian (l ++ m) = littleEndian l + 256 ^ l.length * littleEndian m := by
  induction l with
  | nil => simp [littleEndian]
  | cons b l ih =>
    simp only [littleEndian, List.cons_append, List.foldr_cons, List.length_cons] at ih ⊢
    rw [ih]
    ring

theorem littleEndian_lt (l : Bytes) : littleEndian l < 256 ^ l.length := by
  induction l with
  | nil => decide
  | cons b l ih =>
    have hb := b.toNat_lt
    simp only [littleEndian, List.foldr_cons, List.length_cons] at ih ⊢
    omega

theorem timestampNs_legacyKey {bytes : Bytes} (h : 8 ≤ bytes.length) :
    (legacyKey bytes).timestampNs = Int64.ofNat (littleEndian (bytes.take 8)) := by
  have htake : (bytes.take 16 ++ List.replicate (16 - bytes.length) 0).take 8 = bytes.take 8 := by
    rw [List.take_append_of_le_length (by simp [h]), List.take_take]
    rfl
  change (UInt64.ofNat (littleEndian (_ : Bytes))).toInt64 = _
  rw [htake, UInt64.toInt64_ofNat']

/-- The first eight bytes of a text: the letter and seven digits. -/
theorem take_toBytes (key : RecordFileKey) :
    let a := (max key.timestampNs.toInt 0).toNat / 10 ^ 13
    key.toBytes.take 8 = (bytesOf "T" ++ (FixedWidth.digits 10 4 (a / 10 ^ 3)).map digitByte) ++
      (FixedWidth.digits 10 3 (a % 10 ^ 3)).map digitByte := by
  intro a
  set n := (max key.timestampNs.toInt 0).toNat with hn
  have hlt : n < 10 ^ (7 + 13) := key.timestamp_lt_digits
  have ha : a < 10 ^ (4 + 3) := by
    rw [Nat.div_lt_iff_lt_mul (by decide)]
    exact hlt
  have hdigits : FixedWidth.digits 10 kMaxInt64Digits n =
      FixedWidth.digits 10 4 (a / 10 ^ 3) ++ FixedWidth.digits 10 3 (a % 10 ^ 3) ++
        FixedWidth.digits 10 13 (n % 10 ^ 13) := by
    have h7 : FixedWidth.digits 10 (7 + 13) n = _ := FixedWidth.digits_add hlt
    have h4 : FixedWidth.digits 10 (4 + 3) a = _ := FixedWidth.digits_add ha
    calc FixedWidth.digits 10 kMaxInt64Digits n
        = FixedWidth.digits 10 7 a ++ FixedWidth.digits 10 13 (n % 10 ^ 13) := h7
      _ = _ := by rw [h4]
  simp only [toBytes, paddedDecimal, ← hn, hdigits, List.map_append, ← List.append_assoc]
  simp only [List.append_assoc (_ ++ _ ++ List.map digitByte (FixedWidth.digits 10 3 _))]
  apply List.take_left'
  simp only [List.length_append, List.length_map, FixedWidth.length_digits]
  rfl

theorem toNat_digitByte {d : ℕ} (h : d < 10) : (digitByte d).toNat = 48 + d := by
  rw [digitByte, UInt8.toNat_ofNat_of_lt']
  change 48 + d < 256
  omega

/-- The high bytes of the number that is read, from the last three of the digits. -/
theorem littleEndian_digits (a : ℕ) :
    littleEndian ((FixedWidth.digits 10 3 (a % 10 ^ 3)).map digitByte) =
      (48 + a / 100 % 10) + 256 * ((48 + a / 10 % 10) + 256 * (48 + a % 10)) := by
  have h2 : a % 10 ^ 3 / 10 ^ 2 = a / 100 % 10 := by omega
  have h1 : a % 10 ^ 3 % 10 ^ 2 / 10 ^ 1 = a / 10 % 10 := by omega
  have h0 : a % 10 ^ 3 % 10 ^ 2 % 10 ^ 1 / 10 ^ 0 = a % 10 := by omega
  have hlt (n : ℕ) : n % 10 < 10 := Nat.mod_lt n (by decide)
  simp only [FixedWidth.digits, List.map_cons, List.map_nil, littleEndian, List.foldr_cons,
    List.foldr_nil, h2, h1, h0, toNat_digitByte (hlt _), Nat.mul_zero, Nat.add_zero]

/-- Digits of a timestamp that the legacy mode could read back: there are none. -/
theorem no_digits_read_back : ∀ x < 10, ∀ y < 10, ∀ z < 10, ∀ j < 2,
    let a := (2 ^ 56 * (48 + x) + 2 ^ 48 * (48 + y) + 2 ^ 40 * (48 + z)) / 10 ^ 13 + j
    ¬ (a % 10 = x ∧ a / 10 % 10 = y ∧ a / 100 % 10 = z) := by
  decide +kernel

/-- The legacy mode reads no written key back as it was. -/
theorem reread_ne (key : RecordFileKey) : key.reread ≠ key := by
  intro h
  have hlen : 8 ≤ key.toBytes.length := by
    simp only [toBytes, List.length_append, length_paddedDecimal, kMaxInt64Digits]
    omega
  have hts : Int64.ofNat (littleEndian (key.toBytes.take 8)) = key.timestampNs := by
    rw [← timestampNs_legacyKey hlen]
    exact congrArg timestampNs h
  set a := (max key.timestampNs.toInt 0).toNat / 10 ^ 13 with ha
  set low := bytesOf "T" ++ (FixedWidth.digits 10 4 (a / 10 ^ 3)).map digitByte with hlow
  have hlen5 : low.length = 5 := by
    rw [hlow, List.length_append, List.length_map, FixedWidth.length_digits]
    rfl
  have hlow5 : littleEndian low < 256 ^ 5 := hlen5 ▸ littleEndian_lt low
  have hread : littleEndian (key.toBytes.take 8) = littleEndian low + 256 ^ 5 *
      ((48 + a / 100 % 10) + 256 * ((48 + a / 10 % 10) + 256 * (48 + a % 10))) := by
    rw [take_toBytes key, littleEndian_append, littleEndian_digits, hlen5]
  have hn : (max key.timestampNs.toInt 0).toNat = littleEndian (key.toBytes.take 8) := by
    rw [← hts, Int64.toInt_ofNat_of_lt (by omega)]
    omega
  rw [hn, hread] at ha
  -- the low bytes move the leading seven digits by one at most
  obtain ⟨j, hj, haj⟩ : ∃ j < 2, a = (2 ^ 56 * (48 + a % 10) + 2 ^ 48 * (48 + a / 10 % 10) +
      2 ^ 40 * (48 + a / 100 % 10)) / 10 ^ 13 + j := by
    refine ⟨a - (2 ^ 56 * (48 + a % 10) + 2 ^ 48 * (48 + a / 10 % 10) +
      2 ^ 40 * (48 + a / 100 % 10)) / 10 ^ 13, ?_, ?_⟩ <;> omega
  have hlt (n : ℕ) : n % 10 < 10 := Nat.mod_lt n (by decide)
  apply no_digits_read_back _ (hlt a) _ (hlt (a / 10)) _ (hlt (a / 100)) j hj
  rw [← haj]
  exact ⟨rfl, rfl, rfl⟩

end Reread

end RecordFileKey

namespace RecordSession
open RecordFile RecordFileKey

/-- A write that goes into the open database: it does not roll, or its roll fails. -/
def WritesIntoOpenDb (s : State) : Op → Prop
  | .write _ _ answers => s.file.rollingHelper = true → answers.needToRoll = true →
      (s.file.roll s.fs answers).1 = false
  | _ => False

instance (s : State) (op : Op) : Decidable (WritesIntoOpenDb s op) := by
  unfold WritesIntoOpenDb
  cases op <;> infer_instance

/-- An open file whose database holds what was accepted, and nothing else. -/
structure HoldsAccepted (s : State) (h : DbHandle) : Prop where
  db : s.file.db = some h
  legacy : h.legacy = true → s.file.legacy = true
  database : s.fs.database h.path = some ⟨h.legacy,
    OrderedStore.ofPuts (Database.comparator h.legacy) (s.accepted.map (Prod.map toBytes id))⟩

/-- `Iterate` yields just the accepted records, in increasing order of their keys. -/
def ReadsBack (s : State) (h : DbHandle) : Prop :=
  (s.file.iterate s.fs h).yielded.Perm s.accepted ∧
    (s.file.iterate s.fs h).yielded.Pairwise fun e f => RecordFileKey.compare e.1 f.1 = .lt

/-- A roll that fails changes no database, and of the file at most the mode. -/
theorem roll_fails {fs : FileSystem} {f : RecordFile} {answers : WriteAnswers}
    (h : (f.roll fs answers).1 = false) :
    (f.roll fs answers).2.2.db = f.db ∧
      (f.legacy = true → (f.roll fs answers).2.2.legacy = true) ∧
      ∀ p, (f.roll fs answers).2.1.database p = fs.database p := by
  rcases ho : f.openDBAt fs (f.newFilepath answers.newRecordDirName) answers.opens with
    ⟨_ | d, fs', f'⟩
  · obtain ⟨hf, -, hdb, -⟩ := openDBAt_none ho
    have hroll : f.roll fs answers = (false, fs', f') := by
      simp only [roll, ho]
    rw [hroll]
    rcases hf with rfl | rfl
    · exact ⟨rfl, id, hdb⟩
    · exact ⟨rfl, fun _ => rfl, hdb⟩
  · simp [roll, ho] at h

variable {s t : State} {h : DbHandle}

/-- A file that `OpenDB` opened on an empty database is where such writes start. -/
theorem holdsAccepted_openDB {renames : Bool} {answers : OpenAnswers} (hnil : s.accepted = [])
    (hst : system.step s (.openDB renames answers) = some t)
    (hok : (s.file.openDB s.fs renames answers).1 = .ok true) (hdb : t.file.db = some h)
    (hempty : ∀ db, t.fs.database h.path = some db → db.entries = []) : HoldsAccepted t h := by
  cases hst
  simp only [openDB] at hok hdb hempty ⊢
  split at hok
  case isTrue => cases hok
  case isFalse hc =>
    rw [if_neg hc] at hdb hempty
    cases hco : s.file.checkoutDB s.fs renames with
    | error e =>
      rw [hco] at hok
      cases hok
    | ok fs =>
      rcases ho : s.file.openDBAt fs s.file.filepath answers with ⟨_ | d, fs', f'⟩
      · simp only [hco, ho] at hok
        cases hok
      · simp only [hco, ho] at hdb hempty ⊢
        cases hdb
        -- the link that is made beside it is not the database
        obtain ⟨-, -, -, -, hlegacy, -, hfound⟩ := openDBAt_some ho
        have hnode (p : Path) : (makeLink fs' f' answers.symlink).database p = fs'.database p :=
          FileSystem.database_of_node (makeLink_node _ p)
        have hdatabase : ∃ db, fs'.database h.path = some db ∧ db.legacy = h.legacy := by
          rcases hfound with ⟨db, hd, hleg, hn⟩ | ⟨-, hd⟩
          · exact ⟨db, (FileSystem.database_of_node hn).trans hd, hleg⟩
          · exact ⟨_, hd, rfl⟩
        obtain ⟨⟨leg, es⟩, hd, rfl⟩ := hdatabase
        simp only [if_neg hc, hco, ho] at *
        refine ⟨rfl, hlegacy, ?_⟩
        obtain rfl : es = [] := hempty _ ((hnode _).trans hd)
        rw [hnode, hd, hnil]
        rfl

theorem HoldsAccepted.put (hs : HoldsAccepted s h) (key : RecordFileKey) (value : Bytes) :
    HoldsAccepted
      ⟨s.fs.put h.path key.toBytes value, s.file, s.accepted ++ [(key, value)]⟩ h := by
  refine ⟨hs.db, hs.legacy, ?_⟩
  simp only [FileSystem.database_put, if_true, hs.database, Option.map_some, List.map_append,
    List.map_singleton, OrderedStore.ofPuts_append]
  rfl

theorem HoldsAccepted.write (hs : HoldsAccepted s h) {key : RecordFileKey} {value : Bytes}
    {answers : WriteAnswers} (hinto : WritesIntoOpenDb s (.write key value answers))
    (hst : system.step s (.write key value answers) = some t) : HoldsAccepted t h := by
  obtain ⟨result, hw, rfl⟩ := Option.map_eq_some_iff.mp hst
  simp only [RecordFile.write] at hw
  set rolled := if (s.file.rollingHelper && answers.needToRoll) = true then
    (s.file.roll s.fs answers).2 else (s.fs, s.file) with hrolled
  -- the roll leaves the database where it is
  have hkeep : rolled.2.db = s.file.db ∧ (s.file.legacy = true → rolled.2.legacy = true) ∧
      ∀ p, rolled.1.database p = s.fs.database p := by
    by_cases hr : (s.file.rollingHelper && answers.needToRoll) = true
    · rw [if_pos hr] at hrolled
      rw [Bool.and_eq_true] at hr
      rw [hrolled]
      exact roll_fails (hinto hr.1 hr.2)
    · rw [if_neg hr] at hrolled
      rw [hrolled]
      exact ⟨rfl, id, fun _ => rfl⟩
  obtain ⟨hdb, hlegacy, hdatabase⟩ := hkeep
  rw [hdb, hs.db] at hw
  cases hw
  have hrolled : HoldsAccepted ⟨rolled.1, rolled.2, s.accepted⟩ h :=
    ⟨hdb.trans hs.db, fun hl => hlegacy (hs.legacy hl), (hdatabase h.path).trans hs.database⟩
  -- a put that fails leaves nothing and is not accepted
  cases answers.put with
  | false => exact hrolled
  | true => exact hrolled.put key value

theorem HoldsAccepted.exec (hs : HoldsAccepted s h) {ops : List Op}
    (hinto : system.StepsMeet WritesIntoOpenDb s ops) (hrun : system.exec s ops = some t) :
    HoldsAccepted t h := by
  induction ops generalizing s with
  | nil =>
    cases hrun
    exact hs
  | cons op ops ih =>
    obtain ⟨u, hu, hrest⟩ := Option.bind_eq_some_iff.mp hrun
    cases op with
    | write key value answers => exact ih (hs.write hinto.1 hu) (hinto.2 u hu) hrest
    | openDB renames answers => exact hinto.1.elim
    | closeDB renames => exact hinto.1.elim

/-- What each mode makes of the accepted records: a default database keeps them under the order of
their keys, a legacy one under that of the keys read again, and a default one that is read in the
legacy mode yields other keys in the old order. -/
theorem HoldsAccepted.yielded (hs : HoldsAccepted s h) :
    (s.file.iterate s.fs h).yielded =
      if s.file.legacy = false then
        (OrderedStore.ofPuts RecordFileKey.compare s.accepted).map (Prod.map clamped id)
      else if h.legacy = true then
        OrderedStore.ofPuts RecordFileKey.compare (s.accepted.map (Prod.map reread id))
      else (OrderedStore.ofPuts RecordFileKey.compare s.accepted).map (Prod.map reread id) := by
  have hentries : entries s.fs h = OrderedStore.ofPuts (Database.comparator h.legacy)
      (s.accepted.map (Prod.map toBytes id)) := by
    simp only [entries, hs.database, Option.map_some, Option.getD_some]
  have hdefault : OrderedStore.ofPuts (Database.comparator false)
      (s.accepted.map (Prod.map toBytes id)) = _ := stored_eq s.accepted
  rw [iterate, hentries]
  cases hl : s.file.legacy with
  | false =>
    have hh : h.legacy = false := by
      cases hh : h.legacy with
      | false => rfl
      | true => rw [hs.legacy hh] at hl; cases hl
    rw [hh, hdefault, yielded_map_toBytes]
    rfl
  | true =>
    rw [yielded_legacy]
    cases hh : h.legacy with
    | false =>
      rw [hdefault, List.map_map]
      rfl
    | true =>
      rw [OrderedStore.map_ofPuts compare_legacyKey, List.map_map]
      rfl

theorem compare_ne_eq {a b : RecordFileKey} (ha : 0 ≤ a.timestampNs.toInt)
    (hb : 0 ≤ b.timestampNs.toInt) (hne : a ≠ b) : RecordFileKey.compare a b ≠ .eq := by
  intro heq
  rw [compare_eq_then, Ordering.then_eq_eq, Nat.compare_eq_eq, Nat.compare_eq_eq] at heq
  apply hne
  obtain ⟨timestamp, count⟩ := a
  obtain ⟨timestamp', count'⟩ := b
  have hts : timestamp = timestamp' := Int64.toInt_inj.mp (by simp only at *; omega)
  have hct : count = count' := UInt64.toNat_inj.mp heq.2
  rw [hts, hct]

section Exactly
variable {l : List (RecordFileKey × Bytes)} (hnn : ∀ e ∈ l, 0 ≤ e.1.timestampNs.toInt)
  (hne : l.Pairwise fun e f => e.1 ≠ f.1)
include hnn hne

theorem pairwise_compare_ne_eq :
    l.Pairwise fun e f => RecordFileKey.compare f.1 e.1 ≠ .eq :=
  hne.imp_of_mem fun he hf hef => compare_ne_eq (hnn _ hf) (hnn _ he) hef.symm

/-- Keys that the legacy mode maps to one another do not collide there. -/
theorem reread_perm_iff :
    (OrderedStore.ofPuts RecordFileKey.compare (l.map (Prod.map reread id))).Perm l ↔
      (l.map (Prod.map reread id)).Perm l := by
  constructor
  · intro hperm
    have hlen : (l.map (Prod.map reread id)).length ≤
        (OrderedStore.ofPuts RecordFileKey.compare (l.map (Prod.map reread id))).length := by
      rw [hperm.length_eq, List.length_map]
    exact (OrderedStore.perm_of_length_le_ofPuts hlen).symm.trans hperm
  · intro hperm
    have hdistinct : (l.map (Prod.map reread id)).Pairwise fun e f => e.1 ≠ f.1 :=
      (hperm.pairwise_iff Ne.symm).mpr hne
    have hpos : ∀ e ∈ l.map (Prod.map reread id), 0 ≤ e.1.timestampNs.toInt :=
      fun e he => hnn e (hperm.mem_iff.mp he)
    exact (OrderedStore.perm_ofPuts (pairwise_compare_ne_eq hpos hdistinct)).trans hperm

end Exactly

theorem clamped_of_nonneg {key : RecordFileKey} (h : 0 ≤ key.timestampNs.toInt) :
    key.clamped = key :=
  Option.some.inj ((fromBytes_toBytes_clamped key).symm.trans (fromBytes_toBytes h))

/-- Two lists of records in increasing order of their keys are the same if they have the same
records. -/
theorem eq_of_perm_of_increasing {l m : List (RecordFileKey × Bytes)} (hperm : l.Perm m)
    (hl : l.Pairwise fun e f => RecordFileKey.compare e.1 f.1 = .lt)
    (hm : m.Pairwise fun e f => RecordFileKey.compare e.1 f.1 = .lt) : l = m := by
  refine hperm.eq_of_pairwise (fun e f _ _ hef hfe => ?_) hl hm
  have hgt : RecordFileKey.compare e.1 f.1 = .gt := Std.OrientedCmp.gt_iff_lt.mpr hfe
  rw [hef] at hgt
  cases hgt

/-- After any writes into one database `Iterate` yields just the accepted records, in order, if and
only if the file is read in the default mode, or its database is a legacy one and reading the keys
again only permutes the records, or nothing was accepted. -/
theorem read_back_iff {ops : List Op} (hs : HoldsAccepted s h)
    (hinto : system.StepsMeet WritesIntoOpenDb s ops) (hrun : system.exec s ops = some t)
    (hnn : ∀ e ∈ t.accepted, 0 ≤ e.1.timestampNs.toInt)
    (hne : t.accepted.Pairwise fun e f => e.1 ≠ f.1) :
    ReadsBack t h ↔ t.file.legacy = false ∨
      (h.legacy = true ∧ (t.accepted.map (Prod.map reread id)).Perm t.accepted) ∨
      t.accepted = [] := by
  have ht := hs.exec hinto hrun
  set kept := OrderedStore.ofPuts RecordFileKey.compare t.accepted with hkept
  have hall : kept.Perm t.accepted := OrderedStore.perm_ofPuts (pairwise_compare_ne_eq hnn hne)
  have hsorted : OrderedStore.Sorted RecordFileKey.compare kept := OrderedStore.sorted_ofPuts _
  rw [ReadsBack, ht.yielded, ← hkept]
  cases hl : t.file.legacy with
  | false =>
    -- no key is clamped
    have hclamped : kept.map (Prod.map clamped id) = kept := by
      refine (List.map_congr_left fun e he => ?_).trans (List.map_id kept)
      rw [Prod.map, clamped_of_nonneg (hnn e (hall.mem_iff.mp he))]
      rfl
    rw [if_pos rfl, hclamped]
    exact iff_of_true ⟨hall, hsorted⟩ (Or.inl rfl)
  | true =>
    rw [if_neg (by decide)]
    cases hh : h.legacy with
    | true =>
      -- the order is that of the keys read again in any case
      rw [if_pos rfl, reread_perm_iff hnn hne]
      constructor
      · exact fun hread => Or.inr (Or.inl ⟨rfl, hread.1⟩)
      · rintro (hfalse | ⟨-, hperm⟩ | hnil)
        · cases hfalse
        · exact ⟨hperm, OrderedStore.sorted_ofPuts _⟩
        · rw [hnil]
          exact ⟨List.Perm.refl _, List.Pairwise.nil⟩
    | false =>
      rw [if_neg (by decide)]
      constructor
      · rintro ⟨hperm, hincreasing⟩
        -- the keys read again come in the order of the keys written, so each is its own
        have hsame : kept.map (Prod.map reread id) = kept :=
          eq_of_perm_of_increasing (hperm.trans hall.symm) hincreasing hsorted
        refine Or.inr (Or.inr ?_)
        cases hk : kept with
        | nil =>
          rw [hk] at hall
          exact hall.nil_eq.symm
        | cons e rest =>
          rw [hk, List.map_cons] at hsame
          exact absurd (congrArg Prod.fst (List.cons.inj hsame).1) (reread_ne e.1)
      · rintro (hfalse | ⟨hfalse, -⟩ | hnil)
        · cases hfalse
        · cases hfalse
        · rw [hkept, hnil]
          exact ⟨List.Perm.refl _, List.Pairwise.nil⟩

section Sample

def opened (s : State) : State :=
  system.after s [.openDB true proceeding]

def twoWrites : List Op :=
  [.write ⟨1, 0⟩ [65] noRoll, .write ⟨2, 0⟩ [66] noRoll]

theorem read_back_iff_twoWrites :
    ReadsBack (system.after (opened (unopenedFile "a.ldb.d")) twoWrites)
      ⟨⟨["records"], "a.ldb.d.saving"⟩, false⟩ := by
  have hs : HoldsAccepted (opened (unopenedFile "a.ldb.d"))
      ⟨⟨["records"], "a.ldb.d.saving"⟩, false⟩ :=
    holdsAccepted_openDB rfl rfl (by decide) (by decide) fun db hdb => by
      rw [show (opened (unopenedFile "a.ldb.d")).fs.database _ = some ⟨false, []⟩ by decide] at hdb
      cases hdb
      rfl
  have hrun : system.exec (opened (unopenedFile "a.ldb.d")) twoWrites =
      some (system.after (opened (unopenedFile "a.ldb.d")) twoWrites) :=
    system.exec_after (by decide)
  exact (read_back_iff hs (by decide) hrun (by decide) (by decide)).mpr (Or.inl (by decide))

/-- A record file on a disk where its database is an empty one of the legacy format. -/
def legacyFile : State :=
  { unopenedFile "a.ldb.d" with
    fs := emptyDisk.set ⟨["records"], "a.ldb.d"⟩ (.dir ⟨some ⟨true, []⟩, []⟩) }

/-- In a legacy database the first sixteen bytes of the two texts are the same, so the second record
replaces the first. -/
theorem legacy_writes_not_read_back :
    ¬ ∀ s t h ops, HoldsAccepted s h → s.accepted = [] →
      system.StepsMeet WritesIntoOpenDb s ops → system.exec s ops = some t →
      (∀ e ∈ t.accepted, 0 ≤ e.1.timestampNs.toInt) →
      (t.accepted.Pairwise fun e f => e.1 ≠ f.1) → ReadsBack t h := by
  intro hall
  have hs : HoldsAccepted (opened legacyFile) ⟨⟨["records"], "a.ldb.d.saving"⟩, true⟩ :=
    holdsAccepted_openDB rfl rfl (by decide) (by decide) fun db hdb => by
      rw [show (opened legacyFile).fs.database _ = some ⟨true, []⟩ by decide] at hdb
      cases hdb
      rfl
  have hread := hall _ _ _ twoWrites hs (by decide) (by decide) (system.exec_after (by decide))
    (by decide) (by decide)
  exact absurd hread.1.length_eq (by decide +kernel)

end Sample

end RecordSession
end CrisCore
