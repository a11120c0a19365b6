import CrisCore.ReplayOrder
import Mathlib.Data.Nat.Digits.Defs
import Mathlib.Data.Nat.Log
import Mathlib.Data.Prod.Lex

/-! The text of a record key: which byte strings are one and what they stand for, and that keys,
their texts and the readers in the heap of the replayer have one order. -/
namespace CrisCore.RecordFileKey

/-- One or more decimal digits with the value `n`, leading zeros allowed. -/
structure Numeral (digits : Bytes) (n : ℕ) : Prop where
  nonempty : digits ≠ []
  all_isDigit : ∀ c ∈ digits, isDigit c = true
  value : Nat.ofDigits 10 (digits.map digitVal).reverse = n

/-- The format of a key, with nothing before or after it. -/
def KeyText (bytes : Bytes) (timestamp count : ℕ) : Prop :=
  ∃ ts cs, bytes = bytesOf "T" ++ (ts ++ (bytesOf "ns" ++ cs)) ∧
    Numeral ts timestamp ∧ Numeral cs count

/-- The padding is as wide as the largest count. -/
theorem clog_eq_kMaxInt64Digits : Nat.clog 10 (2 ^ 64 - 1) = kMaxInt64Digits := by
  apply le_antisymm
  · exact Nat.clog_le_of_le_pow (by decide)
  · exact (Nat.lt_clog_iff_pow_lt (by decide)).mpr (by decide)

theorem isPrefixOf?_eq_some {p l rest : Bytes} (h : p.isPrefixOf? l = some rest) :
    l = p ++ rest := by
  induction p generalizing l with
  | nil => exact Option.some.inj h
  | cons b p ih =>
    cases l with
    | nil => cases h
    | cons c l =>
      simp only [List.isPrefixOf?] at h
      split at h
      case isTrue hbc =>
        rw [beq_iff_eq.mp hbc, ih h]
        rfl
      case isFalse => cases h

section Numerals
variable {bound n : ℕ} {ds : Bytes}

theorem readDecimal_eq_some :
    readDecimal bound ds = some n ↔ Nat.ofDigits 10 (ds.map digitVal).reverse = n ∧ n < bound := by
  simp only [readDecimal, FixedWidth.readDigits_eq_ofDigits]
  constructor
  · intro h
    split at h
    case isTrue hb =>
      have hn := Option.some.inj h
      exact ⟨hn, hn ▸ hb⟩
    case isFalse => cases h
  · rintro ⟨hn, hb⟩
    rw [hn, if_pos hb]

theorem numeral_paddedDecimal (h : n < 10 ^ kMaxInt64Digits) : Numeral (paddedDecimal n) n := by
  have hlen := length_paddedDecimal n
  refine ⟨fun hnil => ?_, all_isDigit_paddedDecimal h, ?_⟩
  · rw [hnil] at hlen
    cases hlen
  · exact (readDecimal_eq_some.mp (readDecimal_paddedDecimal h (Nat.lt_succ_self n))).1

end Numerals

theorem keyText_toBytes (key : RecordFileKey) :
    KeyText key.toBytes (max key.timestampNs.toInt 0).toNat key.count.toNat := by
  refine ⟨_, _, ?_, numeral_paddedDecimal key.timestamp_lt_digits,
    numeral_paddedDecimal key.count_lt_digits⟩
  simp only [toBytes, List.append_assoc]

section Decoding
variable {bytes : Bytes} {key : RecordFileKey} {t c : ℕ}

/-- What the decoder accepts is a key text, and the result has its two values. -/
theorem keyText_of_fromBytes (h : fromBytes bytes = some key) :
    ∃ t c, KeyText bytes t c ∧ t < 2 ^ 63 ∧ c < 2 ^ 64 ∧
      key = ⟨Int64.ofNat t, UInt64.ofNat c⟩ := by
  simp only [fromBytes, Option.bind_eq_bind, Option.bind_eq_some_iff] at h
  obtain ⟨rest, hrest, cs, hcs, h⟩ := h
  split at h
  case isTrue => cases h
  case isFalse hn =>
    simp only [not_or, not_not] at hn
    obtain ⟨hts, hne, hall⟩ := hn
    simp only [Option.bind_eq_some_iff] at h
    obtain ⟨t, ht, c, hc, hkey⟩ := h
    obtain ⟨htv, htb⟩ := readDecimal_eq_some.mp ht
    obtain ⟨hcv, hcb⟩ := readDecimal_eq_some.mp hc
    have hsplit : rest = rest.takeWhile isDigit ++ (bytesOf "ns" ++ cs) := by
      rw [← isPrefixOf?_eq_some hcs, List.takeWhile_append_dropWhile]
    refine ⟨t, c, ⟨rest.takeWhile isDigit, cs, ?_, ⟨hts, ?_, htv⟩, ⟨hne, ?_, hcv⟩⟩, htb, hcb,
      (Option.some.inj hkey).symm⟩
    · rw [← hsplit]
      exact isPrefixOf?_eq_some hrest
    · exact fun d hd => List.mem_takeWhile_imp hd
    · exact List.all_eq_true.mp hall

theorem fromBytes_of_keyText (h : KeyText bytes t c) (ht : t < 2 ^ 63) (hc : c < 2 ^ 64) :
    fromBytes bytes = some ⟨Int64.ofNat t, UInt64.ofNat c⟩ := by
  obtain ⟨ts, cs, rfl, hts, hcs⟩ := h
  -- the digits of the timestamp end at the `n`
  have htake : (ts ++ (bytesOf "ns" ++ cs)).takeWhile isDigit = ts := by
    rw [List.takeWhile_append_of_pos hts.all_isDigit]
    exact List.append_nil ts
  have hdrop : (ts ++ (bytesOf "ns" ++ cs)).dropWhile isDigit = bytesOf "ns" ++ cs := by
    rw [List.dropWhile_append_of_pos hts.all_isDigit]
    rfl
  have htv := readDecimal_eq_some.mpr ⟨hts.value, ht⟩
  have hcv := readDecimal_eq_some.mpr ⟨hcs.value, hc⟩
  simp only [fromBytes, isPrefixOf?_append, Option.bind_eq_bind, Option.bind_some, htake, hdrop]
  rw [if_neg (by simp [hts.nonempty, hcs.nonempty, List.all_eq_true.mpr hcs.all_isDigit]), htv, hcv]
  rfl

/-- A text is the text of one pair of numbers only. -/
theorem KeyText.unique {t' c' : ℕ} (h : KeyText bytes t c) (h' : KeyText bytes t' c') :
    t = t' ∧ c = c' := by
  obtain ⟨ts, cs, rfl, hts, hcs⟩ := h
  obtain ⟨ts', cs', heq, hts', hcs'⟩ := h'
  have htake {l m : Bytes} (hl : ∀ d ∈ l, isDigit d = true) :
      (l ++ (bytesOf "ns" ++ m)).takeWhile isDigit = l := by
    rw [List.takeWhile_append_of_pos hl]
    exact List.append_nil l
  have hrest := List.append_cancel_left heq
  have hsame : ts = ts' := by
    rw [← htake (m := cs) hts.all_isDigit, hrest, htake hts'.all_isDigit]
  subst hsame
  have hcount := List.append_cancel_left (List.append_cancel_left hrest)
  subst hcount
  exact ⟨hts.value.symm.trans hts'.value, hcs.value.symm.trans hcs'.value⟩

theorem toInt_toNat_of_lt (ht : t < 2 ^ 63) (hc : c < 2 ^ 64) :
    (⟨Int64.ofNat t, UInt64.ofNat c⟩ : RecordFileKey).timestampNs.toInt = t ∧
      (⟨Int64.ofNat t, UInt64.ofNat c⟩ : RecordFileKey).count.toNat = c :=
  ⟨Int64.toInt_ofNat_of_lt ht, UInt64.toNat_ofNat_of_lt hc⟩

theorem fromBytes_eq_some_iff : fromBytes bytes = some key ↔
    ∃ t c, KeyText bytes t c ∧ t ≤ 2 ^ 63 - 1 ∧ c ≤ 2 ^ 64 - 1 ∧
      key.timestampNs.toInt = t ∧ key.count.toNat = c := by
  constructor
  · intro h
    obtain ⟨t, c, htext, ht, hc, rfl⟩ := keyText_of_fromBytes h
    exact ⟨t, c, htext, by omega, by omega, toInt_toNat_of_lt ht hc⟩
  · rintro ⟨t, c, htext, ht, hc, htk, hck⟩
    have ht : t < 2 ^ 63 := by omega
    have hc : c < 2 ^ 64 := by omega
    obtain ⟨hti, hcn⟩ := toInt_toNat_of_lt ht hc
    rw [fromBytes_of_keyText htext ht hc, Option.some.injEq]
    obtain ⟨timestamp, count⟩ := key
    have h1 : Int64.ofNat t = timestamp := Int64.toInt_inj.mp (hti.trans htk.symm)
    have h2 : UInt64.ofNat c = count := UInt64.toNat_inj.mp (hcn.trans hck.symm)
    rw [h1, h2]

end Decoding

/-- A negative timestamp is read back as zero. -/
def clamped (key : RecordFileKey) : RecordFileKey :=
  ⟨Int64.ofNat (max key.timestampNs.toInt 0).toNat, key.count⟩

theorem clamped_timestampNs (key : RecordFileKey) :
    key.clamped.timestampNs.toInt = max key.timestampNs.toInt 0 := by
  have h := Int64.toInt_ofNat_of_lt key.timestamp_lt
  rw [clamped, h]
  omega

theorem toBytes_clamped (key : RecordFileKey) : key.clamped.toBytes = key.toBytes := by
  simp only [toBytes, clamped_timestampNs, max_eq_left (le_max_right _ _)]
  rfl

theorem compare_clamped (lhs rhs : RecordFileKey) :
    compare lhs.clamped rhs.clamped = compare lhs rhs := by
  simp only [compare, toBytes_clamped]

/-- The decoder takes back what the encoder writes, negative timestamps as zero; on texts of keys the
encoder takes back the decoder; and the decoder accepts the key texts whose numbers fit, with just
their values. -/
theorem key_codec :
    (∀ key : RecordFileKey, ∃ key', fromBytes key.toBytes = some key' ∧
      key'.timestampNs.toInt = max key.timestampNs.toInt 0 ∧ key'.count = key.count) ∧
    (∀ bytes ∈ Set.range toBytes, ∃ key, fromBytes bytes = some key ∧ key.toBytes = bytes) ∧
    (∀ bytes, (fromBytes bytes).isSome = true ↔
      ∃ t c, KeyText bytes t c ∧ t ≤ 2 ^ 63 - 1 ∧ c ≤ 2 ^ 64 - 1) ∧
    ∀ bytes key t c, fromBytes bytes = some key → KeyText bytes t c →
      key.timestampNs.toInt = t ∧ key.count.toNat = c := by
  refine ⟨fun key => ?_, ?_, fun bytes => ?_, fun bytes key t c h htext => ?_⟩
  · exact ⟨key.clamped, fromBytes_toBytes_clamped key, clamped_timestampNs key, rfl⟩
  · rintro bytes ⟨key, rfl⟩
    exact ⟨key.clamped, fromBytes_toBytes_clamped key, toBytes_clamped key⟩
  · rw [Option.isSome_iff_exists]
    constructor
    · rintro ⟨key, hkey⟩
      obtain ⟨t, c, htext, ht, hc, -⟩ := fromBytes_eq_some_iff.mp hkey
      exact ⟨t, c, htext, ht, hc⟩
    · rintro ⟨t, c, htext, ht, hc⟩
      exact ⟨_, fromBytes_of_keyText htext (by omega) (by omega)⟩
  · obtain ⟨t', c', htext', -, -, htk, hck⟩ := fromBytes_eq_some_iff.mp h
    obtain ⟨rfl, rfl⟩ := htext.unique htext'
    exact ⟨htk, hck⟩

/-- The numbers that order the keys, the time first. -/
def rank (key : RecordFileKey) : ℤ ×ₗ ℕ :=
  toLex (max key.timestampNs.toInt 0, key.count.toNat)

section Rank
variable (lhs rhs : RecordFileKey)

theorem rank_clamped (key : RecordFileKey) : key.clamped.rank = key.rank := by
  rw [rank, clamped_timestampNs, max_eq_left (le_max_right _ _)]
  rfl

theorem rank_lt_iff : lhs.rank < rhs.rank ↔
    (max lhs.timestampNs.toInt 0).toNat < (max rhs.timestampNs.toInt 0).toNat ∨
      ((max lhs.timestampNs.toInt 0).toNat = (max rhs.timestampNs.toInt 0).toNat ∧
        lhs.count.toNat < rhs.count.toNat) := by
  rw [rank, rank, Prod.Lex.toLex_lt_toLex]
  simp only
  omega

theorem compare_eq_gt_iff_rank : compare lhs rhs = .gt ↔ rhs.rank < lhs.rank := by
  rw [compare_eq_gt_iff, rank_lt_iff]

theorem compare_eq_lt_iff_rank : compare lhs rhs = .lt ↔ lhs.rank < rhs.rank := by
  rw [← compare_swap rhs lhs, Ordering.swap_eq_lt, compare_eq_gt_iff_rank]

theorem compare_eq_eq_iff_rank : compare lhs rhs = .eq ↔ lhs.rank = rhs.rank := by
  have hlt := compare_eq_lt_iff_rank lhs rhs
  have hgt := compare_eq_gt_iff_rank lhs rhs
  cases h : compare lhs rhs with
  | lt => simpa using (hlt.mp h).ne
  | eq =>
    rw [h] at hlt hgt
    simpa using le_antisymm (not_lt.mp (hgt.not.mp (by decide))) (not_lt.mp (hlt.not.mp (by decide)))
  | gt => simpa using (hgt.mp h).ne'

end Rank

instance : Std.TransCmp compare where
  eq_swap := (compare_swap _ _).symm
  isLE_trans {a b c} hab hbc := by
    rw [Ordering.isLE_iff_ne_gt] at *
    exact compare_ne_gt_trans hab hbc

/-- The entries that writing the records leaves in a database with the default comparator. -/
def stored (writes : List (RecordFileKey × Bytes)) : List (Bytes × Bytes) :=
  OrderedStore.ofPuts (Database.comparator false) (writes.map (Prod.map toBytes id))

theorem stored_eq (writes : List (RecordFileKey × Bytes)) :
    stored writes = (OrderedStore.ofPuts compare writes).map (Prod.map toBytes id) :=
  (OrderedStore.map_ofPuts fun _ _ => rfl).symm

/-- A loop over entries with texts of keys sees the keys, clamped. -/
theorem yielded_map_toBytes (l : List (RecordFileKey × Bytes)) :
    (RecordFileIterator.start (l.map (Prod.map toBytes id)) false).yielded =
      l.map (Prod.map clamped id) := by
  have hdecode (key : RecordFileKey) :
      RecordFileIterator.tryReadCurrentKey false key.toBytes = some key.clamped :=
    fromBytes_toBytes_clamped key
  rw [RecordFileIterator.yielded_start, List.filterMap_map, ← List.filterMap_eq_map]
  congr 1
  funext e
  simp only [Function.comp, Prod.map_fst, Prod.map_snd, hdecode, Option.map_some, id]
  rfl

/-- What a database with the default comparator yields is in the order of the keys. -/
theorem yielded_stored_increase (writes : List (RecordFileKey × Bytes)) :
    (RecordFileIterator.start (stored writes) false).yielded.Pairwise fun e f =>
      e.1.rank < f.1.rank := by
  rw [stored_eq, yielded_map_toBytes, List.pairwise_map]
  refine (OrderedStore.sorted_ofPuts writes).imp fun {e f} hlt => ?_
  rw [Prod.map_fst, Prod.map_fst, rank_clamped, rank_clamped]
  exact (compare_eq_lt_iff_rank e.1 f.1).mp hlt

/-- The sign of `compare`, the byte order of the texts, the order in which a database yields the
records written to it and the order of the heap are all the lexicographic order of the clamped
timestamp and the count. -/
theorem key_order_embeds :
    (∀ lhs rhs : RecordFileKey,
      (compare lhs rhs = .lt ↔ lhs.rank < rhs.rank) ∧
      (compare lhs rhs = .eq ↔ lhs.rank = rhs.rank) ∧
      (compare lhs rhs = .gt ↔ rhs.rank < lhs.rank) ∧
      Database.comparator false lhs.toBytes rhs.toBytes = compare lhs rhs) ∧
    (∀ writes : List (RecordFileKey × Bytes),
      (RecordFileIterator.start (stored writes) false).yielded.Pairwise fun e f =>
        e.1.rank < f.1.rank) ∧
    ∀ lhs rhs : RecordReader, RecordReader.compare lhs rhs = true ↔
      rhs.recordItr.currentKey.rank < lhs.recordItr.currentKey.rank := by
  refine ⟨fun lhs rhs => ⟨compare_eq_lt_iff_rank _ _, compare_eq_eq_iff_rank _ _,
    compare_eq_gt_iff_rank _ _, rfl⟩, yielded_stored_increase, fun lhs rhs => ?_⟩
  rw [RecordReader.compare_iff, compare_eq_gt_iff_rank]

end CrisCore.RecordFileKey
