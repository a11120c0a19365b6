import CrisCore.FixedWidth
import Mathlib.Data.List.TakeWhile

/-! `RecordFileKey`: how the keys of records are made, written as bytes, read back and compared. -/
namespace CrisCore

abbrev Bytes := List UInt8

def bytesOf (s : String) : Bytes :=
  s.toList.map fun c => UInt8.ofNat c.toNat

structure RecordFileKey where
  timestampNs : Int64
  /-- The tie-breaker if timestamps are the same. -/
  count : UInt64
  deriving DecidableEq

namespace RecordFileKey

/-- `global_counters` of `Make`, one for each value of the low four bits of the time. -/
abbrev Counters := Fin 16 → UInt64

def slot (now : Int64) : Fin 16 :=
  Fin.ofNat 16 (now.toUInt64 &&& 15).toNat

def make (now : Int64) (globalCounters : Counters) : RecordFileKey × Counters :=
  (⟨now, globalCounters (slot now)⟩,
    Function.update globalCounters (slot now) (globalCounters (slot now) + 1))

def kMaxInt64Digits : ℕ := 20

def digitByte (d : ℕ) : UInt8 := UInt8.ofNat (48 + d)

def isDigit (c : UInt8) : Bool := 48 ≤ c && c ≤ 57

def digitVal (c : UInt8) : ℕ := c.toNat - 48

/-- `setfill('0') << setw(20) << n`; no 64-bit number has more digits. -/
def paddedDecimal (n : ℕ) : Bytes :=
  (FixedWidth.digits 10 kMaxInt64Digits n).map digitByte

def toBytes (key : RecordFileKey) : Bytes :=
  bytesOf "T" ++ paddedDecimal (max key.timestampNs.toInt 0).toNat ++ bytesOf "ns" ++
    paddedDecimal key.count.toNat

/-- `std::stoll` and `std::stoull` on digits; the bound is where they throw `out_of_range`. -/
def readDecimal (bound : ℕ) (ds : Bytes) : Option ℕ :=
  let n := FixedWidth.readDigits 10 0 (ds.map digitVal)
  if n < bound then some n else none

/-- The format is `T([[:digit:]]+)ns([[:digit:]]+)`. -/
def fromBytes (bytes : Bytes) : Option RecordFileKey := do
  let rest ← (bytesOf "T").isPrefixOf? bytes
  let timestamp := rest.takeWhile isDigit
  let count ← (bytesOf "ns").isPrefixOf? (rest.dropWhile isDigit)
  if timestamp = [] ∨ count = [] ∨ ¬ count.all isDigit then none
  else
    let t ← readDecimal (2 ^ 63) timestamp
    let c ← readDecimal (2 ^ 64) count
    return ⟨Int64.ofNat t, UInt64.ofNat c⟩

def littleEndian (bytes : Bytes) : ℕ :=
  bytes.foldr (fun b n => b.toNat + 256 * n) 0

/-- The first 16 bytes copied over a default key. -/
def fromBytesLegacy (bytes : Bytes) : Option RecordFileKey :=
  let key := bytes.take 16 ++ List.replicate (16 - bytes.length) 0
  some ⟨(UInt64.ofNat (littleEndian (key.take 8))).toInt64, UInt64.ofNat (littleEndian (key.drop 8))⟩

/-- Bytes are compared by `memcmp`, then by length. -/
def compare (lhs rhs : RecordFileKey) : Ordering :=
  List.compareLex Ord.compare lhs.toBytes rhs.toBytes

theorem isDigit_digitByte : ∀ d < 10, isDigit (digitByte d) = true := by
  decide

theorem digitVal_digitByte : ∀ d < 10, digitVal (digitByte d) = d := by
  decide

theorem compare_digitByte :
    ∀ a < 10, ∀ b < 10, Ord.compare (digitByte a) (digitByte b) = Ord.compare a b := by
  decide

section PaddedDecimal
variable {m n : ℕ}

theorem length_paddedDecimal (n : ℕ) : (paddedDecimal n).length = kMaxInt64Digits := by
  simp [paddedDecimal, FixedWidth.length_digits]

theorem all_isDigit_paddedDecimal (h : n < 10 ^ kMaxInt64Digits) :
    ∀ c ∈ paddedDecimal n, isDigit c = true := by
  intro c hc
  obtain ⟨d, hd, rfl⟩ := List.mem_map.mp hc
  exact isDigit_digitByte d (FixedWidth.lt_of_mem_digits h hd)

theorem readDecimal_paddedDecimal {bound : ℕ} (h : n < 10 ^ kMaxInt64Digits) (hb : n < bound) :
    readDecimal bound (paddedDecimal n) = some n := by
  have hval : (paddedDecimal n).map digitVal = FixedWidth.digits 10 kMaxInt64Digits n := by
    rw [paddedDecimal, List.map_map]
    refine (List.map_congr_left fun d hd => ?_).trans (List.map_id _)
    exact digitVal_digitByte d (FixedWidth.lt_of_mem_digits h hd)
  simp only [readDecimal, hval, FixedWidth.readDigits_digits _ _ _ _ h, Nat.zero_mul, Nat.zero_add,
    hb, if_true]

theorem compareLex_paddedDecimal (hm : m < 10 ^ kMaxInt64Digits) (hn : n < 10 ^ kMaxInt64Digits) :
    List.compareLex Ord.compare (paddedDecimal m) (paddedDecimal n) = Ord.compare m n := by
  rw [paddedDecimal, paddedDecimal, FixedWidth.compareLex_map fun a ha b hb =>
    compare_digitByte a (FixedWidth.lt_of_mem_digits hm ha) b (FixedWidth.lt_of_mem_digits hn hb)]
  exact FixedWidth.compareLex_digits hm hn

end PaddedDecimal

theorem timestamp_lt (key : RecordFileKey) : (max key.timestampNs.toInt 0).toNat < 2 ^ 63 := by
  have h := Int64.toInt_lt key.timestampNs
  omega

theorem timestamp_lt_digits (key : RecordFileKey) :
    (max key.timestampNs.toInt 0).toNat < 10 ^ kMaxInt64Digits :=
  key.timestamp_lt.trans (by decide)

theorem count_lt_digits (key : RecordFileKey) : key.count.toNat < 10 ^ kMaxInt64Digits :=
  key.count.toNat_lt.trans (by decide)

theorem isPrefixOf?_append (p l : Bytes) : p.isPrefixOf? (p ++ l) = some l := by
  induction p with
  | nil => rfl
  | cons b p ih => simp [List.isPrefixOf?, ih]

/-- `FromBytes` reads what `ToBytes` writes, a negative timestamp as zero. -/
theorem fromBytes_toBytes_clamped (key : RecordFileKey) :
    fromBytes key.toBytes =
      some ⟨Int64.ofNat (max key.timestampNs.toInt 0).toNat, key.count⟩ := by
  have hpre := isPrefixOf?_append
  have hts := all_isDigit_paddedDecimal key.timestamp_lt_digits
  have hct := all_isDigit_paddedDecimal key.count_lt_digits
  have hstop : ∀ l, (bytesOf "ns" ++ l).takeWhile isDigit = [] := fun l => rfl
  have hrest : ∀ l, (bytesOf "ns" ++ l).dropWhile isDigit = bytesOf "ns" ++ l := fun l => rfl
  simp only [fromBytes, toBytes, List.append_assoc, hpre, Option.bind_eq_bind, Option.bind_some,
    List.takeWhile_append_of_pos hts, List.dropWhile_append_of_pos hts, hstop, hrest,
    List.append_nil]
  have hne (n : ℕ) : paddedDecimal n ≠ [] := by
    intro h
    have hl := length_paddedDecimal n
    rw [h] at hl
    cases hl
  rw [if_neg (by simp [hne, List.all_eq_true.mpr hct])]
  rw [readDecimal_paddedDecimal key.timestamp_lt_digits key.timestamp_lt,
    readDecimal_paddedDecimal key.count_lt_digits key.count.toNat_lt]
  simp only [Option.bind_some, UInt64.ofNat_toNat]
  rfl

theorem fromBytes_toBytes {key : RecordFileKey} (h : 0 ≤ key.timestampNs.toInt) :
    fromBytes key.toBytes = some key := by
  have hint : Int64.ofNat (max key.timestampNs.toInt 0).toNat = key.timestampNs := by
    rw [max_eq_left h, ← Int64.ofInt_eq_ofNat, Int.toNat_of_nonneg h, Int64.ofInt_toInt]
  rw [fromBytes_toBytes_clamped, hint]

theorem isSome_fromBytes_toBytes (key : RecordFileKey) : (fromBytes key.toBytes).isSome = true := by
  rw [fromBytes_toBytes_clamped]
  rfl

/-- Keys compare by timestamp, then by count. -/
theorem compare_eq_then (lhs rhs : RecordFileKey) :
    compare lhs rhs =
      (Ord.compare (max lhs.timestampNs.toInt 0).toNat (max rhs.timestampNs.toInt 0).toNat).then
        (Ord.compare lhs.count.toNat rhs.count.toNat) := by
  simp only [compare, toBytes]
  rw [FixedWidth.compareLex_append (by simp [length_paddedDecimal]),
    FixedWidth.compareLex_append (by simp [length_paddedDecimal]),
    FixedWidth.compareLex_append rfl,
    compareLex_paddedDecimal lhs.timestamp_lt_digits rhs.timestamp_lt_digits,
    compareLex_paddedDecimal lhs.count_lt_digits rhs.count_lt_digits]
  have hT : List.compareLex Ord.compare (bytesOf "T") (bytesOf "T") = .eq :=
    Std.ReflCmp.compare_self
  have hns : List.compareLex Ord.compare (bytesOf "ns") (bytesOf "ns") = .eq :=
    Std.ReflCmp.compare_self
  rw [hT, hns, Ordering.eq_then, Ordering.then_eq]

theorem compare_swap (lhs rhs : RecordFileKey) : (compare lhs rhs).swap = compare rhs lhs := by
  simp only [compare_eq_then, Ordering.swap_then, Nat.compare_swap]

theorem compare_eq_gt_iff {lhs rhs : RecordFileKey} : compare lhs rhs = .gt ↔
    (max rhs.timestampNs.toInt 0).toNat < (max lhs.timestampNs.toInt 0).toNat ∨
      ((max rhs.timestampNs.toInt 0).toNat = (max lhs.timestampNs.toInt 0).toNat ∧
        rhs.count.toNat < lhs.count.toNat) := by
  rw [compare_eq_then, Ordering.then_eq_gt, Nat.compare_eq_gt, Nat.compare_eq_eq,
    Nat.compare_eq_gt]
  omega

/-- A later timestamp, or the same one with a greater count, makes a greater key. -/
theorem compare_eq_lt {lhs rhs : RecordFileKey} (hl : 0 ≤ lhs.timestampNs.toInt)
    (h : lhs.timestampNs.toInt < rhs.timestampNs.toInt ∨
      (lhs.timestampNs = rhs.timestampNs ∧ lhs.count.toNat < rhs.count.toNat)) :
    compare lhs rhs = .lt := by
  rw [compare_eq_then]
  rcases h with h | ⟨ht, hc⟩
  · have hlt : (max lhs.timestampNs.toInt 0).toNat < (max rhs.timestampNs.toInt 0).toNat := by
      omega
    rw [Nat.compare_eq_lt.mpr hlt]
    rfl
  · rw [ht, Nat.compare_eq_eq.mpr rfl, Nat.compare_eq_lt.mpr hc]
    rfl

end RecordFileKey
end CrisCore
