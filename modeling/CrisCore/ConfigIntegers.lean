import Mathlib.Algebra.Order.Ring.Int
import Mathlib.Tactic.Positivity

/-! `Config<data_t>::InitValue` for the integral types other than `bool`. -/
namespace CrisCore.ConfigIntegers

/-- An integral `data_t`: its signedness and its number of bits. -/
structure IntegralType where
  isSigned : Bool
  width : ℕ
  width_pos : 0 < width
  width_le : width ≤ 64

namespace IntegralType

def int : IntegralType := ⟨true, 32, by decide, by decide⟩
def unsigned : IntegralType := ⟨false, 32, by decide, by decide⟩
def long : IntegralType := ⟨true, 64, by decide, by decide⟩
def unsignedLong : IntegralType := ⟨false, 64, by decide, by decide⟩
def longLong : IntegralType := ⟨true, 64, by decide, by decide⟩
def unsignedLongLong : IntegralType := ⟨false, 64, by decide, by decide⟩

/-- The types that `Config` is instantiated with. -/
def instantiated : List IntegralType :=
  [int, unsigned, long, unsignedLong, longLong, unsignedLongLong]

/-- The smallest value. -/
def lower (t : IntegralType) : ℤ :=
  if t.isSigned then -2 ^ (t.width - 1) else 0

def Representable (t : IntegralType) (v : ℤ) : Prop :=
  t.lower ≤ v ∧ v < t.lower + 2 ^ t.width

instance (t : IntegralType) (v : ℤ) : Decidable (t.Representable v) :=
  inferInstanceAs (Decidable (_ ∧ _))

def Value (t : IntegralType) : Type :=
  { v : ℤ // t.Representable v }

instance (t : IntegralType) : DecidableEq t.Value :=
  inferInstanceAs (DecidableEq { v : ℤ // t.Representable v })

/-- `static_cast<data_t>`: the value of the type that is congruent modulo two to the width. -/
def staticCast (t : IntegralType) (v : ℤ) : t.Value :=
  ⟨t.lower + (v - t.lower) % 2 ^ t.width,
    Int.le_add_of_nonneg_right (Int.emod_nonneg _ (by positivity)),
    Int.add_lt_add_left (Int.emod_lt_of_pos _ (by positivity)) _⟩

theorem staticCast_of_representable {t : IntegralType} {v : ℤ} (h : t.Representable v) :
    t.staticCast v = ⟨v, h⟩ := by
  have hrest : (v - t.lower) % 2 ^ t.width = v - t.lower :=
    Int.emod_eq_of_lt (Int.sub_nonneg.mpr h.1) (by have := h.2; omega)
  have hval : t.lower + (v - t.lower) % 2 ^ t.width = v := by
    rw [hrest]
    omega
  exact Subtype.ext hval

end IntegralType

/-- `ConfigDataTrivialParser<std::int64_t>` of a JSON integer; `none` ends the process. -/
def configDataTrivialParserInt64 (v : ℤ) : Option ℤ :=
  if -2 ^ 63 ≤ v ∧ v < 2 ^ 63 then some v else none

/-- `ConfigDataTrivialParser<std::uint64_t>` -/
def configDataTrivialParserUint64 (v : ℤ) : Option ℤ :=
  if 0 ≤ v ∧ v < 2 ^ 64 then some v else none

structure Config (t : IntegralType) where
  data : t.Value
  initialized : Bool
  deriving DecidableEq

namespace Config
variable {t : IntegralType}

/-- The branches of `InitValue`; the comments are those of the source. -/
def parse (t : IntegralType) (v : ℤ) : Option ℤ :=
  if !t.isSigned then
    -- signed int
    configDataTrivialParserInt64 v
  else
    -- unsigned int
    configDataTrivialParserUint64 v

def initValue (c : Config t) (v : ℤ) : Option (Config t) :=
  (parse t v).map fun data => { c with data := t.staticCast data, initialized := true }

/-- The value is stored as it is, and one that the type does not have is refused. -/
def ReadExactly (c : Config t) (v : ℤ) : Prop :=
  (∀ h : t.Representable v, c.initValue v = some ⟨⟨v, h⟩, true⟩) ∧
    (¬ t.Representable v → c.initValue v = none)

/-- What the parser of the other signedness takes. -/
def OtherParserTakes (t : IntegralType) (v : ℤ) : Prop :=
  if t.isSigned then 0 ≤ v ∧ v < 2 ^ 64 else -2 ^ 63 ≤ v ∧ v < 2 ^ 63

instance (t : IntegralType) (v : ℤ) : Decidable (OtherParserTakes t v) :=
  inferInstanceAs (Decidable (ite _ _ _))

theorem parse_of_takes {v : ℤ} (h : OtherParserTakes t v) : parse t v = some v := by
  unfold OtherParserTakes at h
  unfold parse
  cases hs : t.isSigned with
  | true =>
    rw [hs, if_pos rfl] at h
    exact if_pos h
  | false =>
    rw [hs, if_neg Bool.false_ne_true] at h
    exact if_pos h

theorem parse_of_not_takes {v : ℤ} (h : ¬ OtherParserTakes t v) : parse t v = none := by
  unfold OtherParserTakes at h
  unfold parse
  cases hs : t.isSigned with
  | true =>
    rw [hs, if_pos rfl] at h
    exact if_neg h
  | false =>
    rw [hs, if_neg Bool.false_ne_true] at h
    exact if_neg h

theorem initValue_of_takes (c : Config t) {v : ℤ} (h : OtherParserTakes t v) :
    c.initValue v = some ⟨t.staticCast v, true⟩ := by
  rw [initValue, parse_of_takes h]
  rfl

theorem initValue_of_not_takes (c : Config t) {v : ℤ} (h : ¬ OtherParserTakes t v) :
    c.initValue v = none := by
  rw [initValue, parse_of_not_takes h]
  rfl

theorem readExactly_iff_takes (c : Config t) (v : ℤ) :
    c.ReadExactly v ↔ (t.Representable v ↔ OtherParserTakes t v) := by
  constructor
  · rintro ⟨hyes, hno⟩
    constructor
    · intro hr
      by_contra htakes
      have hread := hyes hr
      rw [initValue_of_not_takes c htakes] at hread
      cases hread
    · intro htakes
      by_contra hr
      have hread := hno hr
      rw [initValue_of_takes c htakes] at hread
      cases hread
  · intro hiff
    refine ⟨fun hr => ?_, fun hr => initValue_of_not_takes c fun htakes => hr (hiff.mpr htakes)⟩
    rw [initValue_of_takes c (hiff.mp hr), IntegralType.staticCast_of_representable hr]

/-- The integers the mixed-up parsers do no harm to. A signed type keeps its non-negative values,
an unsigned one those below 2^63; beyond, only what both parsers refuse is refused. -/
def Unharmed (t : IntegralType) (v : ℤ) : Prop :=
  if t.isSigned then
    (0 ≤ v ∧ v < 2 ^ (t.width - 1)) ∨ v < -2 ^ (t.width - 1) ∨ 2 ^ 64 ≤ v
  else
    (0 ≤ v ∧ v < 2 ^ t.width ∧ v < 2 ^ 63) ∨ v < -2 ^ 63 ∨ (2 ^ 63 ≤ v ∧ 2 ^ t.width ≤ v)

theorem integers_read_exactly_iff (c : Config t) (v : ℤ) : c.ReadExactly v ↔ Unharmed t v := by
  rw [readExactly_iff_takes]
  have hwidth : (2 : ℤ) ^ t.width = 2 * 2 ^ (t.width - 1) := by
    rw [← pow_succ', Nat.sub_add_cancel t.width_pos]
  have hle : (2 : ℤ) ^ (t.width - 1) ≤ 2 ^ 63 :=
    pow_le_pow_right₀ (by norm_num) (by have := t.width_le; omega)
  have hpos : (0 : ℤ) < 2 ^ (t.width - 1) := by positivity
  unfold IntegralType.Representable IntegralType.lower OtherParserTakes Unharmed
  generalize (2 : ℤ) ^ (t.width - 1) = half at *
  rw [hwidth]
  cases t.isSigned with
  | true =>
    simp only [if_true]
    omega
  | false =>
    simp only [Bool.false_eq_true, if_false]
    omega

/-- Minus one: no signed type reads it, and every unsigned one takes it, as its largest value. The
other ends are no better: an `int` wraps, an `unsigned long` refuses what it has. -/
theorem minus_one_read_by_no_type :
    (∀ t ∈ IntegralType.instantiated, ∀ c : Config t, ¬ c.ReadExactly (-1)) ∧
      (∀ c : Config .int, c.initValue (-1) = none ∧
        (c.initValue 4294967295).map (fun c => c.data.val) = some (-1)) ∧
      ∀ c : Config .unsignedLong, c.initValue 9223372036854775808 = none ∧
        (c.initValue (-1)).map (fun c => c.data.val) = some 18446744073709551615 := by
  have hall : ∀ t ∈ IntegralType.instantiated,
      ¬ (t.Representable (-1) ↔ OtherParserTakes t (-1)) := by decide
  refine ⟨fun t ht c => ?_, fun c => ⟨rfl, rfl⟩, fun c => ⟨rfl, rfl⟩⟩
  rw [readExactly_iff_takes]
  exact hall t ht

end Config
end CrisCore.ConfigIntegers
