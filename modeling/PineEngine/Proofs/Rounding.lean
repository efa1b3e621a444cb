import Mathlib.Algebra.Group.Nat.Defs
import PineEngine.Column

/-! # Rounding to doubles

The bits that a quotient is rounded to are those of a finite double or of infinity. So a whole number that is
brought to a double is a number.
-/

namespace PineEngine.Decimal

theorem roundHalfEven_le {num den c : Nat} (pos : 0 < den) (le : num ≤ c * den) : roundHalfEven num den ≤ c := by
  have split := Nat.div_add_mod num den
  have quotient : num / den ≤ c := Nat.div_le_of_le_mul (by rwa [Nat.mul_comm] at le)
  -- At the bound itself nothing is left to round up.
  unfold roundHalfEven
  grind

def inUnits (num den : Nat) (unit : Int) : Nat :=
  let (n, d) := if 0 ≤ unit then (num, den * powTwo unit.toNat) else (num * powTwo (-unit).toNat, den)
  roundHalfEven n d

theorem lt_powTwo_log2 (n : Nat) : n < powTwo (n.log2 + 1) :=
  Nat.lt_log2_self

theorem powTwo_log2_le {n : Nat} (pos : 0 < n) : powTwo n.log2 ≤ n :=
  Nat.log2_self_le (Nat.pos_iff_ne_zero.mp pos)

theorem powTwo_add (m n : Nat) : powTwo (m + n) = powTwo m * powTwo n :=
  Nat.pow_add 2 m n

theorem powTwo_le {m n : Nat} (le : m ≤ n) : powTwo m ≤ powTwo n :=
  Nat.pow_le_pow_right (by decide) le

theorem inUnits_le {num den : Nat} (pos : 0 < den) {unit : Int}
    (large : (num.log2 : Int) - den.log2 ≤ unit + 52) : inUnits num den unit ≤ powTwo 53 := by
  have num_lt := lt_powTwo_log2 num
  have le_den := powTwo_log2_le pos
  unfold inUnits
  by_cases whole : 0 ≤ unit
  · rw [if_pos whole]
    refine roundHalfEven_le (Nat.mul_pos pos (Nat.two_pow_pos _)) ?_
    calc num ≤ powTwo (num.log2 + 1) := Nat.le_of_lt num_lt
      _ ≤ powTwo (53 + (den.log2 + unit.toNat)) := powTwo_le (by omega)
      _ = powTwo 53 * (powTwo den.log2 * powTwo unit.toNat) := by rw [powTwo_add, powTwo_add]
      _ ≤ powTwo 53 * (den * powTwo unit.toNat) := Nat.mul_le_mul_left _ (Nat.mul_le_mul_right _ le_den)
  · rw [if_neg whole]
    refine roundHalfEven_le pos ?_
    calc num * powTwo (-unit).toNat ≤ powTwo (num.log2 + 1) * powTwo (-unit).toNat :=
          Nat.mul_le_mul_right _ (Nat.le_of_lt num_lt)
      _ = powTwo (num.log2 + 1 + (-unit).toNat) := (powTwo_add ..).symm
      _ ≤ powTwo (53 + den.log2) := powTwo_le (by omega)
      _ = powTwo 53 * powTwo den.log2 := powTwo_add ..
      _ ≤ powTwo 53 * den := Nat.mul_le_mul_left _ le_den

theorem assembled_le {m : Nat} (unit : Int) (le : m ≤ powTwo 53) {bits : Nat}
    (h : bits = let (m, unit) := if m == powTwo 53 then (powTwo 52, unit + 1) else (m, unit)
      if m < powTwo 52 then m
      else if 971 < unit then infinityBits
      else (unit + 1075).toNat * powTwo 52 + (m - powTwo 52)) :
    bits ≤ infinityBits ∧ (unit < 971 → bits < infinityBits) := by
  have finite {m : Nat} {unit : Int} (low : m < powTwo 53) (h : bits = if m < powTwo 52 then m
      else if 971 < unit then infinityBits
      else (unit + 1075).toNat * powTwo 52 + (m - powTwo 52)) :
      bits ≤ infinityBits ∧ (unit ≤ 971 → bits < infinityBits) := by
    have twice : powTwo 53 = powTwo 52 * 2 := powTwo_succ 52
    have whole : infinityBits = 2046 * powTwo 52 + powTwo 52 := by decide
    split at h
    · omega
    · split at h
      · omega
      · have units : (unit + 1075).toNat * powTwo 52 ≤ 2046 * powTwo 52 := Nat.mul_le_mul_right _ (by omega)
        omega
  by_cases last : m = powTwo 53
  · rw [if_pos (by simpa using last)] at h
    exact (finite (by decide) h).imp_right fun low small => low (by omega)
  · rw [if_neg (by simpa using last)] at h
    exact (finite (by omega) h).imp_right fun low small => low (by omega)

theorem quotientBits_le (num : Nat) {den : Nat} (pos : 0 < den) : quotientBits num den ≤ infinityBits ∧
    ((num.log2 : Int) - den.log2 < 1000 → quotientBits num den < infinityBits) := by
  unfold quotientBits
  split
  · exact ⟨Nat.zero_le _, fun _ => by decide⟩
  · -- The first unit may be too small by one bit; then the next one is taken.
    refine (assembled_le (m := inUnits num den _) _ ?_ rfl).imp_right fun low small => low ?_
    · split
      next => exact inUnits_le pos (by omega)
      next low => exact Nat.le_of_not_lt low
    · split <;> omega

section Fields

open Float.Model Float.Model.UnpackedFloat

theorem isNaN_unpack {b : BitVec Format.binary64.numBits} (finite : unpackExponent b ≠ -1#11) :
    (UnpackedFloat.unpack .binary64 b).isNaN = false := by
  unfold UnpackedFloat.unpack
  rw [if_neg finite]
  by_cases least : unpackExponent b = 0#11
  · rw [if_pos least]
    by_cases empty : unpackMantissa b = 0#52
    · rw [dif_pos empty]
      rfl
    · rw [dif_neg empty]
      rfl
  · rw [if_neg least]
    rfl

theorem isNaN_infinity (s : Sign) : (UnpackedFloat.unpack .binary64 (packedInfinity .binary64 s)).isNaN = false := by
  unfold UnpackedFloat.unpack packedInfinity
  rw [if_pos (unpackExponent_packComponents ..), unpackMantissa_packComponents]
  rfl

theorem pack_finite (s : Sign) (m : Nat) (e : Int) (pos : 0 < m) :
    UnpackedFloat.pack .binary64 (.finite s m e pos) =
      if 2048 ≤ (e + 1023 + 52).toNat + 1 then packedInfinity .binary64 s
      else if m.log2 + 1 = 53 then
        packComponents .binary64 s (BitVec.ofNat 11 (e + 1023 + 52).toNat) (BitVec.ofNat 52 m)
      else packComponents .binary64 s 0#11 (BitVec.ofNat 52 m) :=
  rfl

theorem isNaN_pack {u : UnpackedFloat} (number : u.isNaN = false) :
    (UnpackedFloat.unpack .binary64 (UnpackedFloat.pack .binary64 u)).isNaN = false := by
  cases u with
  | notANumber => cases number
  | infinity s => exact isNaN_infinity s
  | zero s =>
    refine isNaN_unpack ?_
    show unpackExponent (packedZero .binary64 s) ≠ _
    rw [packedZero, unpackExponent_packComponents]
    decide
  | finite s m e pos =>
    rw [pack_finite]
    split
    · exact isNaN_infinity s
    next low =>
      split
      · refine isNaN_unpack ?_
        rw [unpackExponent_packComponents]
        intro same
        have same := congrArg BitVec.toNat same
        rw [BitVec.toNat_ofNat, Nat.mod_eq_of_lt (by omega)] at same
        have largest : (-1#11).toNat = 2047 := by decide
        omega
      · refine isNaN_unpack ?_
        rw [unpackExponent_packComponents]
        decide

theorem isNaN_floatOfBits (negative : Bool) {bits : Nat} (finite : bits < infinityBits) :
    (floatOfBits negative bits).isNaN = false := by
  refine isNaN_pack (isNaN_unpack fun same => ?_)
  have whole : infinityBits = 2047 * 2 ^ 52 := by decide
  have same := congrArg BitVec.toNat same
  have largest : (-1#11).toNat = 2047 := by decide
  simp only [unpackExponent, BitVec.toNat_cast, BitVec.extractLsb_toNat] at same
  rw [UInt64.toNat_toBitVec, UInt64.toNat_ofNat', Nat.shiftRight_eq_div_pow] at same
  have sign : powTwo 63 = 2 ^ 63 := rfl
  cases negative with
  | false =>
    rw [if_neg Bool.false_ne_true] at same
    omega
  | true =>
    rw [if_pos rfl, sign] at same
    omega

end Fields

theorem isNaN_floatOfInt {n : Int} {x : Float} (h : floatOfInt? n = some x) : x.isNaN = false := by
  unfold floatOfInt? at h
  simp only at h
  split at h
  · cases h
  next finite =>
    cases h
    have le := (quotientBits_le n.natAbs Nat.one_pos).1
    exact isNaN_floatOfBits _ (by simp at finite; omega)

theorem floatOfInt_ok {n : Int} (small : n.natAbs < 2 ^ 70) : ∃ x, floatOfInt? n = some x := by
  have log : n.natAbs.log2 < 1000 := by
    by_cases zero : n.natAbs = 0
    · rw [zero]
      decide
    · exact Nat.lt_trans ((Nat.log2_lt zero).mpr small) (by decide)
  have finite := (quotientBits_le n.natAbs Nat.one_pos).2 (by omega)
  exact ⟨_, if_neg (by simpa using Nat.ne_of_lt finite)⟩

end PineEngine.Decimal
