import Mathlib
import Reckoner.Number.Code

/-! A double is given by its sign and its code: both survive the way through bits. -/
namespace Reckoner.Number

open Float.Model (Format UnpackedFloat)
open Float.Model.UnpackedFloat

section Word

variable {b : BitVec Format.binary64.numBits}

theorem toNat_unpackMantissa : (unpackMantissa b).toNat = b.toNat % 2 ^ 52 := by
  simp [unpackMantissa]

theorem toNat_unpackExponent : (unpackExponent b).toNat = b.toNat / 2 ^ 52 % 2 ^ 11 := by
  simp [unpackExponent, Nat.shiftRight_eq_div_pow]

/-- Infinity and what is not a number have the largest exponent. -/
theorem isFinite_unpack_iff_unpackExponent :
    (unpack .binary64 b).isFinite ↔ unpackExponent b ≠ -1#_ := by
  rw [unpack]
  split
  next h => split <;> simp only [UnpackedFloat.isFinite, h, ne_eq, not_true, Bool.false_eq_true]
  next h =>
    split
    next => split <;> simp only [UnpackedFloat.isFinite, h, ne_eq, not_false_eq_true]
    next => simp only [UnpackedFloat.isFinite, h, ne_eq, not_false_eq_true]

theorem isFinite_unpack : (unpack .binary64 b).isFinite ↔ b.toNat % signBit < infinity := by
  have hE := toNat_unpackExponent (b := b)
  rw [isFinite_unpack_iff_unpackExponent, ← BitVec.toNat_inj.ne]
  change _ ≠ 2047 ↔ b.toNat % 2 ^ 63 < 2047 * 2 ^ 52
  omega

end Word

variable {x : Float} {c : Nat}

theorem toBits_ofBits {w : UInt64} (hv : Format.binary64.Valid w.toBitVec) :
    (Float.ofBits w).toBits = w :=
  congrArg UInt64.ofBitVec (pack_unpack_of_valid hv)

theorem valid_of_le_infinity (h : c ≤ infinity) :
    Format.binary64.Valid (UInt64.ofNat c).toBitVec := by
  have hw : (UInt64.ofNat c).toBitVec.toNat = c % 2 ^ 64 := rfl
  refine ⟨fun he hm => absurd ?_ hm⟩
  have hE : c % 2 ^ 64 / 2 ^ 52 % 2 ^ 11 = 2047 :=
    hw ▸ toNat_unpackExponent.symm.trans (congrArg BitVec.toNat he)
  apply BitVec.eq_of_toNat_eq
  rw [toNat_unpackMantissa, hw]
  change c ≤ 2047 * 2 ^ 52 at h
  change _ = 0
  omega

theorem toNat_toBits_ofCode (h : c ≤ infinity) : (ofCode c).toBits.toNat = c := by
  rw [ofCode, toBits_ofBits (valid_of_le_infinity h)]
  change c % 2 ^ 64 = c
  change c ≤ 2047 * 2 ^ 52 at h
  omega

theorem code_ofCode (h : c ≤ infinity) : code (ofCode c) = c := by
  rw [code, toNat_toBits_ofCode h, Nat.mod_eq_of_lt (Nat.lt_of_le_of_lt h (by decide))]

theorem isNegative_ofCode (h : c ≤ infinity) : isNegative (ofCode c) = false := by
  rw [isNegative, toNat_toBits_ofCode h]
  change c ≤ 2047 * 2 ^ 52 at h
  change decide (2 ^ 63 ≤ c) = false
  simp
  omega

theorem ofCode_code (h : isNegative x = false) : ofCode (code x) = x := by
  have hx : x.toBits.toNat < signBit := by simpa [isNegative] using h
  rw [ofCode, code, Nat.mod_eq_of_lt hx, UInt64.ofNat_toNat, Float.ofBits_toBits]

theorem isFinite_iff : x.isFinite ↔ code x < infinity :=
  isFinite_unpack (b := x.toBits.toBitVec)

theorem isFinite_ofCode (h : c < infinity) : (ofCode c).isFinite := by
  rw [isFinite_iff, code_ofCode (Nat.le_of_lt h)]
  exact h

end Reckoner.Number
