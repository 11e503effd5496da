import Reckoner.Proofs.Number.Bits

/-! Rounding to the nearest double. A value no greater than the largest double does not become
infinite, and a value of one or more does not fall below one. -/
namespace Reckoner.Number

open Float.Model (Format UnpackedFloat totalExponent)
open Float.Model.UnpackedFloat

section Mantissa

variable {a b c m k : Nat} {em : ExtendedMantissa}

theorem log2_le_of_lt (h : m < 2 ^ (k + 1)) : m.log2 ≤ k := by
  by_cases hm : m = 0
  · simp [hm]
  · exact Nat.le_of_lt_succ ((Nat.log2_lt hm).mpr h)

theorem log2_shiftLeft (hm : m ≠ 0) (k : Nat) : (m <<< k).log2 = m.log2 + k := by
  induction k with
  | zero => rfl
  | succ k ih =>
    rw [Nat.shiftLeft_succ, Nat.log2_two_mul (by simpa using hm), ih, Nat.add_assoc]

theorem mantissa_shiftRight : (em >>> k).mantissa = em.mantissa / 2 ^ k := by
  change (k.repeat ExtendedMantissa.shiftRightOne em).mantissa = _
  induction k with
  | zero => simp [Nat.repeat]
  | succ k ih =>
    rw [Nat.repeat, ExtendedMantissa.shiftRightOne, ih, Nat.div_div_eq_div_mul, Nat.pow_succ]

/-- Only zeros are shifted out. -/
theorem shiftRight_exact :
    ExtendedMantissa.mk (m * 2 ^ k) false false >>> k = ⟨m, false, false⟩ := by
  change k.repeat ExtendedMantissa.shiftRightOne _ = _
  induction k generalizing m with
  | zero => simp [Nat.repeat]
  | succ k ih =>
    rw [Nat.pow_succ', ← Nat.mul_assoc, Nat.repeat, ih]
    simp [ExtendedMantissa.shiftRightOne]

theorem mantissa_ofMantissaAndAccuracy (m : Nat) (accuracy : Accuracy) :
    (ExtendedMantissa.ofMantissaAndAccuracy m accuracy).mantissa = m := by
  rcases accuracy with - | (- | - | -) <;> rfl

theorem le_roundedMantissa (em : ExtendedMantissa) : em.mantissa ≤ em.roundedMantissa := by
  obtain ⟨m, _ | _, _ | _⟩ := em <;>
    simp [ExtendedMantissa.roundedMantissa, ExtendedMantissa.accuracy, Accuracy.roundToNearestEven]

theorem roundedMantissa_le_succ (em : ExtendedMantissa) :
    em.roundedMantissa ≤ em.mantissa + 1 := by
  obtain ⟨m, _ | _, _ | _⟩ := em <;>
    simp [ExtendedMantissa.roundedMantissa, ExtendedMantissa.accuracy, Accuracy.roundToNearestEven]
  omega

/-- A quotient is not rounded past a whole number of the last places that are kept. -/
theorem roundedMantissa_quotient_le (h : a ≤ b * (c * 2 ^ k)) :
    ((ExtendedMantissa.ofMantissaAndAccuracy (a / b) (accuracyOfFraction (a % b) b)) >>>
      k).roundedMantissa ≤ c := by
  have hq : a / b ≤ c * 2 ^ k := Nat.div_le_of_le_mul h
  rcases Nat.lt_or_eq_of_le hq with hlt | heq
  · have hmantissa : a / b / 2 ^ k < c := Nat.div_lt_of_lt_mul (Nat.mul_comm c _ ▸ hlt)
    refine Nat.le_trans (roundedMantissa_le_succ _) ?_
    rw [mantissa_shiftRight, mantissa_ofMantissaAndAccuracy]
    exact hmantissa
  · have hr : a % b = 0 := by
      have parts := Nat.div_add_mod a b
      rw [heq] at parts
      omega
    rw [heq, hr]
    change (ExtendedMantissa.mk (c * 2 ^ k) false false >>> k).roundedMantissa ≤ c
    rw [shiftRight_exact]
    exact Nat.le_refl c

end Mantissa

section Round

variable {m : Nat} {e : Int} {accuracy : Accuracy} {s : Sign}

/-- The places below the leading 53, or below the unit, are rounded away. -/
def shift (m : Nat) (e : Int) : Nat := (max (m.log2 + e - 52) (-1074) - e).toNat

def rounded (m : Nat) (e : Int) (accuracy : Accuracy) : Nat :=
  (ExtendedMantissa.ofMantissaAndAccuracy m accuracy >>> shift m e).roundedMantissa

theorem targetExponent_eq (position : Int) :
    Format.binary64.targetExponent position = max (position - 53) (-1074) := rfl

theorem shift_eq (m : Nat) (e : Int) :
    (Format.binary64.targetExponent (totalExponent m e) - e).toNat = shift m e := by
  rw [targetExponent_eq, totalExponent, shift]
  omega

theorem le_rounded (m : Nat) (e : Int) (accuracy : Accuracy) :
    m / 2 ^ shift m e ≤ rounded m e accuracy := by
  rw [← mantissa_ofMantissaAndAccuracy m accuracy, ← mantissa_shiftRight,
    mantissa_ofMantissaAndAccuracy]
  exact le_roundedMantissa _

theorem rounded_le (m : Nat) (e : Int) (accuracy : Accuracy) : rounded m e accuracy ≤ 2 ^ 53 := by
  have hlog : m.log2 + 1 ≤ 53 + shift m e := by
    rw [shift]
    omega
  have hm : m < 2 ^ shift m e * 2 ^ 53 := by
    rw [← Nat.pow_add, Nat.add_comm]
    exact Nat.lt_of_lt_of_le Nat.lt_log2_self (Nat.pow_le_pow_right (by decide) hlog)
  refine Nat.le_trans (roundedMantissa_le_succ _) ?_
  rw [mantissa_shiftRight, mantissa_ofMantissaAndAccuracy]
  exact Nat.div_lt_of_lt_mul hm

/-- A significand of 53 places stays; one that was rounded up to the next power of two carries. -/
theorem shiftToTargetExponent_exact {r : Nat} (hr : r ≤ 2 ^ 53) (he : -1074 ≤ e) :
    shiftToTargetExponent .binary64 r e .exact =
      if r < 2 ^ 53 then (⟨r, false, false⟩, e) else (⟨2 ^ 52, false, false⟩, e + 1) := by
  simp only [shiftToTargetExponent, shiftToExponent, shift_eq]
  by_cases hlt : r < 2 ^ 53
  · have hlog : r.log2 ≤ 52 := log2_le_of_lt hlt
    have hs : shift r e = 0 := by
      rw [shift]
      omega
    rw [if_pos hlt, hs]
    simp only [Int.natCast_zero, Int.add_zero]
    rfl
  · obtain rfl : r = 2 ^ 53 := by omega
    have hs : shift (2 ^ 53) e = 1 := by
      rw [shift, Nat.log2_two_pow]
      omega
    rw [if_neg hlt, hs]
    rfl

/-- The significand is rounded once. -/
theorem roundWithAccuracy_eq (s : Sign) (m : Nat) (e : Int) (accuracy : Accuracy) :
    roundWithAccuracy .binary64 s m e accuracy =
      if h : rounded m e accuracy = 0 then .zero s
      else if rounded m e accuracy < 2 ^ 53 then
        .finite s (rounded m e accuracy) (e + shift m e) (Nat.pos_of_ne_zero h)
      else .finite s (2 ^ 52) (e + shift m e + 1) (by decide) := by
  have hmin : -1074 ≤ e + shift m e := by
    rw [shift]
    omega
  have first : shiftToTargetExponent .binary64 m e accuracy =
      (ExtendedMantissa.ofMantissaAndAccuracy m accuracy >>> shift m e, e + shift m e) := by
    simp only [shiftToTargetExponent, shiftToExponent, shift_eq]
  have hrounded : (ExtendedMantissa.ofMantissaAndAccuracy m accuracy >>>
      shift m e).roundedMantissa = rounded m e accuracy := rfl
  simp only [roundWithAccuracy, first, hrounded,
    shiftToTargetExponent_exact (rounded_le m e accuracy) hmin]
  by_cases hlt : rounded m e accuracy < 2 ^ 53
  · simp only [if_pos hlt]
  · have h0 : rounded m e accuracy ≠ 0 := by omega
    simp only [if_neg hlt, dif_neg h0]
    rfl

end Round

section Packing

variable {a b m : Nat} {e : Int} {s : Sign} {accuracy : Accuracy} {u v : UnpackedFloat}

/-- What is packed as it is. The exponents of the doubles end at 971. -/
def Fits : UnpackedFloat → Prop
  | .infinity _ | .notANumber => False
  | .zero _ => True
  | .finite _ _ e _ => e ≤ 971

theorem pack_finite (s : Sign) (m : Nat) (e : Int) (hm : 0 < m) :
    pack .binary64 (.finite s m e hm) =
      if 971 < e then packedInfinity .binary64 s
      else packComponents .binary64 s
        (if m.log2 = 52 then BitVec.ofNat 11 (e + 1075).toNat else 0#11) (BitVec.ofNat 52 m) := by
  have hexponent : e + (2 ^ (11 - 1) - 1 : Nat) + (52 : Nat) = e + 1075 := by omega
  have hbits : m.log2 + 1 = 1 + 52 ↔ m.log2 = 52 := by omega
  have hover : 2 ^ 11 ≤ (e + 1075).toNat + 1 ↔ 971 < e := by omega
  simp only [pack, Format.exponentBias, Format.mantissaBits, hexponent, hbits, hover]
  split
  next => rfl
  next => split <;> rfl

theorem isFinite_pack (u : UnpackedFloat) : (Float.ofModel (.pack u)).isFinite ↔ Fits u := by
  change (unpack .binary64 (pack .binary64 u)).isFinite ↔ _
  rw [isFinite_unpack_iff_unpackExponent]
  cases u with
  | notANumber | infinity => simp [pack, packedNaN, packedInfinity, Fits]
  | zero => simp [pack, packedZero, Fits]
  | finite s m e hm =>
    rw [pack_finite, Fits]
    split
    next h => simp [packedInfinity, h]
    next h =>
      rw [unpackExponent_packComponents, ← BitVec.toNat_inj.ne]
      split
      next =>
        change ¬ (e + 1075).toNat % 2 ^ 11 = 2047 ↔ _
        omega
      next =>
        change ¬ 0 = 2047 ↔ _
        omega

/-- Values up to the largest double do not overflow. -/
theorem fits_roundWithAccuracy (he : e ≤ 971)
    (h : a ≤ b * ((2 ^ 53 - 1) * 2 ^ (971 - e).toNat)) :
    Fits (roundWithAccuracy .binary64 s (a / b) e (accuracyOfFraction (a % b) b)) := by
  have hlog : (a / b).log2 ≤ 52 + (971 - e).toNat := by
    refine log2_le_of_lt (Nat.lt_of_le_of_lt (Nat.div_le_of_le_mul h) ?_)
    rw [Nat.add_right_comm, Nat.pow_add]
    exact Nat.mul_lt_mul_of_pos_right (by decide) (Nat.two_pow_pos _)
  have hle : e + shift (a / b) e ≤ 971 := by
    rw [shift]
    omega
  rw [roundWithAccuracy_eq]
  split
  next => trivial
  next =>
    split
    next => exact hle
    next hcarry =>
      -- A carry would leave the last exponent, but there the bound is a whole significand.
      have hne : e + shift (a / b) e ≠ 971 := by
        intro heq
        have hs : shift (a / b) e = (971 - e).toNat := by omega
        have hr := roundedMantissa_quotient_le h
        rw [← hs] at hr
        exact hcarry (Nat.lt_of_le_of_lt hr (by decide))
      change e + shift (a / b) e + 1 ≤ 971
      omega

theorem toNat_one_append (w : BitVec 52) : (1#1 ++ w).toNat = 2 ^ 52 + w.toNat := by
  rw [BitVec.toNat_append, ← Nat.shiftLeft_add_eq_or_of_lt w.isLt]
  rfl

theorem log2_one_append (w : BitVec 52) : (1#1 ++ w).toNat.log2 = 52 := by
  have hw := w.isLt
  rw [toNat_one_append, Nat.log2_eq_iff (by omega)]
  omega

/-- A finite double has at most 53 places, and the exponents end at 971. -/
theorem unpack_finite_le {w : BitVec Format.binary64.numBits} {hm : 0 < m}
    (h : unpack .binary64 w = .finite s m e hm) : m < 2 ^ 53 ∧ e ≤ 971 := by
  have hmantissa := (unpackMantissa w).isLt
  have hexponent := (unpackExponent w).isLt
  rw [unpack] at h
  split at h
  next => split at h <;> cases h
  next hinf =>
    have hE : (unpackExponent w).toNat ≠ 2047 := fun heq => hinf (BitVec.eq_of_toNat_eq heq)
    change (unpackMantissa w).toNat < 2 ^ 52 at hmantissa
    change (unpackExponent w).toNat < 2 ^ 11 at hexponent
    split at h
    next hzero =>
      split at h
      next => cases h
      next =>
        obtain ⟨-, rfl, rfl⟩ := UnpackedFloat.finite.inj h
        refine ⟨by omega, ?_⟩
        rw [hzero]
        decide
    next =>
      obtain ⟨-, rfl, rfl⟩ := UnpackedFloat.finite.inj h
      rw [toNat_one_append]
      refine ⟨by omega, ?_⟩
      change ((unpackExponent w).toNat : Int) - 1075 ≤ 971
      omega

/-- Doubles of magnitude one or more: the leading bit alone counts `2 ^ 52 * 2 ^ e`. -/
def AtLeastOne : UnpackedFloat → Prop
  | .infinity _ => True
  | .notANumber | .zero _ => False
  | .finite _ m e _ => m.log2 = 52 ∧ -52 ≤ e

theorem atLeastOne_unpack_pack (hu : AtLeastOne u) :
    AtLeastOne (unpack .binary64 (pack .binary64 u)) := by
  have hinfinity (s : Sign) : AtLeastOne (unpack .binary64 (packedInfinity .binary64 s)) := by
    cases s <;> trivial
  cases u with
  | notANumber | zero => exact hu.elim
  | infinity => exact hinfinity _
  | finite s m e hm =>
    obtain ⟨hlog, he⟩ := hu
    rw [pack_finite]
    split
    next => exact hinfinity s
    next hfits =>
      have hE : (BitVec.ofNat 11 (e + 1075).toNat).toNat = (e + 1075).toNat := by
        rw [BitVec.toNat_ofNat]
        omega
      have hinf : BitVec.ofNat 11 (e + 1075).toNat ≠ -1#_ := by
        rw [← BitVec.toNat_inj.ne, hE]
        change _ ≠ 2047
        omega
      have hzero : BitVec.ofNat 11 (e + 1075).toNat ≠ 0#_ := by
        rw [← BitVec.toNat_inj.ne, hE]
        change _ ≠ 0
        omega
      rw [unpack, unpackExponent_packComponents, if_neg hinf, if_neg hzero, hE]
      refine ⟨log2_one_append _, ?_⟩
      change -52 ≤ ((e + 1075).toNat : Int) - 1075
      omega

theorem atLeastOne_roundWithAccuracy (hm : 52 ≤ m.log2) (he : 0 ≤ m.log2 + e) :
    AtLeastOne (roundWithAccuracy .binary64 s m e accuracy) := by
  have hs : m.log2 = 52 + shift m e := by
    rw [shift]
    omega
  have hlow : 2 ^ 52 ≤ rounded m e accuracy := by
    refine Nat.le_trans ?_ (le_rounded m e accuracy)
    rw [Nat.le_div_iff_mul_le (Nat.two_pow_pos _), ← Nat.pow_add, ← hs]
    exact Nat.log2_self_le (by rintro rfl; simp at hm)
  rw [roundWithAccuracy_eq]
  split
  next h0 => omega
  next h0 =>
    split
    next hlt =>
      refine ⟨(Nat.log2_eq_iff h0).mpr ⟨hlow, hlt⟩, ?_⟩
      omega
    next =>
      refine ⟨Nat.log2_two_pow, ?_⟩
      omega

theorem atLeastOne_round (hm : m ≠ 0) (he : 0 ≤ m.log2 + e) :
    AtLeastOne (UnpackedFloat.round .binary64 s m e) := by
  have htarget : Format.binary64.targetExponent (totalExponent m e) = m.log2 + e - 52 := by
    rw [targetExponent_eq, totalExponent]
    omega
  rw [UnpackedFloat.round, htarget, decreaseExponent]
  refine atLeastOne_roundWithAccuracy ?_ ?_
  · rw [log2_shiftLeft hm]
    omega
  · rw [log2_shiftLeft hm]
    omega

theorem atLeastOne_mul (hu : AtLeastOne u) (hv : AtLeastOne v) :
    AtLeastOne (mul .binary64 u v) := by
  cases u with
  | notANumber | zero => exact hu.elim
  | infinity =>
    cases v with
    | notANumber | zero => exact hv.elim
    | infinity | finite => trivial
  | finite s m e hm =>
    cases v with
    | notANumber | zero => exact hv.elim
    | infinity => trivial
    | finite s' m' e' hm' =>
      have hlog : 52 + 52 ≤ (m * m').log2 := by
        rw [Nat.le_log2 (Nat.mul_pos hm hm').ne', Nat.pow_add]
        exact Nat.mul_le_mul ((Nat.le_log2 hm.ne').mp hu.1.ge) ((Nat.le_log2 hm'.ne').mp hv.1.ge)
      refine atLeastOne_roundWithAccuracy (by omega) ?_
      have := hu.2
      have := hv.2
      omega

theorem atLeastOne_normalize (hm : m ≠ 0) (zero : Sign) :
    AtLeastOne (UnpackedFloat.normalize .binary64 m 0 zero) := by
  have hpos : compare (m : Int) 0 = .gt := Int.compare_eq_gt.mpr (by omega)
  simp only [UnpackedFloat.normalize, hpos]
  exact atLeastOne_round hm (by omega)

theorem atLeastOne_ofScientific (hm : m ≠ 0) :
    AtLeastOne (UnpackedFloat.ofScientific .binary64 m 0) := by
  have hsmall : ¬ (0 : Int) < -((2 ^ 11 : Int) + m.log2) := by omega
  have hbits : Format.binary64.mantissaBits = 53 := rfl
  rw [UnpackedFloat.ofScientific, dif_neg hm, if_neg (by decide), if_neg hsmall,
    if_pos (by decide), mul, Int.toNat_zero, Nat.pow_zero, Nat.mul_one]
  refine atLeastOne_roundWithAccuracy ?_ ?_
  · rw [log2_shiftLeft hm, hbits]
    omega
  · rw [log2_shiftLeft hm, hbits]
    omega

/-- A divisor of one or more leaves room for the largest significand. -/
theorem fits_div {h : 0 < m} (hm : m < 2 ^ 53) (he : e ≤ 971) (hv : AtLeastOne v) :
    Fits (div .binary64 (.finite s m e h) v) := by
  cases v with
  | notANumber | zero => exact hv.elim
  | infinity => trivial
  | finite s' m' e' hm' =>
    obtain ⟨hlog', he'⟩ := hv
    have hlog : m.log2 ≤ 52 := log2_le_of_lt hm
    simp only [div, divCore]
    generalize ht : min (e - e') (Format.binary64.targetExponent
      (totalExponent m e - totalExponent m' e')) = t
    have hle : t ≤ 970 := by
      rw [← ht, targetExponent_eq, totalExponent, totalExponent]
      omega
    refine fits_roundWithAccuracy (by omega) ?_
    have hk : (e - e' - t).toNat ≤ 52 + (971 - t).toNat := by omega
    have hm'' : 2 ^ 52 ≤ m' := (Nat.le_log2 hm'.ne').mp hlog'.ge
    calc
      m <<< (e - e' - t).toNat = m * 2 ^ (e - e' - t).toNat := Nat.shiftLeft_eq ..
      _ ≤ (2 ^ 53 - 1) * 2 ^ (52 + (971 - t).toNat) :=
        Nat.mul_le_mul (by omega) (Nat.pow_le_pow_right (by decide) hk)
      _ = 2 ^ 52 * ((2 ^ 53 - 1) * 2 ^ (971 - t).toNat) := by
        rw [Nat.pow_add]
        ac_rfl
      _ ≤ m' * ((2 ^ 53 - 1) * 2 ^ (971 - t).toNat) := Nat.mul_le_mul_right _ hm''

end Packing

section Operations

variable {x y : Float} {n : Nat}

/-- The quotient of a finite double by a divisor of one or more is finite. -/
theorem isFinite_div (hx : x.isFinite) (hy : AtLeastOne y.toModel.unpack) :
    (x / y).isFinite := by
  change (Float.ofModel (.pack (div .binary64 x.toModel.unpack y.toModel.unpack))).isFinite
  rw [isFinite_pack]
  change x.toModel.unpack.isFinite = true at hx
  generalize hu : x.toModel.unpack = u at hx
  cases u with
  | notANumber | infinity => cases hx
  | zero =>
    generalize y.toModel.unpack = v at hy
    cases v with
    | notANumber | zero => exact hy.elim
    | infinity | finite => trivial
  | finite =>
    obtain ⟨hm, he⟩ := unpack_finite_le hu
    exact fits_div hm he hy

/-- A whole number other than zero stays at one or more when it becomes a double, an infinite one
perhaps. -/
theorem atLeastOne_ofNat (hn : n ≠ 0) : AtLeastOne (Float.ofNat n).toModel.unpack := by
  by_cases hlt : n < 2 ^ 53
  · have hexact : Float.ofNat n = n.toUInt64.toFloat * Float.ofBits 0x3FF0000000000000 := by
      rw [Float.ofNat]
      change Float.ofScientific n false 0 = _
      rw [Float.ofScientific, dif_pos ⟨hlt, by decide⟩]
      rfl
    have hone : AtLeastOne (Float.ofBits 0x3FF0000000000000).toModel.unpack :=
      ⟨by decide, by decide⟩
    have hn' : n.toUInt64.toNat = n := by
      change n % 2 ^ 64 = n
      omega
    rw [hexact]
    refine atLeastOne_unpack_pack (atLeastOne_mul (atLeastOne_unpack_pack ?_) hone)
    rw [UnpackedFloat.ofUInt64, UnpackedFloat.ofNat, UnpackedFloat.ofInt, hn']
    exact atLeastOne_normalize hn _
  · have hmodel : Float.ofNat n = .ofModel (.ofScientific n 0) := by
      rw [Float.ofNat]
      change Float.ofScientific n false 0 = _
      rw [Float.ofScientific, dif_neg (by omega)]
      rfl
    rw [hmodel]
    exact atLeastOne_unpack_pack (atLeastOne_ofScientific hn)

end Operations

end Reckoner.Number
