import Reckoner.Number.Integral
import Reckoner.Proofs.Number.Literal
import Reckoner.Proofs.Number.Rounding

/-! Whole parts of doubles. A finite double is rounded to a finite one: from `2 ^ 52` on it is whole
already, and below it every whole number is far from infinite. -/
namespace Reckoner.Number

open Float.Model.UnpackedFloat

variable {c k n u : Nat} {x : Float}

section Nearest

theorem divNearest_le (n d : Nat) : divNearest n d ≤ n / d + 1 := by
  simp only [divNearest]
  split
  · exact Nat.le_succ _
  · exact Nat.le_refl _

/-- A bound by a power of two bounds the code. -/
theorem nearestCode_le_of_lt (h : n < 2 ^ (53 + k)) : nearestCode n 1 ≤ (k + 2) * binade := by
  have hlog : n.log2 ≤ 52 + k := log2_le_of_lt (Nat.add_right_comm .. ▸ h)
  have hstep : n.log2 - 52 ≤ k := by omega
  have hq : n / 2 ^ (n.log2 - 52) < 2 * binade := by
    refine Nat.div_lt_of_lt_mul (Nat.lt_of_lt_of_le Nat.lt_log2_self ?_)
    change _ ≤ 2 ^ (n.log2 - 52) * 2 ^ 53
    rw [← Nat.pow_add]
    exact Nat.pow_le_pow_right (by decide) (by omega)
  have hround := divNearest_le n (2 ^ (n.log2 - 52))
  calc
    nearestCode n 1 ≤ (n.log2 - 52) * binade + divNearest n (2 ^ (n.log2 - 52)) := by
      simp only [nearestCode, Nat.div_one, Nat.one_mul]
      exact Nat.min_le_left ..
    _ ≤ k * binade + 2 * binade :=
      Nat.add_le_add (Nat.mul_le_mul_right _ hstep) (by omega)
    _ = (k + 2) * binade := (Nat.add_mul ..).symm

end Nearest

section Sign

theorem isFinite_neg (hx : x.isFinite) : (-x).isFinite := by
  change (Float.ofModel (.pack x.toModel.unpack.neg)).isFinite
  rw [isFinite_pack]
  change x.toModel.unpack.isFinite = true at hx
  generalize hu : x.toModel.unpack = u at hx
  cases u with
  | notANumber | infinity => cases hx
  | zero => trivial
  | finite => exact (unpack_finite_le hu).2

theorem isFinite_withSign (negative : Bool) (hx : x.isFinite) :
    (withSign negative x).isFinite := by
  cases negative with
  | false => exact hx
  | true => exact isFinite_neg hx

end Sign

section Round

/-- The exponent of one stays a variable, so that nothing computes the power. -/
theorem one_eq (hk : k = 1074) : one = 2 ^ k := by
  unfold one
  generalize 1074 = i at hk
  exact hk ▸ rfl

theorem one_pos : 0 < one := by
  unfold one
  generalize 1074 = k
  exact Nat.two_pow_pos k

theorem wholeNearest_mul_one (n : Nat) : wholeNearest (n * one) = n := by
  rw [wholeNearest, ← Nat.mul_assoc, ← Nat.succ_mul, Nat.mul_div_mul_right _ _ one_pos]
  omega

theorem wholeNearest_le (h : u < n * one) : wholeNearest u ≤ n := by
  refine Nat.le_of_lt_succ (Nat.div_lt_of_lt_mul ?_)
  rw [Nat.succ_eq_add_one, Nat.mul_add, Nat.mul_one, Nat.mul_assoc, Nat.mul_comm one]
  have := one_pos
  omega

/-- From `2 ^ 52` on doubles are whole. The others are fewer than `2 ^ 52` ones. -/
theorem unitsOfCode_whole_or_lt (c : Nat) :
    (∃ n, unitsOfCode c = n * one) ∨ unitsOfCode c < binade * one := by
  obtain ⟨k, hk⟩ : ∃ k, k = 1074 := ⟨_, rfl⟩
  rw [one_eq hk, unitsOfCode]
  split
  next hlt =>
    exact Or.inr (Nat.lt_of_lt_of_le hlt (Nat.le_mul_of_pos_right _ (Nat.two_pow_pos k)))
  next =>
    rcases Nat.lt_or_ge k (c / binade) with hc | hc
    · refine Or.inl ⟨(binade + c % binade) * 2 ^ (c / binade - 1 - k), ?_⟩
      rw [Nat.mul_assoc, ← Nat.pow_add, Nat.sub_add_cancel (by omega)]
      rfl
    · have hmod := Nat.mod_lt c (y := binade) (by decide)
      refine Or.inr ?_
      calc
        (binade + c % binade) * 2 ^ (c / binade - 1) < 2 * binade * 2 ^ (c / binade - 1) :=
          Nat.mul_lt_mul_of_pos_right (by omega) (Nat.two_pow_pos _)
        _ ≤ 2 * binade * 2 ^ (k - 1) :=
          Nat.mul_le_mul_left _ (Nat.pow_le_pow_right (by decide) (by omega))
        _ = binade * 2 ^ (k - 1 + 1) := by
          rw [Nat.pow_succ']
          ac_rfl
        _ = binade * 2 ^ k := by rw [Nat.sub_add_cancel (by omega)]

/-- The nearest whole number to a finite double is a finite double. -/
theorem nearestCode_wholeNearest (h : c < infinity) :
    nearestCode (wholeNearest (unitsOfCode c) * one) 1 < infinity := by
  rcases unitsOfCode_whole_or_lt c with ⟨n, hn⟩ | hlt
  · rw [hn, wholeNearest_mul_one, ← hn, nearestCode_unitsOfCode h]
    exact h
  · obtain ⟨k, hk⟩ : ∃ k, k = 1074 := ⟨_, rfl⟩
    have hsmall : wholeNearest (unitsOfCode c) * one < 2 ^ (53 + k) := by
      refine Nat.lt_of_le_of_lt (Nat.mul_le_mul_right _ (wholeNearest_le hlt)) ?_
      rw [Nat.pow_add, ← one_eq hk]
      exact Nat.mul_lt_mul_of_pos_right (by decide) one_pos
    refine Nat.lt_of_le_of_lt (nearestCode_le_of_lt hsmall) ?_
    rw [hk]
    decide

theorem isFinite_round (hx : x.isFinite) : (round x).isFinite := by
  rw [round, roundMagnitude, if_pos hx]
  exact isFinite_withSign _ (isFinite_ofCode (nearestCode_wholeNearest (isFinite_iff.mp hx)))

end Round

section Word

/-- The whole part of a number, truncated toward zero. -/
def truncated (x : Float) : Int :=
  if isNegative x then -(units x / one : Nat) else (units x / one : Nat)

theorem toInt_toWord (hx : x.isFinite) (hl : -2 ^ 63 ≤ truncated x) (hu : truncated x < 2 ^ 63) :
    (toWord x).toInt = truncated x := by
  have hnan : x.isNaN = false := (Layout.isNaN_eq_false_and_isInf_eq_false hx).1
  have clamped : toWord x = Int64.ofIntClamp (truncated x) := by
    rw [toWord, hnan]
    rfl
  rw [clamped, Int64.toInt_ofIntClamp hl (Int.le_of_lt_add_one hu)]

end Word

end Reckoner.Number
