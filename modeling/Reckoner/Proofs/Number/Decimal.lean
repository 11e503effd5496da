import Reckoner.Number.Decimal
import Reckoner.Proofs.Number.Bits

/-! The nearest double depends on the value of a ratio alone, and is exact on doubles. Hence the
shortest decimal of a double reads back as that double. -/
namespace Reckoner

namespace Number

variable {n d k c : Nat}

theorem divNearest_mul (hk : 0 < k) : divNearest (k * n) (k * d) = divNearest n d := by
  have tie (a b : Nat) : k * a = k * b ↔ a = b := Nat.mul_right_inj (by omega)
  simp only [divNearest, Nat.mul_div_mul_left _ _ hk, Nat.mul_mod_mul_left,
    Nat.mul_left_comm 2 k, Nat.mul_lt_mul_left hk, tie]

theorem divNearest_self_mul (hd : 0 < d) : divNearest (d * n) d = n := by
  simp [divNearest, Nat.mul_div_cancel_left n hd, hd]

theorem nearestCode_mul (hk : 0 < k) : nearestCode (k * n) (k * d) = nearestCode n d := by
  simp only [nearestCode, Nat.mul_div_mul_left _ _ hk, Nat.mul_assoc k, divNearest_mul hk]

theorem nearestCode_ten_pow_mul (k n d : Nat) :
    nearestCode (10 ^ k * n) (10 ^ k * d) = nearestCode n d :=
  nearestCode_mul (Nat.pow_pos (by decide))

/-- A significand with its leading bit, `k` places further up. -/
theorem nearestCode_significand {m : Nat} (hl : binade ≤ m) (hu : m < 2 * binade)
    (h : k * binade + m ≤ infinity) : nearestCode (m * 2 ^ k) 1 = k * binade + m := by
  have log : (m * 2 ^ k).log2 = 52 + k := by
    have hm : m ≠ 0 := by
      rintro rfl
      exact absurd hl (by decide)
    have hk : 2 ^ k ≠ 0 := Nat.pos_iff_ne_zero.mp (Nat.two_pow_pos k)
    rw [Nat.log2_eq_iff (Nat.mul_ne_zero hm hk), Nat.pow_add, Nat.add_right_comm,
      Nat.pow_add 2 (52 + 1)]
    exact ⟨Nat.mul_le_mul_right _ hl, Nat.mul_lt_mul_of_pos_right hu (Nat.two_pow_pos k)⟩
  have exact : divNearest (m * 2 ^ k) (2 ^ k) = m := by
    rw [Nat.mul_comm]
    exact divNearest_self_mul (Nat.two_pow_pos k)
  simp only [nearestCode, Nat.div_one, log, Nat.add_sub_cancel_left, Nat.one_mul]
  rw [show Nat.pow 2 k = 2 ^ k from rfl, exact, Nat.min_eq_left h]

/-- The units of a double are nearest to that double. -/
theorem nearestCode_unitsOfCode (h : c < infinity) : nearestCode (unitsOfCode c) 1 = c := by
  rw [unitsOfCode]
  split
  next hc =>
    have log : c.log2 - 52 = 0 := by
      by_cases h0 : c = 0
      · rw [h0]
        decide
      · have := (Nat.log2_lt h0).mpr hc
        omega
    have exact : divNearest c 1 = c := by simpa using divNearest_self_mul (n := c) (d := 1)
    simp only [nearestCode, Nat.div_one, log]
    simpa [exact] using Nat.min_eq_left (Nat.le_of_lt h)
  next hc =>
    have parts := Nat.div_add_mod c binade
    have hmod := Nat.mod_lt c (y := binade) (by decide)
    have hq : 0 < c / binade := Nat.div_pos (by omega) (by decide)
    have value : (c / binade - 1) * binade + (binade + c % binade) = c := by
      rw [← Nat.add_assoc, ← Nat.succ_mul, Nat.succ_eq_add_one, Nat.sub_add_cancel hq,
        Nat.mul_comm, parts]
    rw [show Nat.pow 2 (c / binade - 1) = 2 ^ (c / binade - 1) from rfl,
      nearestCode_significand (by omega) (by omega) (by omega), value]

theorem nearestCode_le (n d : Nat) : nearestCode n d ≤ infinity := Nat.min_le_right ..

end Number

namespace Decimal

open Number

variable {m p q k c : Nat} {e : Int}

/-- The code of a decimal whose exponent is a difference. -/
theorem code_sub : code ⟨m, (p : Int) - q⟩ = nearestCode (m * 10 ^ p * one) (10 ^ q) := by
  by_cases h : q ≤ p
  · obtain ⟨r, rfl⟩ := Nat.exists_eq_add_of_le h
    have he : ((q + r : Nat) : Int) - q = Int.ofNat r := by
      rw [Int.ofNat_eq_natCast]
      omega
    rw [he, code]
    generalize one = u
    calc
      nearestCode (m * 10 ^ r * u) 1
          = nearestCode (10 ^ q * (m * 10 ^ r * u)) (10 ^ q * 1) :=
        (nearestCode_ten_pow_mul ..).symm
      _ = nearestCode (m * 10 ^ (q + r) * u) (10 ^ q) := by
        rw [Nat.mul_one, Nat.pow_add]
        ac_rfl
  · obtain ⟨r, rfl⟩ := Nat.exists_eq_add_of_lt (Nat.lt_of_not_le h)
    have he : (p : Int) - (p + r + 1 : Nat) = Int.negSucc r := by omega
    rw [he, code]
    generalize one = u
    calc
      nearestCode (m * u) (10 ^ (r + 1))
          = nearestCode (10 ^ p * (m * u)) (10 ^ p * 10 ^ (r + 1)) :=
        (nearestCode_ten_pow_mul ..).symm
      _ = nearestCode (m * 10 ^ p * u) (10 ^ (p + r + 1)) := by
        rw [← Nat.pow_add, Nat.add_assoc]
        ac_rfl

/-- Zeros move between coefficient and exponent. -/
theorem code_shift : code ⟨m * 10 ^ k, e⟩ = code ⟨m, e + k⟩ := by
  obtain ⟨p, q, rfl⟩ : ∃ p q : Nat, e = (p : Int) - q := ⟨e.toNat, (-e).toNat, by omega⟩
  have he : (p : Int) - q + k = (p + k : Nat) - (q : Int) := by omega
  rw [he, code_sub, code_sub, Nat.add_comm p k, Nat.pow_add, Nat.mul_assoc m]

theorem code_zero : code ⟨0, e⟩ = 0 := by
  obtain ⟨p, q, rfl⟩ : ∃ p q : Nat, e = (p : Int) - q := ⟨e.toNat, (-e).toNat, by omega⟩
  have hq := Nat.pow_pos (n := q) (show 0 < 10 by decide)
  simp [code_sub, nearestCode, divNearest, hq]

theorem code_trim (m : Nat) (e : Int) : (trim m e).code = code ⟨m, e⟩ := by
  fun_induction trim m e with
  | case1 e => rw [code_zero, code_zero]
  | case2 m e h0 h10 ih =>
    have hm : m / 10 * 10 ^ 1 = m := Nat.div_mul_cancel (Nat.dvd_of_mod_eq_zero h10)
    rw [ih, ← Int.natCast_one, ← code_shift, hm]
  | case3 m e => rfl

theorem code_expansion (u k : Nat) :
    nearestCode (u * Nat.pow 5 k * 10 ^ 0 * Nat.pow 2 k) (10 ^ k) = nearestCode u 1 := by
  have hk : Nat.pow 5 k * Nat.pow 2 k = 10 ^ k := (Nat.mul_pow 5 2 k).symm
  rw [Nat.pow_zero, Nat.mul_one, Nat.mul_assoc, hk, Nat.mul_comm]
  simpa using nearestCode_ten_pow_mul k u 1

/-- The finest grid holds every double: a unit is `5 ^ 1074` of its points. -/
theorem code_ofGrid_zero (h : c < infinity) :
    (ofGrid (expansion (unitsOfCode c)) 0).code = c := by
  have he : Int.ofNat 0 - 1074 = ((0 : Nat) : Int) - (1074 : Nat) := rfl
  rw [ofGrid, code_trim, he, code_sub]
  unfold expansion one
  generalize 1074 = k
  rw [code_expansion, nearestCode_unitsOfCode h]

/-- Whatever the search settles on reads back. -/
theorem code_shortest (h : c < infinity) : (shortest c).code = c := by
  obtain found | finest := code_search c (expansion (unitsOfCode c))
    (digitBound (expansion (unitsOfCode c)))
  · exact found
  · exact (congrArg code finest).trans (code_ofGrid_zero h)

theorem code_le (d : Decimal) : d.code ≤ infinity := by
  rw [code]
  split
  · exact nearestCode_le ..
  · exact nearestCode_le ..

end Decimal

end Reckoner
