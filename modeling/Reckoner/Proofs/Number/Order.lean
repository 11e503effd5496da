import Mathlib
import Reckoner.Number.Integral

/-! The order of doubles. What is not a number has no place in it, and the zeros of both signs have
the same one. -/
namespace Reckoner.Number

open Float.Model (UnpackedFloat)
open Float.Model.UnpackedFloat

/-- The place of a number: its side of zero, beyond which the infinities lie, then the exponent,
then the significand. -/
def rank : UnpackedFloat → ℤ ×ₗ ℤ ×ₗ ℤ
  | .infinity .negative => toLex (-2, toLex (0, 0))
  | .finite .negative m e _ => toLex (-1, toLex (-e, -m))
  | .notANumber | .zero _ => toLex (0, toLex (0, 0))
  | .finite .positive m e _ => toLex (1, toLex (e, m))
  | .infinity .positive => toLex (2, toLex (0, 0))

section Unpacked

variable {u v : UnpackedFloat}

theorem compare_toLex (a b c a' b' c' : ℤ) :
    compare (toLex (a, toLex (b, c))) (toLex (a', toLex (b', c'))) =
      (compare a a').then ((compare b b').then (compare c c')) := by
  simp only [Prod.Lex.compare_def, compareLex, compareOn, ofLex_toLex]

theorem compare_neg (a b : ℤ) : compare (-a) (-b) = (compare a b).swap := by
  rw [← Std.OrientedOrd.eq_swap, ← cmp_eq_compare, ← cmp_eq_compare]
  exact strictMono_id.neg.cmp_map_eq a b

theorem compare_natCast (a b : ℕ) : compare (a : ℤ) b = compare a b := by
  rw [← cmp_eq_compare, ← cmp_eq_compare]
  exact Nat.strictMono_cast.cmp_map_eq a b

theorem compare_eq_some (hu : u.isNaN = false) (hv : v.isNaN = false) :
    u.compare v = some (compare (rank u) (rank v)) := by
  rcases u with s | _ | s | ⟨s, m, e, hm⟩
  case notANumber => cases hu
  all_goals rcases v with t | _ | t | ⟨t, m', e', hm'⟩
  case finite.finite =>
    cases s <;> cases t <;>
      simp only [UnpackedFloat.compare, rank, compare_toLex, compare_neg, compare_natCast,
        Ordering.swap_then] <;> rfl
  case infinity.notANumber | zero.notANumber | finite.notANumber => cases hv
  all_goals
    cases s <;> cases t <;> simp only [UnpackedFloat.compare, rank, compare_toLex] <;> rfl

theorem compare_eq_none (h : u.isNaN ∨ v.isNaN) : u.compare v = none := by
  rcases h with h | h
  · cases u <;> simp [UnpackedFloat.isNaN] at h
    rfl
  · cases v <;> simp [UnpackedFloat.isNaN] at h
    cases u <;> rfl

/-- A comparison tests the order of the places. -/
theorem any_compare_iff (p : Ordering → Bool) :
    (u.compare v).any p ↔
      (u.isNaN = false ∧ v.isNaN = false) ∧ p (compare (rank u) (rank v)) := by
  by_cases h : u.isNaN = false ∧ v.isNaN = false
  · rw [compare_eq_some h.1 h.2, Option.any_some, and_iff_right h]
  · have nan : u.isNaN ∨ v.isNaN := by
      rcases not_and_or.mp h with h | h
      · exact Or.inl (by simpa using h)
      · exact Or.inr (by simpa using h)
    simp [compare_eq_none nan, h]

theorem unpacked_le_iff :
    u.le v ↔ (u.isNaN = false ∧ v.isNaN = false) ∧ rank u ≤ rank v := by
  rw [UnpackedFloat.le, any_compare_iff, Ordering.isLE_iff_ne_gt, compare_gt_iff_gt, not_lt]

theorem unpacked_lt_iff :
    u.lt v ↔ (u.isNaN = false ∧ v.isNaN = false) ∧ rank u < rank v := by
  have test : u.lt v = (u.compare v).any (· == .lt) := by
    rw [UnpackedFloat.lt]
    cases u.compare v <;> rfl
  rw [test, any_compare_iff, beq_iff_eq, compare_lt_iff_lt]

theorem unpacked_beq_iff :
    u.beq v ↔ (u.isNaN = false ∧ v.isNaN = false) ∧ rank u = rank v := by
  have test : u.beq v = (u.compare v).any (· == .eq) := by
    rw [UnpackedFloat.beq]
    cases u.compare v <;> rfl
  rw [test, any_compare_iff, beq_iff_eq, compare_eq_iff_eq]

end Unpacked

variable {x y z : Float}

theorem le_iff : x ≤ y ↔
    (x.isNaN = false ∧ y.isNaN = false) ∧ rank x.toModel.unpack ≤ rank y.toModel.unpack := by
  have test : x ≤ y ↔ x.toModel.unpack.le y.toModel.unpack := decide_eq_true_iff
  rw [test, unpacked_le_iff]
  rfl

theorem lt_iff : x < y ↔
    (x.isNaN = false ∧ y.isNaN = false) ∧ rank x.toModel.unpack < rank y.toModel.unpack := by
  have test : x < y ↔ x.toModel.unpack.lt y.toModel.unpack := decide_eq_true_iff
  rw [test, unpacked_lt_iff]
  rfl

theorem beq_iff : x == y ↔
    (x.isNaN = false ∧ y.isNaN = false) ∧ rank x.toModel.unpack = rank y.toModel.unpack :=
  unpacked_beq_iff

/-- An order of the numbers, from the small ones to the large ones or the other way round. Two that
precede each other compare equal. -/
structure Orders (r : Float → Float → Prop) : Prop where
  total : ∀ {x y : Float}, x.isNaN = false → y.isNaN = false → r x y ∨ r y x
  trans : ∀ {x y z : Float}, r x y → r y z → r x z
  antisymm : ∀ {x y : Float}, r x y → r y x → x == y

theorem Orders.refl {r : Float → Float → Prop} (h : Orders r) (hx : x.isNaN = false) : r x x :=
  or_self_iff.mp (h.total hx hx)

theorem orders_le : Orders (· ≤ ·) where
  total := by
    intro x y hx hy
    rcases le_total (rank x.toModel.unpack) (rank y.toModel.unpack) with h | h
    · exact Or.inl (le_iff.mpr ⟨⟨hx, hy⟩, h⟩)
    · exact Or.inr (le_iff.mpr ⟨⟨hy, hx⟩, h⟩)
  trans := by
    intro x y z hxy hyz
    obtain ⟨hn, hxy⟩ := le_iff.mp hxy
    obtain ⟨hm, hyz⟩ := le_iff.mp hyz
    exact le_iff.mpr ⟨⟨hn.1, hm.2⟩, hxy.trans hyz⟩
  antisymm := by
    intro x y hxy hyx
    obtain ⟨hn, hxy⟩ := le_iff.mp hxy
    obtain ⟨-, hyx⟩ := le_iff.mp hyx
    exact beq_iff.mpr ⟨hn, le_antisymm hxy hyx⟩

theorem orders_ge : Orders (· ≥ ·) where
  total := fun hx hy => orders_le.total hy hx
  trans := fun hxy hyz => orders_le.trans hyz hxy
  antisymm := fun hxy hyx => orders_le.antisymm hyx hxy

theorem lt_iff_not_le : x < y ↔ (x.isNaN = false ∧ y.isNaN = false) ∧ ¬ y ≤ x := by
  rw [lt_iff, le_iff]
  apply and_congr_right
  rintro ⟨hx, hy⟩
  rw [and_iff_right ⟨hy, hx⟩, not_le]

/-- What picks one of two doubles: the other one when one of them is not a number, and else one of
the two that precedes both. -/
structure Selects (r : Float → Float → Prop) (select : Float → Float → Float) : Prop where
  left : ∀ {x y : Float}, y.isNaN → select x y = x
  right : ∀ {x y : Float}, x.isNaN → select x y = y
  either : ∀ x y : Float, select x y = x ∨ select x y = y
  first : ∀ {x y : Float}, x.isNaN = false → y.isNaN = false →
    r (select x y) x ∧ r (select x y) y

/-- The first one is picked if it strictly precedes the second. -/
theorem Orders.selects {r s : Float → Float → Prop} [DecidableRel s] (h : Orders r)
    (hs : ∀ x y, s x y ↔ (x.isNaN = false ∧ y.isNaN = false) ∧ ¬ r y x) :
    Selects r fun x y => if y.isNaN then x else if s x y then x else y where
  left := fun hy => if_pos hy
  right := by
    intro x y hx
    have unordered : ¬ s x y := by
      intro hxy
      have number := ((hs x y).mp hxy).1.1
      rw [hx] at number
      cases number
    by_cases hy : y.isNaN
    · -- there is one double that is not a number
      rw [Float.isNaN_eq_decide_eq_nan, decide_eq_true_iff] at hx hy
      rw [hx, hy, ite_self, ite_self]
    · rw [if_neg hy, if_neg unordered]
  either := by
    intro x y
    split
    · exact Or.inl rfl
    · split
      · exact Or.inl rfl
      · exact Or.inr rfl
  first := by
    intro x y hx hy
    have number : ¬ y.isNaN := by simp only [hy, Bool.false_eq_true, not_false_iff]
    rw [if_neg number]
    split
    next hxy =>
      have before : r x y := (h.total hx hy).resolve_right ((hs x y).mp hxy).2
      exact ⟨h.refl hx, before⟩
    next hxy =>
      have behind : r y x := by
        by_contra hyx
        exact hxy ((hs x y).mpr ⟨⟨hx, hy⟩, hyx⟩)
      exact ⟨behind, h.refl hy⟩

theorem selects_lesser : Selects (· ≤ ·) lesser :=
  orders_le.selects fun _ _ => lt_iff_not_le

theorem selects_greater : Selects (· ≥ ·) greater :=
  orders_ge.selects fun _ _ => lt_iff_not_le.trans (and_congr_left fun _ => and_comm)

end Reckoner.Number
