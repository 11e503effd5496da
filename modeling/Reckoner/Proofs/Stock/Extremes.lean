import Reckoner.Stock.Aggregate
import Reckoner.Proofs.Number.Order

/-! The least and the greatest of several doubles, in whatever order these come. What is not a
number is passed over as long as there is a number. -/
namespace Reckoner.Stock

open Number (Orders Selects)

variable {r : Float → Float → Prop} {select : Float → Float → Float}
  {values others : List Float} {x y : Float}

/-- One of the values. It is a number if one of them is, and then it precedes all numbers. -/
structure Picked (r : Float → Float → Prop) (values : List Float) (x : Float) : Prop where
  mem : x ∈ values
  isNaN_iff : x.isNaN ↔ ∀ y ∈ values, y.isNaN
  first : ∀ y ∈ values, y.isNaN = false → r x y

theorem picked_singleton (hr : Orders r) : Picked r [x] x where
  mem := List.mem_singleton_self x
  isNaN_iff := by simp only [List.forall_mem_singleton]
  first := by
    intro y hy hn
    obtain rfl := List.mem_singleton.mp hy
    exact hr.refl hn

theorem Picked.concat_isNaN_iff (h : Picked r values x) (y : Float) :
    (∀ z ∈ values ++ [y], z.isNaN) ↔ x.isNaN ∧ y.isNaN := by
  rw [List.forall_mem_append, List.forall_mem_singleton, h.isNaN_iff]

/-- A value that is the first number, if it is one. -/
theorem Picked.renew (h : Picked r values x) (hr : Orders r) (hx : x.isNaN) (y : Float) :
    Picked r (values ++ [y]) y := by
  refine ⟨by simp, ?_, ?_⟩
  · rw [h.concat_isNaN_iff, and_iff_right hx]
  · intro z hz hn
    rcases List.mem_append.mp hz with hz | hz
    · have nan := h.isNaN_iff.mp hx z hz
      rw [hn] at nan
      cases nan
    · exact (picked_singleton hr).first z hz hn

theorem Picked.keep (h : Picked r values x) (hy : y.isNaN) : Picked r (values ++ [y]) x := by
  refine ⟨List.mem_append_left _ h.mem, ?_, ?_⟩
  · rw [h.concat_isNaN_iff, and_iff_left hy]
  · intro z hz hn
    rcases List.mem_append.mp hz with hz | hz
    · exact h.first z hz hn
    · obtain rfl := List.mem_singleton.mp hz
      rw [hn] at hy
      cases hy

/-- One more value, and the selection among it and what has been picked before. -/
theorem Picked.concat (hr : Orders r) (hs : Selects r select) (h : Picked r values x) (y : Float) :
    Picked r (values ++ [y]) (select x y) := by
  by_cases hx : x.isNaN
  · rw [hs.right hx]
    exact h.renew hr hx y
  by_cases hy : y.isNaN
  · rw [hs.left hy]
    exact h.keep hy
  rw [Bool.not_eq_true] at hx hy
  obtain ⟨hfirst, hsecond⟩ := hs.first hx hy
  refine ⟨?_, ?_, ?_⟩
  · rcases hs.either x y with he | he
    · rw [he]
      exact List.mem_append_left _ h.mem
    · rw [he]
      exact List.mem_append_right _ (List.mem_singleton_self y)
  · have number : (select x y).isNaN = false := by
      rcases hs.either x y with he | he
      · rw [he, hx]
      · rw [he, hy]
    rw [h.concat_isNaN_iff, number, hx]
    simp
  · intro z hz hn
    rcases List.mem_append.mp hz with hz | hz
    · exact hr.trans hfirst (h.first z hz hn)
    · obtain rfl := List.mem_singleton.mp hz
      exact hsecond

theorem Picked.foldl (hr : Orders r) (hs : Selects r select) (h : Picked r values x) :
    Picked r (values ++ others) (others.foldl select x) := by
  induction others generalizing values x with
  | nil => rwa [List.append_nil]
  | cons y others ih =>
    have next := ih (h.concat hr hs y)
    rwa [List.append_assoc, List.singleton_append] at next

/-- Picking from left to right picks from all values. -/
theorem exists_picked (name : String) (hr : Orders r) (hs : Selects r select) (hn : values ≠ []) :
    ∃ x, nonempty name (fun value values => values.foldl select value) values = .ok x ∧
      Picked r values x := by
  cases values with
  | nil => exact absurd rfl hn
  | cons value values => exact ⟨_, rfl, (picked_singleton hr).foldl hr hs⟩

theorem Picked.number (h : Picked r values x) (hn : ∃ y ∈ values, y.isNaN = false) :
    x.isNaN = false := by
  obtain ⟨y, hy, hnumber⟩ := hn
  by_contra hx
  have nan := h.isNaN_iff.mp (Bool.eq_true_of_not_eq_false hx) y hy
  rw [hnumber] at nan
  cases nan

/-- Of the same values in another order an equal one is picked. -/
theorem Picked.beq (hr : Orders r) (h : Picked r values x) (h' : Picked r others y)
    (hp : others.Perm values) (hn : ∃ z ∈ values, z.isNaN = false) : y == x := by
  have hx := h.number hn
  have hy : y.isNaN = false := by
    obtain ⟨z, hz, hnumber⟩ := hn
    exact h'.number ⟨z, hp.mem_iff.mpr hz, hnumber⟩
  apply hr.antisymm
  · exact h'.first x (hp.mem_iff.mpr h.mem) hx
  · exact h.first y (hp.mem_iff.mp h'.mem) hy

/-- The least and the greatest of any values but none exist. Each is one of the values, and a number
if one of these is. The least is then below all numbers and the greatest above them, and in another
order of the values both are equal to what they are in this one. -/
theorem extremes_picked (hn : values ≠ []) :
    ∃ least greatest, min values = .ok least ∧ max values = .ok greatest ∧
      Picked (· ≤ ·) values least ∧ Picked (· ≥ ·) values greatest ∧
      ((∃ x ∈ values, x.isNaN = false) → least ≤ greatest ∧
        ∀ others, others.Perm values → ∃ least' greatest', min others = .ok least' ∧
          max others = .ok greatest' ∧ least' == least ∧ greatest' == greatest) := by
  have hl := Number.selects_lesser
  have hg := Number.selects_greater
  obtain ⟨least, hmin, hleast⟩ := exists_picked "min" Number.orders_le hl hn
  obtain ⟨greatest, hmax, hgreatest⟩ := exists_picked "max" Number.orders_ge hg hn
  refine ⟨least, greatest, hmin, hmax, hleast, hgreatest, ?_⟩
  intro hnumber
  refine ⟨hleast.first greatest hgreatest.mem (hgreatest.number hnumber), ?_⟩
  intro others hp
  have hothers : others ≠ [] := by
    rintro rfl
    exact hn hp.nil_eq.symm
  obtain ⟨least', hmin', hleast'⟩ := exists_picked "min" Number.orders_le hl hothers
  obtain ⟨greatest', hmax', hgreatest'⟩ := exists_picked "max" Number.orders_ge hg hothers
  refine ⟨least', greatest', hmin', hmax', ?_, ?_⟩
  · exact hleast.beq Number.orders_le hleast' hp hnumber
  · exact hgreatest.beq Number.orders_ge hgreatest' hp hnumber

theorem extremes_picked_of_both_zeros :
    [0.0 / 0.0, 0.0, -0.0, 0.0 / 0.0] ≠ ([] : List Float) ∧
      (∃ x ∈ [0.0 / 0.0, 0.0, -0.0, 0.0 / 0.0], Float.isNaN x = false) ∧
      ∃ least greatest, min [0.0 / 0.0, 0.0, -0.0, 0.0 / 0.0] = .ok least ∧
        max [0.0 / 0.0, 0.0, -0.0, 0.0 / 0.0] = .ok greatest ∧ least ≤ greatest ∧
        ∃ least' greatest', min [0.0 / 0.0, -0.0, 0.0, 0.0 / 0.0] = .ok least' ∧
          max [0.0 / 0.0, -0.0, 0.0, 0.0 / 0.0] = .ok greatest' ∧ least' == least ∧
          greatest' == greatest := by
  have nonempty : [0.0 / 0.0, 0.0, -0.0, 0.0 / 0.0] ≠ ([] : List Float) := List.cons_ne_nil _ _
  have number : ∃ x ∈ [0.0 / 0.0, 0.0, -0.0, 0.0 / 0.0], Float.isNaN x = false :=
    ⟨0.0, by simp, by decide +kernel⟩
  obtain ⟨least, greatest, hmin, hmax, -, -, ordered⟩ := extremes_picked nonempty
  obtain ⟨hle, hperm⟩ := ordered number
  have reversed : [0.0 / 0.0, -0.0, 0.0, 0.0 / 0.0].Perm [0.0 / 0.0, 0.0, -0.0, 0.0 / 0.0] :=
    List.reverse_perm [0.0 / 0.0, 0.0, -0.0, 0.0 / 0.0]
  exact ⟨nonempty, number, least, greatest, hmin, hmax, hle, hperm _ reversed⟩

end Reckoner.Stock
