import Reckoner.Number.Code

/-! Decimal numbers, the double nearest to one, and the shortest one nearest to a double. -/
namespace Reckoner

/-- The number `coefficient * 10 ^ exponent`. -/
structure Decimal where
  coefficient : Nat
  exponent : Int
  deriving DecidableEq

namespace Decimal

/-- The code of the nearest double. -/
def code (d : Decimal) : Nat :=
  match d.exponent with
  | .ofNat e => Number.nearestCode (d.coefficient * Nat.pow 10 e * Number.one) 1
  | .negSucc e => Number.nearestCode (d.coefficient * Number.one) (Nat.pow 10 (e + 1))

def toFloat (d : Decimal) : Float := Number.ofCode d.code

/-- Moves trailing zeros of the coefficient into the exponent. -/
def trim (coefficient : Nat) (exponent : Int) : Decimal :=
  if coefficient = 0 then ⟨0, 0⟩
  else if coefficient % 10 = 0 then trim (coefficient / 10) (exponent + 1)
  else ⟨coefficient, exponent⟩
termination_by coefficient

/-- The value of `u` units is exactly `expansion u * 10 ^ -1074`. -/
def expansion (u : Nat) : Nat := u * Nat.pow 5 1074

/-- A point of the grid of all multiples of `10 ^ k`, counted in places of expansions. -/
def ofGrid (coefficient k : Nat) : Decimal := trim coefficient (Int.ofNat k - 1074)

/-- The two points around `n` of the grid of `10 ^ k`, the nearer one first; of two equally near
ones the upper. -/
def neighbours (n k : Nat) : List Decimal :=
  let low := ofGrid (n / Nat.pow 10 k) k
  let high := ofGrid (n / Nat.pow 10 k + 1) k
  if 2 * (n % Nat.pow 10 k) < Nat.pow 10 k then [low, high] else [high, low]

/-- Tries grids from coarse to fine for a point that reads back as the double coded by `c`, whose
expansion is `n`. The finest grid holds the double itself. -/
def search (c n : Nat) : (k : Nat) → Decimal
  | 0 => ofGrid n 0
  | k + 1 =>
    match (neighbours n (k + 1)).find? fun d => d.code = c with
    | some d => d
    | none => search c n k

/-- No less than the number of decimal digits of `n`, less one: `10 ^ 30103` exceeds
`2 ^ 100000`. -/
def digitBound (n : Nat) : Nat := n.log2 * 30103 / 100000 + 1

/-- Of the decimals that read back as the finite double coded by `c`, those with the fewest digits,
and of these the nearest one. -/
def shortest (c : Nat) : Decimal :=
  let n := expansion (Number.unitsOfCode c)
  search c n (digitBound n)

/-- Where the leading digit stands: the value lies in `10 ^ leading` up to `10 ^ (leading + 1)`. -/
def leading (d : Decimal) : Int := d.exponent + (Nat.toDigits 10 d.coefficient).length - 1

/-- What the search finds before the finest grid reads back. -/
theorem code_search (c n k : Nat) : (search c n k).code = c ∨ search c n k = ofGrid n 0 := by
  induction k with
  | zero => exact Or.inr rfl
  | succ k ih =>
    rw [search]
    split
    next h => exact Or.inl (by simpa using List.find?_some h)
    next => exact ih

end Decimal

end Reckoner
