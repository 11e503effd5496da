import Reckoner.Number.Code

/-! The length of a hypotenuse, rounded once. -/
namespace Reckoner.Number

/-- The whole part of a square root. -/
def sqrtBelow (n : Nat) : Nat :=
  if n = 0 then 0
  else
    let root := 2 * sqrtBelow (n / 4)
    if (root + 1) * (root + 1) ≤ n then root + 1 else root
termination_by n

/-- Four times the square root of `s`, where an odd answer stands for every value strictly between
its even neighbours. Four times a halfway point of two doubles is even, so the answer rounds as the
root does. -/
def sqrtMarked (s : Nat) : Nat :=
  let root := sqrtBelow (4 * s)
  if root * root = 4 * s then 2 * root else 2 * root + 1

/-- An infinite side outweighs one that is not a number. -/
def hypotenuse (x y : Float) : Float :=
  if x.isInf || y.isInf then 1.0 / 0.0
  else if x.isNaN || y.isNaN then 0.0 / 0.0
  else ofUnits (sqrtMarked (units x * units x + units y * units y)) 4

end Reckoner.Number
