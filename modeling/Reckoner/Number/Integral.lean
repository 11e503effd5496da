import Reckoner.Number.Code

/-! Whole parts and remainders of doubles. All are exact; a double that is not finite is its own
whole part. -/
namespace Reckoner.Number

variable (x y : Float)

/-- The greatest whole number at or below a magnitude of `u` units. -/
def wholeBelow (u : Nat) : Nat := u / one

def wholeAbove (u : Nat) : Nat := (u + (one - 1)) / one

/-- The nearest whole number; a half goes up. -/
def wholeNearest (u : Nat) : Nat := (2 * u + one) / (2 * one)

/-- Rounds the magnitude and keeps the sign, also of a zero. -/
def roundMagnitude (rounding : Nat → Nat) : Float :=
  if x.isFinite then withSign (isNegative x) (ofRatio (rounding (units x)) 1) else x

def floor : Float := roundMagnitude x (if isNegative x then wholeAbove else wholeBelow)

def ceil : Float := roundMagnitude x (if isNegative x then wholeBelow else wholeAbove)

/-- A half goes away from zero. -/
def round : Float := roundMagnitude x wholeNearest

/-- The remainder of a division that truncates toward zero. It has the sign of the dividend. -/
def remainder : Float :=
  if x.isFinite then
    if y.isFinite then
      if units y = 0 then 0.0 / 0.0 else withSign (isNegative x) (ofUnits (units x % units y) 1)
    else if y.isNaN then y
    else x
  else 0.0 / 0.0

/-- The whole part in a signed 64-bit word: truncated toward zero, clamped to the word, and `0` for
what is not a number. -/
def toWord : Int64 :=
  if x.isNaN then 0
  else
    let whole := Int.ofNat (wholeBelow (units x))
    Int64.ofIntClamp (if isNegative x then -whole else whole)

/-- The smaller of two numbers; the other one when one of them is not a number, the second of two
equal ones. -/
def lesser : Float := if y.isNaN then x else if x < y then x else y

/-- The larger of two numbers, with the conventions of `lesser`. -/
def greater : Float := if y.isNaN then x else if y < x then x else y

end Reckoner.Number
