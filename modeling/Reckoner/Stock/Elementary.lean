import Reckoner.Number.Hypotenuse
import Reckoner.Number.Layout
import Reckoner.Procedure

/-! Stock functions of one or two numbers. -/
namespace Reckoner.Stock

/-- A function of one number that always has a value. -/
def unary (name : String) (f : Float → Float) : Procedure :=
  ⟨name, [.number], fun x => .ok (f x)⟩

def binary (name : String) (f : Float → Float → Float) : Procedure :=
  ⟨name, [.number, .number], fun x y => .ok (f x y)⟩

/-- Negative zero has a square root, itself. -/
def sqrt (x : Float) : Except String Float :=
  if x < 0.0 then .error ("Cannot take the square root of " ++ Layout.plain.text x)
  else .ok x.sqrt

/-- Rounds to decimal places by way of the number scaled up. -/
def roundTo (x : Float) (digits : Int64) : Except String Float :=
  if 0 ≤ digits ∧ digits ≤ 15 then
    let scale := Float.ofNat (Nat.pow 10 digits.toNatClampNeg)
    .ok (Number.round (x * scale) / scale)
  else .error ("round_to supports 0 to 15 digits, got " ++ toString digits.toInt)

def elementary : List Procedure :=
  [unary "abs" Float.abs, ⟨"sqrt", [.number], sqrt⟩, unary "floor" Number.floor,
    unary "ceil" Number.ceil, unary "round" Number.round,
    ⟨"round_to", [.number, .word], roundTo⟩, unary "exp" Float.exp, unary "ln" Float.log,
    unary "log10" Float.log10, binary "pow" Float.pow, binary "hypot" Number.hypotenuse,
    unary "sin" Float.sin, unary "cos" Float.cos, unary "tan" Float.tan]

end Reckoner.Stock
