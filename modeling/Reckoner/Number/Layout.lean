import Reckoner.Number.Literal

/-! The text of a double. -/
namespace Reckoner

/-- The choices between texts of one number. -/
structure Layout where
  /-- Where the leading digit may stand in positional form: at the first place or above it, and
  below the second. Without bounds no number has an exponent. -/
  positional : Option (Int × Int)
  /-- The fraction of a whole number in positional form. -/
  wholeFraction : List Char

namespace Layout

/-- Numbers in rendered text and messages are positional, and whole ones have no point. -/
def plain : Layout := ⟨none, []⟩

/-- Numbers in inspected values have a point or an exponent. -/
def inspected : Layout := ⟨some (-4, 16), ['0']⟩

variable (l : Layout)

def isPositional (d : Decimal) : Bool :=
  l.positional.all fun (low, high) => decide (low ≤ d.leading ∧ d.leading < high)

def positionalChars (d : Decimal) : List Char :=
  let literal := Literal.ofDecimal d
  if literal.fraction.isEmpty then { literal with fraction := l.wholeFraction }.chars
  else literal.chars

/-- One digit before the point, the others behind it, then the exponent. -/
def exponentChars (d : Decimal) : List Char :=
  let digits := Nat.toDigits 10 d.coefficient
  Literal.chars ⟨digits.take 1, digits.drop 1⟩ ++ 'e' :: (toString d.leading).toList

def magnitude (x : Float) : List Char :=
  let d := Decimal.shortest (Number.code x)
  if l.isPositional d then l.positionalChars d else exponentChars d

def chars (x : Float) : List Char :=
  if x.isNaN then ['N', 'a', 'N']
  else
    (if Number.isNegative x then ['-'] else [])
      ++ if x.isInf then ['i', 'n', 'f'] else l.magnitude x

def text (x : Float) : String := String.ofList (l.chars x)

end Layout

end Reckoner
