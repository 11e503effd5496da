/-! Doubles without their sign, coded by their bits. Codes have the order of the values, and a finite
double is a whole multiple of the smallest positive one, the unit. -/
namespace Reckoner.Number

/-- Units in one: `2 ^ 1074`. -/
def one : Nat := Nat.pow 2 1074

/-- The doubles with one exponent have this many codes: `2 ^ 52`. -/
def binade : Nat := Nat.pow 2 52

/-- The code of infinity. Smaller codes are those of the finite doubles. -/
def infinity : Nat := 2047 * binade

def signBit : Nat := Nat.pow 2 63

def code (x : Float) : Nat := x.toBits.toNat % signBit

def ofCode (c : Nat) : Float := Float.ofBits (UInt64.ofNat c)

/-- The sign tells the two zeros apart. -/
def isNegative (x : Float) : Bool := signBit ≤ x.toBits.toNat

def withSign (negative : Bool) (x : Float) : Float := if negative then -x else x

/-- The units of a finite double. The first binade counts them. In a later one the significand
follows a leading bit, and from the third on the distance of neighbours doubles. -/
def unitsOfCode (c : Nat) : Nat :=
  if c < binade then c else (binade + c % binade) * Nat.pow 2 (c / binade - 1)

def units (x : Float) : Nat := unitsOfCode (code x)

/-- The whole number nearest to `n / d`; a half goes to the even neighbour. -/
def divNearest (n d : Nat) : Nat :=
  let q := n / d
  let r := n % d
  if 2 * r < d ∨ 2 * r = d ∧ q % 2 = 0 then q else q + 1

/-- The code of the double nearest to `n / d` units, infinite beyond the largest one. Doubles near
`u` units lie `2 ^ step` units apart; a significand that is rounded up to the next power of two
carries into the next binade. -/
def nearestCode (n d : Nat) : Nat :=
  let step := (n / d).log2 - 52
  min (step * binade + divNearest n (d * Nat.pow 2 step)) infinity

def ofUnits (n d : Nat) : Float := ofCode (nearestCode n d)

/-- The double nearest to `n / d`. -/
def ofRatio (n d : Nat) : Float := ofUnits (n * one) d

/-- The double nearest to a whole number. -/
def ofInt (n : Int) : Float := withSign (n < 0) (ofRatio n.natAbs 1)

end Reckoner.Number
