import Reckoner.Number.Decimal

/-! Number literals: digits, or digits around one decimal point. -/
namespace Reckoner

structure Literal where
  whole : List Char
  fraction : List Char
  deriving DecidableEq

namespace Literal

/-- The point is written only before a fraction. -/
def chars (l : Literal) : List Char :=
  if l.fraction.isEmpty then l.whole else l.whole ++ '.' :: l.fraction

def decimal (l : Literal) : Decimal :=
  ⟨Nat.ofDigitChars 10 (l.whole ++ l.fraction) 0, -Int.ofNat l.fraction.length⟩

def value (l : Literal) : Float := l.decimal.toFloat

/-- The longest literal at the start of a text, and what follows it. A point without a digit behind
it belongs to the rest. -/
def read (cs : List Char) : Literal × List Char :=
  let whole := cs.takeWhile Char.isDigit
  match cs.dropWhile Char.isDigit with
  | '.' :: behind =>
    let fraction := behind.takeWhile Char.isDigit
    if fraction.isEmpty then (⟨whole, []⟩, '.' :: behind)
    else (⟨whole, fraction⟩, behind.dropWhile Char.isDigit)
  | rest => (⟨whole, []⟩, rest)

/-- The positional form of a decimal. At least one digit stands before the point. -/
def ofDecimal (d : Decimal) : Literal :=
  let digits := Nat.toDigits 10 d.coefficient
  match d.exponent with
  | .ofNat e => ⟨digits ++ List.replicate e '0', []⟩
  | .negSucc e =>
    let digits := List.replicate (e + 2 - digits.length) '0' ++ digits
    ⟨digits.take (digits.length - (e + 1)), digits.drop (digits.length - (e + 1))⟩

variable {cs : List Char}

/-- Nothing is lost between the literal and the rest. -/
theorem chars_read_append : (read cs).1.chars ++ (read cs).2 = cs := by
  have parts := List.takeWhile_append_dropWhile (p := Char.isDigit) (l := cs)
  simp only [read]
  split
  next behind h =>
    have behindParts := List.takeWhile_append_dropWhile (p := Char.isDigit) (l := behind)
    rw [h] at parts
    split
    next => simpa [chars] using parts
    next hf => simpa [chars, hf, behindParts] using parts
  next => simp [chars]

theorem whole_read : (read cs).1.whole = cs.takeWhile Char.isDigit := by
  simp only [read]
  split
  · split <;> rfl
  · rfl

end Literal

end Reckoner
