import Reckoner.Failure
import Reckoner.Number.Integral

/-! The five binary operators. -/
namespace Reckoner

inductive Operator
  | modulo
  | divide
  | multiply
  | add
  | subtract
  deriving DecidableEq

namespace Operator

def all : List Operator := [modulo, divide, multiply, add, subtract]

/-- Binding strength. The remainder binds tighter than product and quotient. -/
def precedence : Operator → Nat
  | modulo => 3
  | divide | multiply => 2
  | add | subtract => 1

def symbol : Operator → Char
  | modulo => '%'
  | divide => '/'
  | multiply => '*'
  | add => '+'
  | subtract => '-'

def name : Operator → String
  | modulo => "Modulo"
  | divide => "Divide"
  | multiply => "Multiply"
  | add => "Add"
  | subtract => "Subtract"

def ofSymbol? (c : Char) : Option Operator := all.find? fun op => op.symbol = c

def text (op : Operator) : String := op.symbol.toString

def divisor (op : Operator) (right : Float) : Except Failure Float :=
  if right == 0.0 then .error { cause := .divisionByZero, token := some op.text } else .ok right

/-- A zero on the right, of either sign, divides nothing. The result may be any double. -/
def apply (op : Operator) (left right : Float) : Except Failure Float :=
  match op with
  | add => .ok (left + right)
  | subtract => .ok (left - right)
  | multiply => .ok (left * right)
  | divide => (left / ·) <$> op.divisor right
  | modulo => Number.remainder left <$> op.divisor right

/-- Evaluation admits finite results only. -/
def combine (op : Operator) (left right : Float) : Except Failure Float :=
  match op.apply left right with
  | .error failure => .error failure
  | .ok value =>
    if value.isFinite then .ok value
    else .error { cause := .overflow, token := some op.text }

theorem ofSymbol?_symbol (op : Operator) : ofSymbol? op.symbol = some op := by
  cases op <;> rfl

theorem symbol_of_ofSymbol? {c : Char} {op : Operator} (h : ofSymbol? c = some op) :
    op.symbol = c := by
  simpa using List.find?_some h

end Operator

end Reckoner
