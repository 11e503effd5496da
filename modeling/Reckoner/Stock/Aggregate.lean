import Reckoner.Number.Integral

/-! Stock functions of any number of arguments. -/
namespace Reckoner.Stock

/-- Left to right. The empty sum is the zero that changes no other number, which is negative. -/
def sum (values : List Float) : Float := values.foldl (· + ·) (-0.0)

/-- Refuses an empty list of arguments. -/
def nonempty (name : String) (f : Float → List Float → Float) :
    List Float → Except String Float
  | [] => .error (name ++ " requires at least one argument")
  | value :: values => .ok (f value values)

def avg : List Float → Except String Float :=
  nonempty "avg" fun value values =>
    sum (value :: values) / Float.ofNat (value :: values).length

def min : List Float → Except String Float :=
  nonempty "min" fun value values => values.foldl Number.lesser value

def max : List Float → Except String Float :=
  nonempty "max" fun value values => values.foldl Number.greater value

def count (values : List Float) : Float := Float.ofNat values.length

def aggregates : List (String × (List Float → Except String Float)) :=
  [("sum", fun values => .ok (sum values)), ("avg", avg), ("min", min), ("max", max),
    ("count", fun values => .ok (count values))]

end Reckoner.Stock
