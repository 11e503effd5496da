import Reckoner.Number.Integral

/-! Functions with a fixed list of parameters. -/
namespace Reckoner

/-- A parameter takes a number as it is, or the word that its whole part makes. -/
inductive Parameter
  | number
  | word
  deriving DecidableEq

namespace Parameter

abbrev Value : Parameter → Type
  | number => Float
  | word => Int64

def read : (p : Parameter) → Float → p.Value
  | number, x => x
  | word, x => Number.toWord x

/-- A function of the values of all parameters. -/
abbrev Function : List Parameter → Type
  | [] => Except String Float
  | p :: ps => p.Value → Function ps

/-- Gives a function its arguments; there is no answer unless they are as many as its
parameters. -/
def apply : {ps : List Parameter} → Function ps → List Float → Option (Except String Float)
  | [], answer, [] => some answer
  | p :: _, f, x :: xs => apply (f (p.read x)) xs
  | [], _, _ :: _ => none
  | _ :: _, _, [] => none

end Parameter

structure Procedure where
  name : String
  parameters : List Parameter
  body : Parameter.Function parameters

namespace Procedure

variable (p : Procedure)

def arityMessage (given : Nat) : String :=
  p.name ++ " expects " ++ toString p.parameters.length ++ " argument(s), but got "
    ++ toString given

def invoke (values : List Float) : Except String Float :=
  match Parameter.apply p.body values with
  | some answer => answer
  | none => .error (p.arityMessage values.length)

end Procedure

end Reckoner
