import Reckoner.Token.Inspection

/-! Records of what a computation has done, for a host that watches it. -/
namespace Reckoner

inductive Level
  | debug
  | trace
  deriving DecidableEq

inductive Record
  /-- An expression is about to be scanned. -/
  | tokenizing (expression : String)
  /-- A token of some fragment ends before the given position of that fragment. -/
  | scanned (token : Token) (stop : Nat)
  /-- A call and its arguments have been scanned. -/
  | scannedCall (name : String) (arguments : Nat)
  | tokenized (expression : String) (tokens : Nat)
  /-- A function is about to be invoked. -/
  | calling (name : String) (values : List Float)
  | returned (name : String) (value : Float)
  /-- A sequence without calls has been put into postfix order. -/
  | ordered (postfixed : List Token)
  | rendered (postfixed : List Token)
  /-- An operator has been applied. -/
  | reduced (left : Float) (op : Operator) (right value : Float)
  | evaluated (expression : String) (value : Float)

namespace Record

def level : Record → Level
  | scanned .. | ordered _ | reduced .. => .trace
  | _ => .debug

def text : Record → String
  | tokenizing expression => "Tokenizing expression: " ++ expression
  | scanned token stop => "Token " ++ token.inspect ++ " ends at " ++ toString stop
  | scannedCall name arguments =>
    "Function call " ++ name ++ " with " ++ toString arguments ++ " argument(s)"
  | tokenized expression tokens =>
    "Tokenized " ++ Text.quoted expression ++ " into " ++ toString tokens ++ " token(s)"
  | calling name values =>
    "Calling " ++ name ++ bracketed (values.map Layout.inspected.text)
  | returned name value => name ++ " returned " ++ Layout.plain.text value
  | ordered postfixed => "Postfix: " ++ bracketed (postfixed.map Token.inspect)
  | rendered postfixed => "Postfix: " ++ render postfixed
  | reduced left op right value =>
    Layout.plain.text left ++ " " ++ op.text ++ " " ++ Layout.plain.text right ++ " = "
      ++ Layout.plain.text value
  | evaluated expression value => expression ++ " = " ++ Layout.plain.text value

end Record

end Reckoner
