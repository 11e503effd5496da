/-! Why an expression has no value, and the one sentence that says so. -/
namespace Reckoner

inductive Cause
  | divisionByZero
  | stackUnderflow
  | unknownCharacter
  | unmatchedRightParen
  | malformedNumber
  | misplacedPoint
  | nameWithoutCall
  | unclosedParen
  | misplacedToken
  | blankArgument
  | unknownFunction
  | nonFiniteResult
  | functionFailed
  | emptyExpression
  | leftoverOperands
  | unresolvedCall
  | overflow
  | nestingTooDeep
  deriving DecidableEq

def Cause.message : Cause → String
  | .divisionByZero => "Divides by 0"
  | .stackUnderflow => "Stack underflow"
  | .unknownCharacter => "Unrecognized character"
  | .unmatchedRightParen => "Mismatching parenthesis. Additional right parenthesis"
  | .malformedNumber => "Invalid number format"
  | .misplacedPoint => "Invalid location for decimal point"
  | .nameWithoutCall => "Invalid function declaration"
  | .unclosedParen => "Mismatching parenthesis. Missing right parenthesis"
  | .misplacedToken => "Invalid expression. Token is not allowed here"
  | .blankArgument => "Invalid argument declaration in function"
  | .unknownFunction => "Function is not registered"
  | .nonFiniteResult => "Function does not return a finite number"
  | .functionFailed => "Function call failed"
  | .emptyExpression => "Expression is empty"
  | .leftoverOperands => "Malformed expression. Operands left without an operator"
  | .unresolvedCall => "Function call was not resolved before evaluation"
  | .overflow => "Arithmetic result is not a finite number"
  | .nestingTooDeep => "Function calls are nested too deeply"

/-- A cause with whatever is known of the place: the index counts code points of the scanned
fragment, the token is the text at fault, the detail is the message of a host function. -/
structure Failure where
  cause : Cause
  index : Option Nat := none
  token : Option String := none
  detail : Option String := none
  deriving DecidableEq

namespace Failure

variable (f : Failure)

def of (cause : Cause) : Failure := { cause }

def located (cause : Cause) (index : Nat) : Failure := { cause, index := some index }

def withIndex (index : Nat) : Failure := { f with index := some index }

def withToken (token : String) : Failure := { f with token := some token }

def withDetail (detail : String) : Failure := { f with detail := some detail }

/-- What is known follows the cause in a fixed order: token, index, detail. -/
def message : String :=
  f.cause.message
    ++ (f.token.elim "" fun token => " '" ++ token ++ "'")
    ++ (f.index.elim "" fun index => " at index " ++ toString index)
    ++ (f.detail.elim "" fun detail => ": " ++ detail)

end Failure

end Reckoner
