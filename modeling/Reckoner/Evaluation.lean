import Reckoner.Postfix
import Reckoner.Run
import Reckoner.Token.Scan

/-! The value of an expression. Calls of a sequence are replaced by their values from left to right;
only then is the sequence put into postfix order and computed. -/
namespace Reckoner

namespace Registry

variable {σ : Type} (r : Registry σ)

/-- The value of a call whose arguments are evaluated by `evaluate`, which is missing where calls
are nested too deeply. The name is looked up before any argument is evaluated. -/
def call (evaluate : Option (List Token → Run σ Float)) (name : String)
    (arguments : List (List Token)) : Run σ Float :=
  match evaluate, r.get? name with
  | none, _ => .fail { cause := .nestingTooDeep, token := some name }
  | some _, none => .fail { cause := .unknownFunction, token := some name }
  | some evaluate, some f => do
    let values ← arguments.mapM evaluate
    .emit (.calling name values)
    match ← Run.invoke f values with
    | .error message =>
      .fail { cause := .functionFailed, token := some name, detail := some message }
    | .ok value =>
      if value.isFinite then do
        .emit (.returned name value)
        pure value
      else .fail { cause := .nonFiniteResult, token := some name }

/-- A call becomes the operand that holds its value. -/
def resolve (evaluate : Option (List Token → Run σ Float)) : Token → Run σ Token
  | .call name arguments => Token.operand <$> r.call evaluate name arguments
  | token => pure token

def postfixBy (evaluate : Option (List Token → Run σ Float)) (tokens : List Token) :
    Run σ (List Token) :=
  if tokens.isEmpty then .fail (.of .emptyExpression)
  else do
    let resolved ← tokens.mapM (r.resolve evaluate)
    let postfixed ← Logged.ofExcept (Postfix.ofInfix resolved)
    .emit (.ordered postfixed)
    .emit (.rendered postfixed)
    pure postfixed

/-- The value of a sequence in which calls may be nested `levels` deep. -/
def valueWithin (levels : Nat) (tokens : List Token) : Run σ Float := do
  let postfixed ← r.postfixBy
    (match levels with | 0 => none | levels + 1 => some (valueWithin levels)) tokens
  Postfix.value postfixed

/-- The postfix order of a sequence in which calls may be nested `levels` deep. -/
def postfixWithin (levels : Nat) : List Token → Run σ (List Token) :=
  r.postfixBy (match levels with | 0 => none | levels + 1 => some (r.valueWithin levels))

theorem valueWithin_eq (levels : Nat) (tokens : List Token) :
    r.valueWithin levels tokens = (do
      let postfixed ← r.postfixWithin levels tokens
      Postfix.value postfixed) := by
  cases levels <;> rw [valueWithin, postfixWithin]

def evaluateTokens (tokens : List Token) : Run σ Float := r.valueWithin nestingLimit tokens

def toPostfix (expression : String) : Run σ (List Token) := do
  let tokens ← tokenizeExpression expression
  r.postfixWithin nestingLimit tokens

def evaluate (expression : String) : Run σ Float := do
  let tokens ← tokenizeExpression expression
  let value ← r.evaluateTokens tokens
  .emit (.evaluated expression value)
  pure value

end Registry

end Reckoner
