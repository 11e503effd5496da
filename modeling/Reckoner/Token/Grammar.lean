import Reckoner.Token

/-! Which kinds of token may stand next to each other. Parentheses are balanced elsewhere. -/
namespace Reckoner.Grammar

open Token (Kind)

/-- All that the rules of adjacency need of the tokens before: whether there are any, and the kind
of the last one. -/
inductive Place
  | start
  | after (kind : Kind)
  deriving DecidableEq

namespace Place

/-- At the start, behind an operator and behind a left parenthesis a value is due. -/
def expectsValue : Place → Bool
  | start | after .operator | after .leftParen => true
  | after _ => false

def allowed (place : Place) : List Kind :=
  if place.expectsValue then [.operand, .leftParen, .call] else [.operator, .rightParen]

def accepts (place : Place) (kind : Kind) : Bool := place.allowed.contains kind

def advance (place : Place) (kind : Kind) : Except Failure Place :=
  if place.accepts kind then .ok (after kind) else .error (.of .misplacedToken)

/-- An expression may end where it has not begun, and wherever no value is due. -/
def finish (place : Place) : Except Failure Unit :=
  if place ≠ start ∧ place.expectsValue then .error (.of .misplacedToken) else .ok ()

end Place

end Reckoner.Grammar
