import Reckoner.Number.Layout
import Reckoner.Operator

/-! Tokens of an infix expression and their written form. -/
namespace Reckoner

/-- A call is one token that holds the tokens of its arguments. -/
inductive Token
  | operand (value : Float)
  | operator (op : Operator)
  | leftParen
  | rightParen
  | call (name : String) (arguments : List (List Token))
  deriving Inhabited

namespace Token

inductive Kind
  | operand
  | operator
  | leftParen
  | rightParen
  | call
  deriving DecidableEq

def kind : Token → Kind
  | operand _ => .operand
  | operator _ => .operator
  | leftParen => .leftParen
  | rightParen => .rightParen
  | call .. => .call

def Kind.all : List Kind := [.operand, .operator, .leftParen, .rightParen, .call]

def Kind.name : Kind → String
  | .operand => "Operand"
  | .operator => "Operator"
  | .leftParen => "LeftParen"
  | .rightParen => "RightParen"
  | .call => "FunctionCall"

mutual

def chars : Token → List Char
  | operand value => Layout.plain.chars value
  | operator op => [op.symbol]
  | leftParen => ['(']
  | rightParen => [')']
  | call name arguments =>
    name.toList ++ '(' :: (List.intercalate [',', ' '] (charsOfArguments arguments) ++ [')'])

def charsOfSequence : List Token → List (List Char)
  | [] => []
  | token :: tokens => token.chars :: charsOfSequence tokens

def charsOfArguments : List (List Token) → List (List Char)
  | [] => []
  | argument :: arguments =>
    List.intercalate [' '] (charsOfSequence argument) :: charsOfArguments arguments

end

def text (token : Token) : String := String.ofList token.chars

mutual

/-- Operands are compared as numbers: zeros of both signs agree, and what is not a number differs
from itself. -/
def same : Token → Token → Bool
  | operand x, operand y => x == y
  | operator p, operator q => p = q
  | leftParen, leftParen => true
  | rightParen, rightParen => true
  | call f xs, call g ys => f = g && sameArguments xs ys
  | _, _ => false

def sameSequence : List Token → List Token → Bool
  | [], [] => true
  | x :: xs, y :: ys => same x y && sameSequence xs ys
  | _, _ => false

def sameArguments : List (List Token) → List (List Token) → Bool
  | [], [] => true
  | x :: xs, y :: ys => sameSequence x y && sameArguments xs ys
  | _, _ => false

end

instance : BEq Token := ⟨same⟩

end Token

/-- The written form of a sequence: one space between two tokens. -/
def renderChars (tokens : List Token) : List Char :=
  List.intercalate [' '] (tokens.map Token.chars)

def render (tokens : List Token) : String := String.ofList (renderChars tokens)

namespace Token

theorem charsOfSequence_eq_map (tokens : List Token) :
    charsOfSequence tokens = tokens.map chars := by
  induction tokens with
  | nil => rfl
  | cons _ _ ih => simp [charsOfSequence, ih]

theorem charsOfArguments_eq_map (arguments : List (List Token)) :
    charsOfArguments arguments = arguments.map renderChars := by
  induction arguments with
  | nil => rfl
  | cons _ _ ih => simp [charsOfArguments, ih, charsOfSequence_eq_map, renderChars]

theorem chars_call (name : String) (arguments : List (List Token)) :
    (call name arguments).chars =
      name.toList
        ++ '(' :: (List.intercalate [',', ' '] (arguments.map renderChars) ++ [')']) := by
  rw [chars, charsOfArguments_eq_map]

end Token

end Reckoner
