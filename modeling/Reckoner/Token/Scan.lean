import Reckoner.Logged
import Reckoner.Token.CallText
import Reckoner.Token.Grammar

/-! From text to tokens. A call's arguments are fragments of their own: each is scanned as if it
stood alone, one level further down. -/
namespace Reckoner

/-- Calls may be nested in each other this often. -/
def nestingLimit : Nat := 64

namespace Scan

open CallText Grammar

/-- A token, and how many characters belong to it after its first. -/
structure Lexeme where
  token : Token
  more : Nat

/-- Scans the text of an argument. -/
abbrev Scanner := List Char → Logged (List Token)

def isNameChar (c : Char) : Bool := c.isAlphanum || c == '_'

/-- A literal must not be followed by a point, and its value must be finite. -/
def number (start : Nat) (cs : List Char) : Except Failure Lexeme :=
  let (literal, rest) := Literal.read cs
  let width := literal.chars.length
  if rest.head? = some '.' then
    if literal.fraction.isEmpty then
      .error { cause := .misplacedPoint, index := some (start + width), token := some "." }
    else
      let token := String.ofList (literal.chars ++ ['.'])
      .error { cause := .malformedNumber, index := some (start + width), token := some token }
  else if literal.value.isFinite then .ok ⟨.operand literal.value, width - 1⟩
  else
    let token := String.ofList literal.chars
    .error { cause := .malformedNumber, index := some start, token := some token }

/-- A name must be followed by a parenthesis at once. The body is delimited and divided before any
argument is scanned; without a scanner for arguments no call is allowed. -/
def call (scanner : Option Scanner) (start : Nat) (cs : List Char) : Logged Lexeme :=
  let name := cs.takeWhile isNameChar
  let text := String.ofList name
  let paren := start + name.length
  match cs.dropWhile isNameChar with
  | '(' :: inside =>
    match scanner with
    | none => .fail { cause := .nestingTooDeep, index := some start, token := some text }
    | some scan =>
      match body 0 inside with
      | none => .fail { cause := .unclosedParen, index := some paren, token := some "(" }
      | some body =>
        match arguments body with
        | .error comma =>
          .fail { cause := .blankArgument, index := some (paren + 1 + comma), token := some "," }
        | .ok fragments => do
          let arguments ← fragments.mapM scan
          .emit (.scannedCall text arguments.length)
          pure ⟨.call text arguments, name.length + body.length + 1⟩
  | _ => .fail { cause := .nameWithoutCall, index := some paren, token := some text }

/-- The token that begins with `c` at position `start`, inside `opened` parentheses. -/
def lexeme (scanner : Option Scanner) (start opened : Nat) (c : Char) (cs : List Char) :
    Logged Lexeme :=
  if c = '(' then pure ⟨.leftParen, 0⟩
  else if c = ')' then
    if opened = 0 then
      .fail { cause := .unmatchedRightParen, index := some start, token := some ")" }
    else pure ⟨.rightParen, 0⟩
  else if c.isDigit || c == '.' then .ofExcept (number start (c :: cs))
  else if c.isAlpha then call scanner start (c :: cs)
  else
    match Operator.ofSymbol? c with
    | some op => pure ⟨.operator op, 0⟩
    | none =>
      .fail { cause := .unknownCharacter, index := some start, token := some c.toString }

def openedAfter (opened : Nat) : Token → Nat
  | .leftParen => opened + 1
  | .rightParen => opened - 1
  | _ => opened

def finish (opened : Nat) (place : Place) : Except Failure Unit :=
  if opened ≠ 0 then .error (.of .unclosedParen) else place.finish

/-- Scans a fragment from position `start` on. -/
def run (scanner : Option Scanner) (start opened : Nat) (place : Place) :
    List Char → Logged (List Token)
  | [] => (fun _ => []) <$> Logged.ofExcept (finish opened place)
  | c :: cs =>
    if Text.isWhitespace c then run scanner (start + 1) opened place cs
    else do
      let ⟨token, more⟩ ← lexeme scanner start opened c cs
      let stop := start + 1 + more
      Logged.emit (.scanned token stop)
      let place ← Logged.ofExcept (place.advance token.kind)
      (token :: ·) <$> run scanner stop (openedAfter opened token) place (cs.drop more)
termination_by cs => cs.length
decreasing_by
  · exact Nat.lt_succ_self cs.length
  · rw [List.length_drop]
    exact Nat.lt_succ_of_le (Nat.sub_le ..)

section run

variable {scanner : Option Scanner} {start opened : Nat} {place : Place} {c : Char}
  {cs : List Char}

theorem run_nil :
    run scanner start opened place [] =
      (fun _ => []) <$> Logged.ofExcept (finish opened place) := by
  unfold run
  rfl

theorem run_whitespace (h : Text.isWhitespace c) :
    run scanner start opened place (c :: cs) = run scanner (start + 1) opened place cs := by
  conv => lhs; unfold run
  exact if_pos h

theorem run_lexeme (h : ¬ Text.isWhitespace c) :
    run scanner start opened place (c :: cs) = (do
      let ⟨token, more⟩ ← lexeme scanner start opened c cs
      let stop := start + 1 + more
      Logged.emit (.scanned token stop)
      let place ← Logged.ofExcept (place.advance token.kind)
      (token :: ·) <$> run scanner stop (openedAfter opened token) place (cs.drop more)) := by
  conv => lhs; unfold run
  exact if_neg h

end run

/-- Scans a fragment in which calls may be nested `levels` deep. -/
def fragment : (levels : Nat) → Scanner
  | 0 => run none 0 0 .start
  | levels + 1 => run (some (fragment levels)) 0 0 .start

end Scan

/-- The tokens of a text. A blank text has none. -/
def tokenize (text : String) : Logged (List Token) := do
  .emit (.tokenizing text)
  let tokens ← Scan.fragment nestingLimit text.toList
  .emit (.tokenized text tokens.length)
  pure tokens

/-- The tokens of an expression, which must not be blank. -/
def tokenizeExpression (text : String) : Logged (List Token) :=
  if Text.isBlank text.toList then .fail (.of .emptyExpression) else tokenize text

end Reckoner
