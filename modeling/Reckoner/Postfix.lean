import Reckoner.Logged

/-! Postfix order: how an infix sequence is put into it, and its value. -/
namespace Reckoner.Postfix

/-- What waits for its place: an open parenthesis, or an operator whose right side is being read. -/
inductive Pending
  | paren
  | operator (op : Operator)
  deriving DecidableEq

/-- Takes off the operators that bind at least as tightly as `op`, innermost first. -/
def release (op : Operator) : List Pending → List Token × List Pending
  | .operator top :: pending =>
    if op.precedence ≤ top.precedence then
      let (released, rest) := release op pending
      (.operator top :: released, rest)
    else ([], .operator top :: pending)
  | pending => ([], pending)

/-- Takes off everything up to the nearest open parenthesis. -/
def close : List Pending → Except Failure (List Token × List Pending)
  | [] => .error (.of .stackUnderflow)
  | .paren :: pending => .ok ([], pending)
  | .operator op :: pending =>
    (close pending).map fun (released, rest) => (.operator op :: released, rest)

/-- Takes off everything. No parenthesis may be left open. -/
def drain : List Pending → Except Failure (List Token)
  | [] => .ok []
  | .paren :: _ => .error (.of .unclosedParen)
  | .operator op :: pending => (.operator op :: ·) <$> drain pending

def order (pending : List Pending) : List Token → Except Failure (List Token)
  | [] => drain pending
  | .operand value :: tokens => (.operand value :: ·) <$> order pending tokens
  | .leftParen :: tokens => order (.paren :: pending) tokens
  | .rightParen :: tokens => do
    let (released, rest) ← close pending
    (released ++ ·) <$> order rest tokens
  | .operator op :: tokens =>
    let (released, rest) := release op pending
    (released ++ ·) <$> order (.operator op :: rest) tokens
  | .call name _ :: _ => .error { cause := .unresolvedCall, token := some name }

/-- The postfix order of an infix sequence without calls. -/
def ofInfix (tokens : List Token) : Except Failure (List Token) := order [] tokens

/-- Runs a postfix sequence on a stack of values, the topmost first. -/
def run (stack : List Float) : List Token → Logged Float
  | [] =>
    match stack with
    | [] => .fail (.of .stackUnderflow)
    | [value] => pure value
    | _ => .fail (.of .leftoverOperands)
  | .operand value :: tokens => run (value :: stack) tokens
  | .operator op :: tokens =>
    match stack with
    | right :: left :: below => do
      let value ← Logged.ofExcept (op.combine left right)
      Logged.emit (.reduced left op right value)
      run (value :: below) tokens
    | _ => .fail (.of .stackUnderflow)
  | .call name _ :: _ => .fail { cause := .unresolvedCall, token := some name }
  | token :: _ => .fail { cause := .misplacedToken, token := some token.text }

def value (tokens : List Token) : Logged Float := run [] tokens

/-- An operator takes the two topmost values and leaves the result. -/
theorem result_run_operator (op : Operator) (left right : Float) (below : List Float)
    (tokens : List Token) :
    (run (right :: left :: below) (.operator op :: tokens)).result =
      op.combine left right >>= fun x => (run (x :: below) tokens).result := by
  simp only [run, Logged.result_bind, Logged.result_ofExcept, Logged.result_emit]
  rfl

end Reckoner.Postfix
