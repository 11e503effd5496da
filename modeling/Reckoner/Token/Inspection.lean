import Reckoner.Text.Quoted
import Reckoner.Token

/-! The inspected form of tokens, which shows their structure. -/
namespace Reckoner

/-- Items between brackets, divided by commas. -/
def bracketed (items : List String) : String := "[" ++ ", ".intercalate items ++ "]"

namespace Token

mutual

def inspect : Token → String
  | operand value => "Operand(" ++ Layout.inspected.text value ++ ")"
  | operator op => "Operator(" ++ op.name ++ ")"
  | leftParen => "LeftParen"
  | rightParen => "RightParen"
  | call name arguments =>
    "FunctionCall \x7b name: " ++ Text.quoted name ++ ", arguments: "
      ++ bracketed (inspectArguments arguments) ++ " \x7d"

def inspectSequence : List Token → List String
  | [] => []
  | token :: tokens => token.inspect :: inspectSequence tokens

def inspectArguments : List (List Token) → List String
  | [] => []
  | argument :: arguments => bracketed (inspectSequence argument) :: inspectArguments arguments

end

end Token

end Reckoner
