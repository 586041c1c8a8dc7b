import Monkey.Token

/-!
The ways in which a text can fail to be a program. An error tells of the word
where reading went wrong and of nothing else; reading goes on after it.
-/

namespace Monkey

inductive SyntaxError where
  /-- No expression starts with a word of this kind. -/
  | noExpression (found : Kind)
  | unexpected (expected found : Kind)
  /-- The numeral is larger than every integer. -/
  | integerTooLarge (digits : String)
  deriving DecidableEq

def SyntaxError.message : SyntaxError → String
  | .noExpression found => "no prefix parse function for " ++ found.name
  | .unexpected expected found =>
    "expected next token to be " ++ expected.name ++ ", got " ++ found.name ++ " instead"
  | .integerTooLarge digits => "could not parse " ++ digits ++ " as integer"

end Monkey
