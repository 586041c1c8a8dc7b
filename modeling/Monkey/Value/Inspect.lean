import Monkey.Syntax.Render
import Monkey.Value

/-!
Values as the language shows them. A string is shown without quotes, also
inside vectors and dicts, and a function by its literal.
-/

namespace Monkey

open Text

def Key.inspect : Key → String
  | .int n => Integer.text n
  | .str text => text
  | .bool b => if b then "true" else "false"

namespace Value

mutual

def inspect : Value → String
  | .int n => Integer.text n
  | .str text => text
  | .bool b => if b then "true" else "false"
  | .null => "null"
  | .returned v => v.inspect
  | .function _ params body _ =>
    if body.isEmpty then "fn(" ++ commaSeparated params ++ ") \x7b\x7d"
    else "fn(" ++ commaSeparated params ++ ") \x7b " ++ Block.render body ++ " \x7d"
  | .vector _ vs => "[" ++ commaSeparated (inspectEach vs) ++ "]"
  | .dict _ es => "\x7b" ++ commaSeparated (inspectEntries es) ++ "\x7d"
  | .builtin b => "builtin function: " ++ b.name
  | .error message => "ERROR: " ++ message

def inspectEach : List Value → List String
  | [] => []
  | v :: vs => v.inspect :: inspectEach vs

def inspectEntries : List (Key × Value) → List String
  | [] => []
  | (k, v) :: es => (k.inspect ++ ": " ++ v.inspect) :: inspectEntries es

end

end Value

end Monkey
