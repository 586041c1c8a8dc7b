import Monkey.Integer
import Monkey.Value

/-!
The ways in which a running program can fail. To the program an error is a
value that carries only its message; here it is the cause.
-/

namespace Monkey

inductive RuntimeError where
  | unbound (name : String)
  | negation (operand : ValueType)
  | negationOverflow (operand : Int64)
  | typeMismatch (op : BinaryOp) (left right : ValueType)
  | unknownOperator (op : BinaryOp) (left right : ValueType)
  | overflow (op : BinaryOp) (left right : Int64)
  | divisionByZero (dividend : Int64)
  | notFunction (found : ValueType)
  | wrongArity (expected found : Nat)
  | wrongBuiltinArity (expected found : Nat)
  | noLength (found : ValueType)
  | notVector (callee : Builtin) (found : ValueType)
  | unusableKey (found : ValueType)
  | notIndexable (collection key : ValueType)
  deriving DecidableEq

def RuntimeError.message : RuntimeError → String
  | .unbound name => "identifier not found: " ++ name
  | .negation operand => "unknown operator: -" ++ operand.name
  | .negationOverflow operand => "integer overflow: -" ++ Integer.text operand
  | .typeMismatch op left right =>
    "type mismatch: " ++ left.name ++ " " ++ op.text ++ " " ++ right.name
  | .unknownOperator op left right =>
    "unknown operator: " ++ left.name ++ " " ++ op.text ++ " " ++ right.name
  | .overflow op left right =>
    "integer overflow: " ++ Integer.text left ++ " " ++ op.text ++ " " ++ Integer.text right
  | .divisionByZero dividend => "division by zero: " ++ Integer.text dividend ++ " / 0"
  | .notFunction found => "not a function: " ++ found.name
  | .wrongArity expected found =>
    "wrong number of arguments: want=" ++ expected.repr ++ ", got=" ++ found.repr
  | .wrongBuiltinArity expected found =>
    "wrong number of arguments. expected=" ++ expected.repr ++ ", got=" ++ found.repr
  | .noLength found => "argument to `len` not supported, got=" ++ found.name
  | .notVector callee found =>
    "argument to `" ++ callee.name ++ "` must be vector, got=" ++ found.name
  | .unusableKey found => "unusable as dict key: " ++ found.name
  | .notIndexable collection key =>
    "index operator not supported: " ++ collection.name ++ "[" ++ key.name ++ "]"

end Monkey
