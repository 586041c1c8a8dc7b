import Monkey.RuntimeError

/-!
What operators, indexing and the builtins make of values. None of them runs a
program or changes anything: an operation has a value or an error, and a
vector that it makes is new, so that its operands stay as they are.
-/

namespace Monkey

/-- `!` takes any value; `-` takes an integer. -/
def UnaryOp.apply : UnaryOp → Value → Except RuntimeError Value
  | .bang, v => .ok (.bool !v.isTruthy)
  | .minus, .int n =>
    match Integer.neg? n with
    | some m => .ok (.int m)
    | none => .error (.negationOverflow n)
  | .minus, v => .error (.negation v.type)

namespace BinaryOp

/-- An integer result, or an overflow if there is none. -/
def checked (op : BinaryOp) (a b : Int64) : Option Int64 → Except RuntimeError Value
  | some n => .ok (.int n)
  | none => .error (.overflow op a b)

def applyInt (op : BinaryOp) (a b : Int64) : Except RuntimeError Value :=
  match op with
  | .plus => op.checked a b (Integer.add? a b)
  | .minus => op.checked a b (Integer.sub? a b)
  | .multiply => op.checked a b (Integer.mul? a b)
  | .divide =>
    if b = 0 then .error (.divisionByZero a) else op.checked a b (Integer.div? a b)
  | .lessThan => .ok (.bool (a < b))
  | .greaterThan => .ok (.bool (b < a))
  | .equal => .ok (.bool (a == b))
  | .notEqual => .ok (.bool (a != b))

def applyStr (op : BinaryOp) (s t : String) : Except RuntimeError Value :=
  match op with
  | .plus => .ok (.str (s ++ t))
  | .equal => .ok (.bool (s == t))
  | .notEqual => .ok (.bool (s != t))
  | op => .error (.unknownOperator op .str .str)

/-- Two integers and two strings have operators of their own. Any other two
values can only be compared, by identity. -/
def apply (op : BinaryOp) : Value → Value → Except RuntimeError Value
  | .int a, .int b => op.applyInt a b
  | .str s, .str t => op.applyStr s t
  | v, w =>
    match op with
    | .equal => .ok (.bool (v.isIdentical w))
    | .notEqual => .ok (.bool !(v.isIdentical w))
    | op =>
      if v.type = w.type then .error (.unknownOperator op v.type w.type)
      else .error (.typeMismatch op v.type w.type)

end BinaryOp

namespace Value

/-- The element at an index. There is none before the first and after the
last. -/
def elementAt? (elements : List Value) (i : Int64) : Option Value :=
  if 0 ≤ i.toInt then elements[i.toInt.toNat]? else none

/-- `v[i]`: what is not in a vector or dict is `null`. -/
def index : Value → Value → Except RuntimeError Value
  | .vector _ elements, .int i => .ok ((elementAt? elements i).getD .null)
  | .dict _ entries, v =>
    match v.key? with
    | some key => .ok ((Dict.get? entries key).getD .null)
    | none => .error (.unusableKey v.type)
  | v, w => .error (.notIndexable v.type w.type)

end Value

namespace Builtin

/-- The number of characters, elements or entries. -/
def callLen : Value → Except RuntimeError Value
  | .str text => .ok (.int (Int64.ofNat text.length))
  | .vector _ elements => .ok (.int (Int64.ofNat elements.length))
  | .dict _ entries => .ok (.int (Int64.ofNat entries.length))
  | v => .error (.noLength v.type)

/-- The elements of the argument of a builtin that wants a vector. -/
def elements (b : Builtin) : Value → Except RuntimeError (List Value)
  | .vector _ elements => .ok elements
  | v => .error (.notVector b v.type)

/-- A call of a builtin. If the result is a new vector, `id` is its
identity. -/
def call (b : Builtin) (id : Nat) (args : List Value) : Except RuntimeError Value :=
  match b, args with
  | .len, [v] => callLen v
  | .first, [v] => do
    let elements ← b.elements v
    return elements.head?.getD .null
  | .last, [v] => do
    let elements ← b.elements v
    return elements.getLast?.getD .null
  | .rest, [v] => do
    match ← b.elements v with
    | [] => return .null
    | _ :: tail => return .vector id tail
  | .push, [v, w] => do
    let elements ← b.elements v
    return .vector id (elements ++ [w])
  | .push, args => .error (.wrongBuiltinArity 2 args.length)
  | _, args => .error (.wrongBuiltinArity 1 args.length)

end Builtin

end Monkey
