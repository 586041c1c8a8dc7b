import Monkey.Dict
import Monkey.Syntax

/-!
The values of Monkey. Functions, vectors and dicts are objects: besides their
contents they have an identity, a number that no other object shares, and `==`
in the language compares them by it.

Two kinds of value only say that something ends early: an error, and the
operand of a `return` on its way to the call or program that it leaves. They
are called abrupt.
-/

namespace Monkey

/-- A scope is named by its place in the store. -/
abbrev ScopeId := Nat

/-- The functions that are always there. -/
inductive Builtin where
  | len | first | last | rest | push
  deriving DecidableEq

def Builtin.name : Builtin → String
  | .len => "len"
  | .first => "first"
  | .last => "last"
  | .rest => "rest"
  | .push => "push"

def Builtin.ofName? (name : String) : Option Builtin :=
  match name with
  | "len" => some .len
  | "first" => some .first
  | "last" => some .last
  | "rest" => some .rest
  | "push" => some .push
  | _ => none

theorem Builtin.ofName?_name (b : Builtin) : Builtin.ofName? b.name = some b := by
  cases b <;> rfl

theorem Builtin.name_of_ofName? {name : String} {b : Builtin}
    (h : Builtin.ofName? name = some b) : b.name = name := by
  unfold Builtin.ofName? at h
  split at h <;> cases h <;> rfl

inductive Value where
  | int (n : Int64)
  | str (text : String)
  | bool (b : Bool)
  | null
  | returned (v : Value)
  /-- A function and the scope in which its literal was evaluated. -/
  | function (id : Nat) (params : List String) (body : Block) (scope : ScopeId)
  | vector (id : Nat) (elements : List Value)
  | dict (id : Nat) (entries : List (Key × Value))
  | builtin (b : Builtin)
  | error (message : String)

instance : Inhabited Value := ⟨.null⟩

/-- The types that values have. -/
inductive ValueType where
  | int | str | bool | null | returned | function | vector | dict | builtin | error
  deriving DecidableEq

def ValueType.name : ValueType → String
  | .int => "int"
  | .str => "str"
  | .bool => "bool"
  | .null => "null"
  | .returned => "return"
  | .function => "fn"
  | .vector => "vector"
  | .dict => "dict"
  | .builtin => "builtin"
  | .error => "error"

namespace Value

def type : Value → ValueType
  | .int _ => .int
  | .str _ => .str
  | .bool _ => .bool
  | .null => .null
  | .returned _ => .returned
  | .function .. => .function
  | .vector .. => .vector
  | .dict .. => .dict
  | .builtin _ => .builtin
  | .error _ => .error

def isError : Value → Bool
  | .error _ => true
  | _ => false

/-- Whether the value ends what is being evaluated. -/
def isAbrupt : Value → Bool
  | .error _ | .returned _ => true
  | _ => false

/-- `null` and `false` are the only values that do not count as true. -/
def isTruthy : Value → Bool
  | .null | .bool false => false
  | _ => true

/-- The key that a value is, if dicts may have it as one. -/
def key? : Value → Option Key
  | .int n => some (.int n)
  | .str text => some (.str text)
  | .bool b => some (.bool b)
  | _ => none

/-- What is left of a value where a `return` ends: its operand. -/
def unwrap : Value → Value
  | .returned v => v
  | v => v

/-- The equality of the language: objects are compared by identity, plain
values and builtins by what they are. An abrupt value is equal to nothing. -/
def isIdentical : Value → Value → Bool
  | .int m, .int n => m == n
  | .str s, .str t => s == t
  | .bool b, .bool c => b == c
  | .null, .null => true
  | .function i .., .function j .. => i == j
  | .vector i _, .vector j _ => i == j
  | .dict i _, .dict j _ => i == j
  | .builtin b, .builtin c => b == c
  | _, _ => false

mutual

/-- Equality of contents: vectors and dicts are compared element by element.
Functions are still compared by identity. -/
def equals : Value → Value → Bool
  | .int m, .int n => m == n
  | .str s, .str t => s == t
  | .bool b, .bool c => b == c
  | .null, .null => true
  | .returned v, .returned w => v.equals w
  | .function i .., .function j .. => i == j
  | .vector _ vs, .vector _ ws => equalsList vs ws
  | .dict _ es, .dict _ fs => equalsEntries es fs
  | .builtin b, .builtin c => b == c
  | .error m, .error n => m == n
  | _, _ => false

def equalsList : List Value → List Value → Bool
  | [], [] => true
  | v :: vs, w :: ws => v.equals w && equalsList vs ws
  | _, _ => false

def equalsEntries : List (Key × Value) → List (Key × Value) → Bool
  | [], [] => true
  | (k, v) :: es, (l, w) :: fs => k == l && v.equals w && equalsEntries es fs
  | _, _ => false

end

end Value

/-- The value that a key stands for. -/
def Key.value : Key → Value
  | .int n => .int n
  | .str text => .str text
  | .bool b => .bool b

end Monkey
