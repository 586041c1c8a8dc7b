/-!
The integers of the language are the 64-bit signed ones. Arithmetic is exact:
it is done on unbounded integers, and a result outside the range is none at
all rather than a wrapped one. Numerals are decimal and have no sign.
-/

namespace Monkey.Integer

/-- The 64-bit integer of the given value, if there is one. -/
def ofInt? (n : Int) : Option Int64 :=
  if Int64.minValue.toInt ≤ n ∧ n ≤ Int64.maxValue.toInt then some (Int64.ofInt n) else none

/-- The integer that a numeral writes, if it is not too large. -/
def ofDigits? (digits : String) : Option Int64 :=
  let n := Nat.ofDigitChars 10 digits.toList 0
  if n ≤ Int64.maxValue.toInt.toNat then some (Int64.ofNat n) else none

/-- An integer in decimal, with a minus sign if it is negative. -/
def text (n : Int64) : String := toString n.toInt

def neg? (a : Int64) : Option Int64 := ofInt? (-a.toInt)

def add? (a b : Int64) : Option Int64 := ofInt? (a.toInt + b.toInt)

def sub? (a b : Int64) : Option Int64 := ofInt? (a.toInt - b.toInt)

def mul? (a b : Int64) : Option Int64 := ofInt? (a.toInt * b.toInt)

/-- The quotient rounded toward zero. The divisor must not be zero. -/
def div? (a b : Int64) : Option Int64 := ofInt? (a.toInt.tdiv b.toInt)

end Monkey.Integer
