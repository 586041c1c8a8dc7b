import Monkey.Proofs.RoundTrip
import Monkey.Value.Inspect

/-!
Values that are shown as expressions. Integers, truth values, functions, and vectors and
dicts of these are shown by a text that is a literal of the language. A function is shown
as its literal is rendered, but other values need not be: a negative integer is shown
without the parentheses in which its literal, a minus sign before a numeral, is rendered.
So it is the texts of values that are derived for their literals here, in the same way as
renderings are.
-/

namespace Monkey

open Text

/-- The expression that an integer is shown as. A numeral has no sign. -/
def Integer.literal (n : Int64) : Expr :=
  if 0 ≤ n.toInt then .int n else .unary .minus (.int (-n))

def Key.literal : Key → Expr
  | .int n => Integer.literal n
  | .str text => .str text
  | .bool b => .bool b

/-- The least integer is the opposite of no integer, and a string is shown without its
quotes. -/
def Key.Readable : Key → Prop
  | .int n => n ≠ Int64.minValue
  | .str _ => False
  | .bool _ => True

namespace Value

mutual

/-- The expression that a value is shown as, if it is a readable one. -/
def literal : Value → Expr
  | .int n => Integer.literal n
  | .bool b => .bool b
  | .function _ params body _ => .function params body
  | .vector _ vs => .vector (literalEach vs)
  | .dict _ es => .dict (literalEntries es)
  | .str text => .str text
  | .null | .returned _ | .builtin _ | .error _ => default

def literalEach : List Value → List Expr
  | [] => []
  | v :: vs => v.literal :: literalEach vs

def literalEntries : List (Key × Value) → List (Expr × Expr)
  | [] => []
  | (key, v) :: es => (key.literal, v.literal) :: literalEntries es

end

mutual

/-- What the value is shown as can be read back. -/
def Readable : Value → Prop
  | .int n => n ≠ Int64.minValue
  | .bool _ => True
  | .function _ params body _ => (∀ name ∈ params, IsName name) ∧ Block.Canonical body
  | .vector _ vs => EachReadable vs
  | .dict _ es => EntriesReadable es
  | .str _ | .null | .returned _ | .builtin _ | .error _ => False

def EachReadable : List Value → Prop
  | [] => True
  | v :: vs => v.Readable ∧ EachReadable vs

def EntriesReadable : List (Key × Value) → Prop
  | [] => True
  | (key, v) :: es => key.Readable ∧ v.Readable ∧ EntriesReadable es

end

/-- A function is written alike as a value and as a literal, whether its body is empty or
not. -/
theorem inspect_function (id : Nat) (params : List String) (body : Block) (scope : ScopeId) :
    (Value.function id params body scope).inspect = (Expr.function params body).render := by
  have hempty : ") \x7b\x7d" = ") " ++ "\x7b\x7d" := rfl
  have hopens : ") \x7b " = ") " ++ "\x7b " := rfl
  unfold inspect Expr.render Block.braced
  split
  · rw [hempty, String.append_assoc, String.append_assoc, String.append_assoc]
  · rw [hopens]
    simp only [String.append_assoc]

end Value

namespace Integer

variable {n : Int64}

theorem toInt_neg (h : n ≠ Int64.minValue) : (-n).toInt = -n.toInt := by
  have hmin : n.toInt ≠ Int64.minValue.toInt := fun heq => h (Int64.toInt_inj.mp heq)
  rw [Int64.toInt_minValue] at hmin
  have hle := n.le_toInt
  have hlt := n.toInt_lt
  rw [Int64.toInt_neg]
  exact Int.bmod_eq_of_le (by omega) (by omega)

/-- A negative integer is its opposite with a minus sign before it. -/
theorem text_of_neg (h : n ≠ Int64.minValue) (hn : n.toInt < 0) :
    text n = "-" ++ text (-n) := by
  obtain ⟨k, hk⟩ := Int.eq_negSucc_of_lt_zero hn
  unfold text
  rw [toInt_neg h, hk]
  rfl

theorem literal_writtenAs (h : n ≠ Int64.minValue) : (literal n).WrittenAs (text n) := by
  intro r hr
  unfold literal
  split
  · rename_i hn
    exact (derives_text hn hr).widen (Nat.zero_le _)
  · rename_i hn
    have hneg := Int.lt_of_not_ge hn
    have htokens : tokens ((text n).toList ++ r) =
        .symbol UnaryOp.minus.symbol :: tokens ((text (-n)).toList ++ r) := by
      rw [text_of_neg h hneg, String.toList_append, List.append_assoc]
      exact tokens_symbol .minus (by simp)
    have hopposite : 0 ≤ (-n).toInt := by
      rw [toInt_neg h]
      omega
    -- A minus sign makes an expression of a looser layer, but not of the loosest one.
    have hoperand := (derives_text hopposite hr).widen (m := .unary) (by decide)
    rw [htokens]
    exact (Derives.unary hoperand).widen (Nat.zero_le _)

end Integer

theorem Key.literal_writtenAs {key : Key} (h : key.Readable) :
    key.literal.WrittenAs key.inspect := by
  cases key with
  | int n => exact Integer.literal_writtenAs h
  | str text => cases h
  | bool b => exact (rendered_bool b).writtenAs

namespace Value

theorem literalEach_eq_nil_iff (vs : List Value) :
    literalEach vs = [] ↔ inspectEach vs = [] := by
  cases vs <;> simp [literalEach, inspectEach]

theorem literalEntries_eq_nil_iff (es : List (Key × Value)) :
    literalEntries es = [] ↔ inspectEntries es = [] := by
  cases es <;> simp [literalEntries, inspectEntries]

mutual

theorem literal_writtenAs : (v : Value) → v.Readable → v.literal.WrittenAs v.inspect
  | .int n, h => Integer.literal_writtenAs h
  | .bool b, _ => (rendered_bool b).writtenAs
  | .function id params body scope, ⟨hparams, hbody⟩ => by
    have hrendered := rendered_function hparams (Block.rendered_of_canonical body hbody)
    rw [inspect_function]
    exact hrendered.writtenAs
  | .vector _ vs, h => fun r _ =>
    (written_vector (literalEach_writtenAs vs h) r).widen (Nat.zero_le _)
  | .dict _ es, h => fun r _ =>
    (written_dict (literalEntries_writtenAs es h) r).widen (Nat.zero_le _)

theorem literalEach_writtenAs : (vs : List Value) → EachReadable vs →
    Expr.EachWrittenAs (literalEach vs) (inspectEach vs)
  | [], _ => written_noExprs
  | v :: vs, ⟨hv, hvs⟩ =>
    written_moreExprs (v.literal_writtenAs hv) (literalEach_writtenAs vs hvs)
      (literalEach_eq_nil_iff vs)

theorem literalEntries_writtenAs : (es : List (Key × Value)) → EntriesReadable es →
    Expr.PairsWrittenAs (literalEntries es) (inspectEntries es)
  | [], _ => written_noPairs
  | (key, v) :: es, ⟨hkey, hv, hes⟩ =>
    written_morePairs (key.literal_writtenAs hkey) (v.literal_writtenAs hv)
      (literalEntries_writtenAs es hes) (literalEntries_eq_nil_iff es)

end

/-- What a readable value is shown as is parsed to its literal. -/
theorem parse_inspect {v : Value} (h : v.Readable) :
    parse v.inspect = ([.expr v.literal], []) := by
  have hderives := v.literal_writtenAs h [] splits_nil
  rw [List.append_nil, tokens_nil] at hderives
  apply parse_of_derives
  exact .moreStatements (.unended (.bare hderives) (by simp)) .noStatements

end Value

end Monkey
