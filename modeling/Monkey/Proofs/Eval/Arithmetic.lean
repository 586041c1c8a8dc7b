import Monkey.Eval.Depth
import Monkey.Proofs.Eval.Action
import Monkey.Session

/-!
Integer arithmetic. An expression of integers, negation and the four operators is
computed exactly: its operations are done in the order in which they are written,
operands first, and as long as the results are integers of the language the value is
that of unbounded arithmetic. The first operation without such a result ends the
computation with an error that names it.
-/

open Monkey.Action

namespace Monkey

namespace Integer

/-- What the 64 bits of an integer can hold. -/
def InRange (n : Int) : Prop := -9223372036854775808 ≤ n ∧ n ≤ 9223372036854775807

instance (n : Int) : Decidable (InRange n) := inferInstanceAs (Decidable (_ ∧ _))

theorem inRange_toInt (n : Int64) : InRange n.toInt :=
  ⟨n.le_toInt, Int.le_sub_one_of_lt n.toInt_lt⟩

theorem toInt_ofInt {n : Int} (h : InRange n) : (Int64.ofInt n).toInt = n :=
  Int64.toInt_ofInt_of_le h.1 (Int.lt_of_le_sub_one h.2)

theorem ofInt?_eq (n : Int) : ofInt? n = if InRange n then some (Int64.ofInt n) else none := by
  simp only [ofInt?, Int64.toInt_minValue, Int64.toInt_maxValue]
  by_cases h : InRange n
  · rw [if_pos h]
    exact if_pos h
  · rw [if_neg h]
    exact if_neg h

end Integer

open Integer

/-- The operators that compute integers from integers. -/
inductive ArithmeticOp where
  | add | sub | mul | div
  deriving DecidableEq

namespace ArithmeticOp

def toBinaryOp : ArithmeticOp → BinaryOp
  | .add => .plus
  | .sub => .minus
  | .mul => .multiply
  | .div => .divide

/-- The result on unbounded integers; a quotient is rounded toward zero. -/
def exact : ArithmeticOp → Int → Int → Int
  | .add, a, b => a + b
  | .sub, a, b => a - b
  | .mul, a, b => a * b
  | .div, a, b => a.tdiv b

end ArithmeticOp

/-- An operation and the integers that it is done on. -/
inductive Operation where
  | neg (operand : Int)
  | binary (op : ArithmeticOp) (left right : Int)
  deriving DecidableEq

namespace Operation

def result : Operation → Int
  | .neg a => -a
  | .binary op a b => op.exact a b

def DividesByZero : Operation → Prop
  | .binary .div _ b => b = 0
  | _ => False

instance : DecidablePred DividesByZero
  | .binary .div _ b => inferInstanceAs (Decidable (b = 0))
  | .binary .add _ _ | .binary .sub _ _ | .binary .mul _ _ | .neg _ =>
    inferInstanceAs (Decidable False)

/-- No divisor is zero, and the result is an integer of the language. -/
def Succeeds (o : Operation) : Prop := ¬ o.DividesByZero ∧ InRange o.result

instance : DecidablePred Succeeds := fun o =>
  inferInstanceAs (Decidable (¬ o.DividesByZero ∧ InRange o.result))

/-- What is said of the operation if it fails. -/
def message (o : Operation) : String :=
  match o with
  | .neg a => "integer overflow: -" ++ toString a
  | .binary op a b =>
    if o.DividesByZero then "division by zero: " ++ toString a ++ " / 0"
    else "integer overflow: " ++ toString a ++ " " ++ op.toBinaryOp.text ++ " " ++ toString b

/-- What an operation comes to. -/
def outcome (o : Operation) : Value :=
  if o.Succeeds then .int (Int64.ofInt o.result) else .error o.message

theorem outcome_of_succeeds {o : Operation} (h : o.Succeeds) :
    o.outcome = .int (Int64.ofInt o.result) := if_pos h

theorem outcome_of_fails {o : Operation} (h : ¬ o.Succeeds) :
    o.outcome = .error o.message := if_neg h

end Operation

section Operators

variable (st : Store)

theorem ofExcept_negation (n : Int64) :
    ∃ st', ofExcept (UnaryOp.minus.apply (.int n)) st =
      some ((Operation.neg n.toInt).outcome, st') := by
  simp only [UnaryOp.apply, neg?, ofInt?_eq]
  by_cases hrange : InRange (-n.toInt)
  · have hsucceeds : (Operation.neg n.toInt).Succeeds := ⟨not_false, hrange⟩
    rw [if_pos hrange, Operation.outcome_of_succeeds hsucceeds]
    exact ⟨st, rfl⟩
  · have hfails : ¬ (Operation.neg n.toInt).Succeeds := fun h => hrange h.2
    rw [if_neg hrange, Operation.outcome_of_fails hfails]
    exact ⟨st.fail _, rfl⟩

/-- Where no divisor is zero, the range decides. -/
theorem ofExcept_checked (op : ArithmeticOp) (a b : Int64)
    (hzero : ¬ (Operation.binary op a.toInt b.toInt).DividesByZero) :
    ∃ st', ofExcept (op.toBinaryOp.checked a b (ofInt? (op.exact a.toInt b.toInt))) st =
      some ((Operation.binary op a.toInt b.toInt).outcome, st') := by
  rw [ofInt?_eq]
  by_cases hrange : InRange (op.exact a.toInt b.toInt)
  · rw [if_pos hrange, Operation.outcome_of_succeeds ⟨hzero, hrange⟩]
    exact ⟨st, rfl⟩
  · have hfails : ¬ (Operation.binary op a.toInt b.toInt).Succeeds := fun h => hrange h.2
    have hmessage : (Operation.binary op a.toInt b.toInt).message =
        (RuntimeError.overflow op.toBinaryOp a b).message := if_neg hzero
    rw [if_neg hrange, Operation.outcome_of_fails hfails, hmessage]
    exact ⟨st.fail _, rfl⟩

theorem ofExcept_arithmetic (op : ArithmeticOp) (a b : Int64) :
    ∃ st', ofExcept (op.toBinaryOp.apply (.int a) (.int b)) st =
      some ((Operation.binary op a.toInt b.toInt).outcome, st') := by
  cases op with
  | add => exact ofExcept_checked st .add a b not_false
  | sub => exact ofExcept_checked st .sub a b not_false
  | mul => exact ofExcept_checked st .mul a b not_false
  | div =>
    simp only [ArithmeticOp.toBinaryOp, BinaryOp.apply, BinaryOp.applyInt]
    by_cases hb : b = 0
    · have hzero : (Operation.binary .div a.toInt b.toInt).DividesByZero := by
        rw [hb]
        exact Int64.toInt_zero
      have hfails : ¬ (Operation.binary .div a.toInt b.toInt).Succeeds := fun h => h.1 hzero
      have hmessage : (Operation.binary .div a.toInt b.toInt).message =
          (RuntimeError.divisionByZero a).message := if_pos hzero
      rw [if_pos hb, Operation.outcome_of_fails hfails, hmessage]
      exact ⟨st.fail _, rfl⟩
    · have hzero : b.toInt ≠ 0 := fun h => hb (Int64.toInt_inj.mp h)
      rw [if_neg hb]
      exact ofExcept_checked st .div a b hzero

end Operators

/-- The expressions of integers, negation and the four operators. -/
inductive Arithmetic where
  | int (n : Int64)
  | neg (a : Arithmetic)
  | binary (op : ArithmeticOp) (a b : Arithmetic)

namespace Arithmetic

def toExpr : Arithmetic → Expr
  | .int n => .int n
  | .neg a => .unary .minus a.toExpr
  | .binary op a b => .binary op.toBinaryOp a.toExpr b.toExpr

/-- The value in unbounded arithmetic. -/
def exact : Arithmetic → Int
  | .int n => n.toInt
  | .neg a => -a.exact
  | .binary op a b => op.exact a.exact b.exact

/-- The operations in the order in which they are done, on their exact operands. -/
def operations : Arithmetic → List Operation
  | .int _ => []
  | .neg a => a.operations ++ [.neg a.exact]
  | .binary op a b => a.operations ++ b.operations ++ [.binary op a.exact b.exact]

def height : Arithmetic → Nat
  | .int _ => 1
  | .neg a => a.height + 1
  | .binary _ a b => max a.height b.height + 1

/-- The first of some operations that fails. -/
def firstFailure? (os : List Operation) : Option Operation :=
  os.find? fun o => !decide o.Succeeds

/-- The exact value, or the error of the first operation that fails. -/
def outcome (a : Arithmetic) : Value :=
  match firstFailure? a.operations with
  | none => .int (Int64.ofInt a.exact)
  | some o => .error o.message

theorem firstFailure?_append (os ps : List Operation) :
    firstFailure? (os ++ ps) = (firstFailure? os).or (firstFailure? ps) :=
  List.find?_append

theorem firstFailure?_eq_none_iff {os : List Operation} :
    firstFailure? os = none ↔ ∀ o ∈ os, o.Succeeds := by
  simp [firstFailure?]

theorem inRange_exact (a : Arithmetic) (h : ∀ o ∈ a.operations, o.Succeeds) :
    InRange a.exact := by
  cases a with
  | int n => exact inRange_toInt n
  | neg a => exact (h (.neg a.exact) (by simp [operations])).2
  | binary op a b => exact (h (.binary op a.exact b.exact) (by simp [operations])).2

/-- Either no operation fails, and the value is exact, or the first one that fails says so. -/
theorem outcome_cases (a : Arithmetic) :
    (firstFailure? a.operations = none ∧ ∃ n, a.outcome = .int n ∧ n.toInt = a.exact) ∨
      ∃ o, firstFailure? a.operations = some o ∧ a.outcome = .error o.message := by
  unfold outcome
  cases h : firstFailure? a.operations with
  | none =>
    have hrange := a.inRange_exact (firstFailure?_eq_none_iff.mp h)
    exact .inl ⟨rfl, _, rfl, toInt_ofInt hrange⟩
  | some o => exact .inr ⟨o, rfl, rfl⟩

/-- A failure among the operands is the failure of the whole. -/
theorem outcome_of_failure {a : Arithmetic} {os ps : List Operation} {o : Operation}
    (hoperations : a.operations = os ++ ps) (hos : firstFailure? os = some o) :
    a.outcome = .error o.message := by
  rw [outcome, hoperations, firstFailure?_append, hos, Option.some_or]

/-- Where no operand fails, the last operation settles the outcome. -/
theorem outcome_of_operands {a : Arithmetic} {os : List Operation} {o : Operation}
    (hoperations : a.operations = os ++ [o]) (hexact : a.exact = o.result)
    (hos : firstFailure? os = none) : a.outcome = o.outcome := by
  rw [outcome, hoperations, hexact, firstFailure?_append, hos, Option.none_or]
  by_cases ho : o.Succeeds
  · rw [Operation.outcome_of_succeeds ho]
    simp [firstFailure?, ho]
  · rw [Operation.outcome_of_fails ho]
    simp [firstFailure?, ho]

theorem eval_neg (a : Arithmetic) (depth : Nat) (scope : ScopeId) (st : Store) :
    eval (depth + 1) (.expr a.neg.toExpr) scope st =
      (eval depth (.expr a.toExpr) scope).andThen
        (fun v => ofExcept (UnaryOp.minus.apply v)) st.tick := rfl

theorem eval_binary (op : ArithmeticOp) (a b : Arithmetic) (depth : Nat) (scope : ScopeId)
    (st : Store) :
    eval (depth + 1) (.expr (Arithmetic.binary op a b).toExpr) scope st =
      (eval depth (.expr a.toExpr) scope).andThen (fun v =>
        (eval depth (.expr b.toExpr) scope).andThen fun w =>
          ofExcept (op.toBinaryOp.apply v w)) st.tick := rfl

/-- An expression comes to its outcome, in whatever scope it stands. -/
theorem eval_outcome (a : Arithmetic) (scope : ScopeId) {depth : Nat} (hdepth : a.height ≤ depth)
    (st : Store) : ∃ st', eval depth (.expr a.toExpr) scope st = some (a.outcome, st') := by
  induction a generalizing depth st with
  | int n =>
    obtain ⟨depth, rfl⟩ := Nat.exists_eq_add_of_le' hdepth
    have houtcome : (Arithmetic.int n).outcome = .int n := by
      simp [outcome, operations, firstFailure?, exact]
    rw [houtcome]
    exact ⟨st.tick, rfl⟩
  | neg a ih =>
    obtain ⟨k, rfl⟩ := Nat.exists_eq_add_of_le' hdepth
    change ∃ st', eval (k + a.height + 1) _ _ _ = _
    obtain ⟨mid, ha⟩ := ih (Nat.le_add_left _ k) st.tick
    rw [eval_neg]
    rcases a.outcome_cases with ⟨hnone, n, hint, hn⟩ | ⟨o, hfirst, herror⟩
    · rw [hint] at ha
      rw [andThen_of_some ha rfl, outcome_of_operands rfl rfl hnone, ← hn]
      exact ofExcept_negation mid n
    · rw [herror] at ha
      rw [andThen_of_abrupt ha rfl, outcome_of_failure rfl hfirst]
      exact ⟨mid, rfl⟩
  | binary op a b iha ihb =>
    obtain ⟨k, rfl⟩ := Nat.exists_eq_add_of_le' hdepth
    change ∃ st', eval (k + max a.height b.height + 1) _ _ _ = _
    have hleft : a.height ≤ k + max a.height b.height := by omega
    have hright : b.height ≤ k + max a.height b.height := by omega
    obtain ⟨mid, ha⟩ := iha hleft st.tick
    obtain ⟨mid', hb⟩ := ihb hright mid
    rw [eval_binary]
    rcases a.outcome_cases with ⟨hnone, m, hint, hm⟩ | ⟨o, hfirst, herror⟩
    · rw [hint] at ha
      rw [andThen_of_some ha rfl]
      rcases b.outcome_cases with ⟨hnone', n, hint', hn⟩ | ⟨o, hfirst', herror⟩
      · have hoperands : firstFailure? (a.operations ++ b.operations) = none := by
          rw [firstFailure?_append, hnone, hnone', Option.none_or]
        rw [hint'] at hb
        rw [andThen_of_some hb rfl, outcome_of_operands rfl rfl hoperands, ← hm, ← hn]
        exact ofExcept_arithmetic mid' op m n
      · have hoperands : firstFailure? (a.operations ++ b.operations) = some o := by
          rw [firstFailure?_append, hnone, hfirst', Option.none_or]
        rw [herror] at hb
        rw [andThen_of_abrupt hb rfl, outcome_of_failure rfl hoperands]
        exact ⟨mid', rfl⟩
    · have hoperands : firstFailure? (a.operations ++ b.operations) = some o := by
        rw [firstFailure?_append, hfirst, Option.some_or]
      rw [herror] at ha
      rw [andThen_of_abrupt ha rfl, outcome_of_failure rfl hoperands]
      exact ⟨mid, rfl⟩

theorem outcome_eq_int_iff (a : Arithmetic) (n : Int64) :
    a.outcome = .int n ↔ (∀ o ∈ a.operations, o.Succeeds) ∧ n.toInt = a.exact := by
  rw [← firstFailure?_eq_none_iff]
  rcases a.outcome_cases with ⟨hnone, m, hint, hm⟩ | ⟨o, hfirst, herror⟩
  · simp [hnone, hint, ← hm, Int64.toInt_inj, eq_comm]
  · simp [hfirst, herror]

theorem outcome_eq_error_iff (a : Arithmetic) (message : String) :
    a.outcome = .error message ↔
      ∃ o, firstFailure? a.operations = some o ∧ message = o.message := by
  rcases a.outcome_cases with ⟨hnone, m, hint, -⟩ | ⟨o, hfirst, herror⟩
  · simp [hnone, hint]
  · simp [hfirst, herror, eq_comm]

theorem outcome_int_or_error (a : Arithmetic) :
    (∃ n, a.outcome = .int n) ∨ ∃ message, a.outcome = .error message := by
  rcases a.outcome_cases with ⟨-, n, hint, -⟩ | ⟨o, -, herror⟩
  · exact .inl ⟨n, hint⟩
  · exact .inr ⟨o.message, herror⟩

end Arithmetic

open Arithmetic

/-- An expression of integers, negation and the four operators comes to an end in
every scope, with one value at every depth that suffices: its height does. The value
is an integer if and only if every operation succeeds, and then it is the exact one;
otherwise it is the error of the first operation that fails. -/
theorem arithmetic_exact (a : Arithmetic) (scope : ScopeId) (st : Store) :
    ∃ v st', (∀ depth ≥ a.height, eval depth (.expr a.toExpr) scope st = some (v, st')) ∧
      (∀ depth r, eval depth (.expr a.toExpr) scope st = some r → r = (v, st')) ∧
      (∀ n, v = .int n ↔ (∀ o ∈ a.operations, o.Succeeds) ∧ n.toInt = a.exact) ∧
      (∀ message, v = .error message ↔
        ∃ o, firstFailure? a.operations = some o ∧ message = o.message) ∧
      ((∃ n, v = .int n) ∨ ∃ message, v = .error message) := by
  obtain ⟨st', heval⟩ := a.eval_outcome scope (Nat.le_refl a.height) st
  refine ⟨a.outcome, st', ?_, ?_, a.outcome_eq_int_iff, a.outcome_eq_error_iff,
    a.outcome_int_or_error⟩
  · intro depth hdepth
    exact eval_extends hdepth _ scope st _ heval
  · intro depth r hr
    rcases Nat.le_total a.height depth with hle | hle
    · rw [eval_extends hle _ scope st _ heval] at hr
      exact (Option.some.inj hr).symm
    · rw [eval_extends hle _ scope st _ hr] at heval
      exact Option.some.inj heval

/-- The least integer divided by `-1`, which is no integer of the language. -/
theorem arithmetic_exact_min_div :
    ∃ st', eval 3 (.expr (.binary .divide (.int Int64.minValue) (.unary .minus (.int 1)))) 0
      Session.fresh.store =
        some (.error "integer overflow: -9223372036854775808 / -1", st') := by
  obtain ⟨v, st', heval, -, -, herror, -⟩ :=
    arithmetic_exact (.binary .div (.int Int64.minValue) (.neg (.int 1))) 0 Session.fresh.store
  have hv : v = .error "integer overflow: -9223372036854775808 / -1" :=
    (herror _).mpr ⟨.binary .div Int64.minValue.toInt (-1), by decide, by decide⟩
  rw [← hv]
  exact ⟨st', heval 3 (Nat.le_refl 3)⟩

end Monkey
