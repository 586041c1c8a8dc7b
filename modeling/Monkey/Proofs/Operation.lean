import Monkey.Operation
import Monkey.Proofs.Dict

/-!
Where the results of operations come from. An operator has a plain value, and for the two
that compare it says whether the operands are identical. What is read from a vector or a
dict is one of its parts, the very same value; and a vector that a builtin makes holds
nothing but its arguments and their parts.
-/

namespace Monkey

namespace Value

/-- A value that is no object, has no parts and ends nothing. -/
inductive Plain : Value → Prop where
  | int (n : Int64) : Plain (.int n)
  | str (text : String) : Plain (.str text)
  | bool (b : Bool) : Plain (.bool b)
  | null : Plain .null

/-- The elements of a vector, or the values of a dict. -/
def parts : Value → List Value
  | .vector _ elements => elements
  | .dict _ entries => entries.map Prod.snd
  | _ => []

end Value

variable {v w r : Value}

theorem UnaryOp.plain_of_apply {op : UnaryOp} (h : op.apply v = .ok r) : r.Plain := by
  unfold UnaryOp.apply at h
  split at h
  · cases h
    exact .bool _
  · split at h
    · cases h
      exact .int _
    · cases h
  · cases h

theorem BinaryOp.plain_of_checked {op : BinaryOp} {a b : Int64} {n? : Option Int64}
    (h : op.checked a b n? = .ok r) : r.Plain := by
  cases n? with
  | none => cases h
  | some n =>
    cases h
    exact .int n

theorem BinaryOp.plain_of_applyInt {op : BinaryOp} {a b : Int64} (h : op.applyInt a b = .ok r) :
    r.Plain := by
  cases op with
  | plus | minus | multiply => exact BinaryOp.plain_of_checked h
  | divide =>
    simp only [BinaryOp.applyInt] at h
    split at h
    · cases h
    · exact BinaryOp.plain_of_checked h
  | equal | notEqual | lessThan | greaterThan =>
    cases h
    exact .bool _

theorem BinaryOp.plain_of_applyStr {op : BinaryOp} {s t : String} (h : op.applyStr s t = .ok r) :
    r.Plain := by
  cases op with
  | plus =>
    cases h
    exact .str _
  | equal | notEqual =>
    cases h
    exact .bool _
  | minus | multiply | divide | lessThan | greaterThan => cases h

theorem BinaryOp.plain_of_apply {op : BinaryOp} (h : op.apply v w = .ok r) : r.Plain := by
  unfold BinaryOp.apply at h
  split at h
  · exact BinaryOp.plain_of_applyInt h
  · exact BinaryOp.plain_of_applyStr h
  · split at h
    · cases h
      exact .bool _
    · cases h
      exact .bool _
    · split at h <;> cases h

/-- Two integers and two strings are compared on paths of their own, which come to the
same. -/
theorem BinaryOp.apply_equal (v w : Value) :
    BinaryOp.equal.apply v w = .ok (.bool (v.isIdentical w)) := by
  unfold BinaryOp.apply
  split <;> rfl

theorem BinaryOp.apply_notEqual (v w : Value) :
    BinaryOp.notEqual.apply v w = .ok (.bool !(v.isIdentical w)) := by
  unfold BinaryOp.apply
  split <;> rfl

theorem Value.mem_of_elementAt? {elements : List Value} {i : Int64}
    (h : elementAt? elements i = some v) : v ∈ elements := by
  unfold elementAt? at h
  split at h
  · exact List.mem_of_getElem? h
  · cases h

/-- What is read at an optional place is there, or it is `null`. -/
theorem Value.plain_or_mem_of_getD {v? : Option Value} {vs : List Value}
    (h : ∀ u, v? = some u → u ∈ vs) : (v?.getD .null).Plain ∨ v?.getD .null ∈ vs := by
  cases v? with
  | none => exact .inl .null
  | some u => exact .inr (h u rfl)

theorem Value.plain_or_mem_of_index (h : v.index w = .ok r) : r.Plain ∨ r ∈ v.parts := by
  unfold Value.index at h
  split at h
  · cases h
    exact plain_or_mem_of_getD fun u hu => mem_of_elementAt? hu
  · split at h
    · cases h
      apply plain_or_mem_of_getD
      intro u hu
      exact List.mem_map_of_mem (Dict.mem_of_get? hu)
    · cases h
  · cases h

namespace Builtin

theorem plain_of_callLen (h : callLen v = .ok r) : r.Plain := by
  unfold callLen at h
  split at h
  · cases h
    exact .int _
  · cases h
    exact .int _
  · cases h
    exact .int _
  · cases h

theorem parts_eq_of_elements {b : Builtin} {elements : List Value}
    (h : b.elements v = .ok elements) : v.parts = elements := by
  cases v with
  | vector id vs =>
    cases h
    rfl
  | _ => cases h

/-- A computation that ends well has gone well so far. -/
theorem exists_of_bind_eq_ok {ε α β : Type} {x : Except ε α} {f : α → Except ε β} {b : β}
    (h : x >>= f = .ok b) : ∃ a, x = .ok a ∧ f a = .ok b := by
  cases x with
  | error e => cases h
  | ok a => exact ⟨a, rfl, h⟩

/-- What a builtin may come to. -/
inductive Makes (id : Nat) (args : List Value) : Value → Prop where
  | plain {r : Value} : r.Plain → Makes id args r
  | part {v r : Value} : v ∈ args → r ∈ v.parts → Makes id args r
  /-- Only this one is new. -/
  | vector {vs : List Value} :
      (∀ u ∈ vs, u ∈ args ∨ ∃ v ∈ args, u ∈ v.parts) → Makes id args (.vector id vs)

theorem makes_of_call {b : Builtin} {id : Nat} {args : List Value} (h : b.call id args = .ok r) :
    Makes id args r := by
  have hgetD : ∀ {v : Value} {args : List Value} {v? : Option Value},
      (∀ u, v? = some u → u ∈ v.parts) → Makes id (v :: args) (v?.getD .null) := by
    intro v args v? hv
    rcases Value.plain_or_mem_of_getD hv with h | h
    · exact .plain h
    · exact .part List.mem_cons_self h
  unfold call at h
  split at h
  · exact .plain (plain_of_callLen h)
  · obtain ⟨elements, helements, hr⟩ := exists_of_bind_eq_ok h
    obtain rfl := parts_eq_of_elements helements
    cases hr
    exact hgetD fun u hu => List.mem_of_head? hu
  · obtain ⟨elements, helements, hr⟩ := exists_of_bind_eq_ok h
    obtain rfl := parts_eq_of_elements helements
    cases hr
    exact hgetD fun u hu => List.mem_of_getLast? hu
  · obtain ⟨elements, helements, hr⟩ := exists_of_bind_eq_ok h
    have hparts := parts_eq_of_elements helements
    split at hr
    · cases hr
      exact .plain .null
    · cases hr
      apply Makes.vector
      intro u hu
      refine .inr ⟨_, List.mem_cons_self, ?_⟩
      rw [hparts]
      exact List.mem_cons_of_mem _ hu
  · obtain ⟨elements, helements, hr⟩ := exists_of_bind_eq_ok h
    obtain rfl := parts_eq_of_elements helements
    cases hr
    apply Makes.vector
    intro u hu
    rcases List.mem_append.mp hu with hu | hu
    · exact .inr ⟨_, List.mem_cons_self, hu⟩
    · exact .inl (List.mem_cons_of_mem _ hu)
  · cases h
  · cases h

end Builtin

namespace Value

/-- A property that plain values have, that parts share with what they are parts of, and that
vectors share with their elements. -/
structure Inherited (P : Value → Prop) : Prop where
  of_plain {v : Value} : v.Plain → P v
  of_mem_parts {v w : Value} : P v → w ∈ v.parts → P w
  vector (id : Nat) {vs : List Value} : (∀ v ∈ vs, P v) → P (.vector id vs)

variable {P : Value → Prop}

/-- What is read from a value has every such property that the value has. -/
theorem Inherited.index (hP : Inherited P) (hv : P v) (h : v.index w = .ok r) : P r := by
  rcases plain_or_mem_of_index h with hr | hr
  · exact hP.of_plain hr
  · exact hP.of_mem_parts hv hr

/-- What a builtin comes to has every such property that its arguments have. -/
theorem Inherited.call (hP : Inherited P) {b : Builtin} {id : Nat} {args : List Value}
    (hargs : ∀ u ∈ args, P u) (h : b.call id args = .ok r) : P r := by
  cases Builtin.makes_of_call h with
  | plain hr => exact hP.of_plain hr
  | part hv hr => exact hP.of_mem_parts (hargs _ hv) hr
  | vector hvs =>
    apply hP.vector
    intro u hu
    rcases hvs u hu with hu | ⟨v, hv, hu⟩
    · exact hargs u hu
    · exact hP.of_mem_parts (hargs v hv) hu

end Value

end Monkey
