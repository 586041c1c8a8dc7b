import Monkey.Proofs.Operation

/-!
The names that occur. In a syntax tree these are the names that are looked up, bound by a
`let` or used as parameters, at any depth; in a value, those that occur in the functions in
it. A tree or a value is over some names if no others occur in it. No operation of the
language brings up names: its result is over all names that its operands are over.
-/

namespace Monkey

mutual

def Expr.names : Expr → List String
  | .ident name => [name]
  | .int _ | .str _ | .bool _ => []
  | .unary _ a => a.names
  | .binary _ a b => a.names ++ b.names
  | .cond c t none => c.names ++ Block.names t
  | .cond c t (some e) => c.names ++ (Block.names t ++ Block.names e)
  | .function params body => params ++ Block.names body
  | .call f args => f.names ++ Expr.namesEach args
  | .vector es => Expr.namesEach es
  | .dict ps => Expr.namesPairs ps
  | .index a i => a.names ++ i.names

def Statement.names : Statement → List String
  | .let name e => name :: e.names
  | .return e => e.names
  | .expr e => e.names

def Block.names : List Statement → List String
  | [] => []
  | s :: ss => s.names ++ Block.names ss

def Expr.namesEach : List Expr → List String
  | [] => []
  | e :: es => e.names ++ Expr.namesEach es

def Expr.namesPairs : List (Expr × Expr) → List String
  | [] => []
  | (k, v) :: ps => k.names ++ (v.names ++ Expr.namesPairs ps)

end

def Node.names : Node → List String
  | .program p => Block.names p
  | .block b => Block.names b
  | .statement s => s.names
  | .expr e => e.names

namespace Value

mutual

/-- The names in the functions in a value. What a function has captured is not in it. -/
def names : Value → List String
  | .returned v => v.names
  | .function _ params body _ => params ++ Block.names body
  | .vector _ vs => namesEach vs
  | .dict _ es => namesEntries es
  | .int _ | .str _ | .bool _ | .null | .builtin _ | .error _ => []

def namesEach : List Value → List String
  | [] => []
  | v :: vs => v.names ++ namesEach vs

def namesEntries : List (Key × Value) → List String
  | [] => []
  | (_, v) :: es => v.names ++ namesEntries es

end

end Value

variable {N : String → Prop}

section Trees

/-- No other names occur in the node. -/
def Node.Over (N : String → Prop) (node : Node) : Prop := ∀ x ∈ node.names, N x

theorem Block.forall_names {ss : List Statement} :
    (∀ x ∈ Block.names ss, N x) ↔ ∀ s ∈ ss, (Node.statement s).Over N := by
  induction ss with
  | nil => simp [Block.names]
  | cons s ss ih =>
    rw [Block.names, List.forall_mem_append, List.forall_mem_cons, ih]
    rfl

theorem Expr.forall_namesEach {es : List Expr} :
    (∀ x ∈ Expr.namesEach es, N x) ↔ ∀ e ∈ es, (Node.expr e).Over N := by
  induction es with
  | nil => simp [Expr.namesEach]
  | cons e es ih =>
    rw [Expr.namesEach, List.forall_mem_append, List.forall_mem_cons, ih]
    rfl

theorem Expr.forall_namesPairs {ps : List (Expr × Expr)} :
    (∀ x ∈ Expr.namesPairs ps, N x) ↔
      ∀ p ∈ ps, (Node.expr p.1).Over N ∧ (Node.expr p.2).Over N := by
  induction ps with
  | nil => simp [Expr.namesPairs]
  | cons p ps ih =>
    rw [Expr.namesPairs, List.forall_mem_append, List.forall_mem_append, List.forall_mem_cons, ih,
      and_assoc]
    rfl

end Trees

namespace Value

/-- No other names occur in the functions in the value. -/
def Over (N : String → Prop) (v : Value) : Prop := ∀ x ∈ v.names, N x

variable {v : Value}

theorem forall_namesEach {vs : List Value} :
    (∀ x ∈ namesEach vs, N x) ↔ ∀ v ∈ vs, v.Over N := by
  induction vs with
  | nil => simp [namesEach]
  | cons v vs ih =>
    rw [namesEach, List.forall_mem_append, List.forall_mem_cons, ih]
    rfl

theorem forall_namesEntries {es : List (Key × Value)} :
    (∀ x ∈ namesEntries es, N x) ↔ ∀ e ∈ es, e.2.Over N := by
  induction es with
  | nil => simp [namesEntries]
  | cons e es ih =>
    rw [namesEntries, List.forall_mem_append, List.forall_mem_cons, ih]
    rfl

theorem Over.unwrap (h : v.Over N) : v.unwrap.Over N := by
  cases v <;> exact h

theorem over_inherited : Inherited (Over N) where
  of_plain := by
    intro v hv x hx
    cases hv <;> cases hx
  of_mem_parts := by
    intro v w hv hw
    cases v with
    | vector id vs => exact forall_namesEach.mp hv w hw
    | dict id es =>
      obtain ⟨e, he, rfl⟩ := List.mem_map.mp hw
      exact forall_namesEntries.mp hv e he
    | _ => cases hw
  vector := by
    intro _ _ h
    exact forall_namesEach.mpr h

theorem over_dict (id : Nat) {pairs : List (Key × Value)} (h : ∀ e ∈ pairs, e.2.Over N) :
    (Value.dict id (Dict.ofPairs pairs)).Over N :=
  forall_namesEntries.mpr fun e he => h e (Dict.mem_of_mem_ofPairs he)

end Value

end Monkey
