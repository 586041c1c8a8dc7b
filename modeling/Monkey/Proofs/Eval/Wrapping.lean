import Monkey.Proofs.Eval.Clean
import Monkey.Proofs.Eval.Mirror
import Monkey.Proofs.Eval.Sequence
import Monkey.Value.Inspect

/-!
A program as the body of a function that is called at once. Its statements then run one
scope deeper than in the root, and later, because the function has been made and
entered before. Apart from that the two runs go side by side: whatever the one binds in
the root, the other one binds in the scope of the call, and around that scope there is
only a root in which nothing is ever bound.
-/

open Monkey.Action

namespace Monkey

open Text

/-- The program that calls a function with these statements for a body. -/
def Program.wrapped (p : Program) : Program := [.expr (.call (.function [] p) [])]

/-- One scope deeper, and later by the time that it takes to enter the function. -/
def Renaming.deeper : Renaming where
  object id := id + 5
  scope i := i + 1
  object_injective _ _ h := Nat.add_right_cancel h
  scope_injective _ _ h := Nat.add_right_cancel h

/-- The scope in the place of another one: around the root there is one more. -/
def Scope.deepen (sc : Scope) : Scope where
  outer := some ((sc.outer.map Renaming.deeper.scope).getD 0)
  bindings := (sc.rename .deeper).bindings

theorem Renaming.deeper_carries : deeper.Carries Scope.deepen where
  scope_lt _ _ := Nat.add_lt_add_iff_right
  get?_eq sc name := sc.get?_rename deeper name
  bind_eq sc name v := by
    have hbindings := congrArg Scope.bindings (sc.bind_rename deeper name v)
    simp only [Scope.deepen, hbindings]
    rfl
  outer_eq sc outer h := by simp [Scope.deepen, h]
  opened_eq _ := rfl

namespace Store

/-- The store of a run, and that of the run inside a function. -/
structure Wrapped (st st' : Store) : Prop where
  clock_eq : st'.clock = Renaming.deeper.object st.clock
  size_eq : st'.scopes.size = Renaming.deeper.scope st.scopes.size
  root_eq : st'.scopes[0]? = some ⟨none, []⟩
  scopes_eq : ∀ i, st'.scopes[Renaming.deeper.scope i]? = st.scopes[i]?.map Scope.deepen

namespace Wrapped

variable {st st' : Store}

theorem lookup_root (h : st.Wrapped st') (name : String) : st'.lookup 0 name = none := by
  rw [lookup, h.root_eq]
  rfl

theorem lookup_eq (h : st.Wrapped st') (scope : ScopeId) (name : String) :
    st'.lookup (Renaming.deeper.scope scope) name =
      (st.lookup scope name).map (Value.rename .deeper) := by
  apply Renaming.deeper_carries.lookup_eq h.scopes_eq
  intro sc root hnone hroot
  have hzero : root = 0 := by simpa [Scope.deepen, hnone] using hroot.symm
  rw [hzero, h.lookup_root]

theorem tick (h : st.Wrapped st') : st.tick.Wrapped st'.tick := by
  refine ⟨?_, h.size_eq, h.root_eq, h.scopes_eq⟩
  simp [Store.tick, h.clock_eq, Renaming.deeper]

theorem fail (h : st.Wrapped st') (message : String) :
    (st.fail message).Wrapped (st'.fail message) :=
  ⟨h.clock_eq, h.size_eq, h.root_eq, h.scopes_eq⟩

theorem bind (h : st.Wrapped st') (scope : ScopeId) (name : String) (v : Value) :
    (st.bind scope name v).Wrapped
      (st'.bind (Renaming.deeper.scope scope) name (v.rename .deeper)) := by
  constructor
  · exact h.clock_eq
  · simpa using h.size_eq
  · have hscope : Renaming.deeper.scope scope ≠ 0 := Nat.succ_ne_zero scope
    rw [scopes_bind, if_neg hscope, h.root_eq]
  · exact Renaming.deeper_carries.scopes_bind h.scopes_eq scope name v

theorem openScope (h : st.Wrapped st') (outer : ScopeId) :
    (st.openScope (some outer)).2.Wrapped
      (st'.openScope (some (Renaming.deeper.scope outer))).2 := by
  constructor
  · exact h.clock_eq
  · simp [Store.openScope, h.size_eq, Renaming.deeper]
  · have hsize : st'.scopes.size ≠ 0 := by simp [h.size_eq, Renaming.deeper]
    simp only [Store.openScope, Array.getElem?_push, if_neg hsize.symm, h.root_eq]
  · exact Renaming.deeper_carries.scopes_openScope h.scopes_eq h.size_eq outer

end Wrapped

end Store

theorem mirror_wrapped : Mirror .deeper Store.Wrapped where
  clock_eq h := h.clock_eq
  size_eq h := h.size_eq
  lookup_eq h := h.lookup_eq
  tick h := h.tick
  fail h := h.fail
  bind h := h.bind
  openScope h := h.openScope

section Inspect

variable (ρ : Renaming)

mutual

/-- No identity is ever shown. -/
theorem Value.inspect_rename : (v : Value) → (v.rename ρ).inspect = v.inspect
  | .returned v => Value.inspect_rename v
  | .vector _ vs =>
    congrArg (fun texts => "[" ++ commaSeparated texts ++ "]") (Value.inspectEach_rename vs)
  | .dict _ es =>
    congrArg (fun texts => "\x7b" ++ commaSeparated texts ++ "\x7d")
      (Value.inspectEntries_rename es)
  | .int _ | .str _ | .bool _ | .null | .builtin _ | .error _ | .function .. => rfl

theorem Value.inspectEach_rename : (vs : List Value) →
    inspectEach (renameEach ρ vs) = inspectEach vs
  | [] => rfl
  | v :: vs => congrArg₂ List.cons (Value.inspect_rename v) (Value.inspectEach_rename vs)

theorem Value.inspectEntries_rename : (es : List (Key × Value)) →
    inspectEntries (renameEntries ρ es) = inspectEntries es
  | [] => rfl
  | (k, v) :: es =>
    congrArg₂ (fun text texts => (k.inspect ++ ": " ++ text) :: texts) (Value.inspect_rename v)
      (Value.inspectEntries_rename es)

end

theorem Value.rename_eq_error_iff (v : Value) (message : String) :
    v.rename ρ = .error message ↔ v = .error message := by
  cases v <;> simp [rename]

end Inspect

/-- The store in which the function of a wrapped program has just been entered. -/
def Store.entered : Store := ⟨#[⟨none, []⟩, ⟨some 0, []⟩], 5, []⟩

theorem wrapped_entered : Session.fresh.store.Wrapped Store.entered := by
  refine ⟨rfl, rfl, rfl, fun i => ?_⟩
  cases i <;> rfl

theorem Action.andThen_pure (a : Action) : a.andThen pure = a := by
  funext st
  unfold andThen
  split
  · rename_i h
    exact h.symm
  · rename_i v mid h
    rw [h]
    split <;> rfl

/-- A wrapped program runs the program itself in the scope of the call. -/
theorem eval_wrapped (p : Program) (depth : Nat) :
    eval (depth + 4) (.program p.wrapped) 0 Session.fresh.store =
      (eval (depth + 1) (.program p) 1).unwrapped Store.entered := by
  have hprogram : eval (depth + 4) (.program p.wrapped) 0 Session.fresh.store =
      ((eval (depth + 3) (.statement (.expr (.call (.function [] p) []))) 0).andThen
        pure).unwrapped Session.fresh.store := rfl
  rw [hprogram, andThen_pure]
  rfl

theorem Value.Unwrapped.unwrap_eq {v : Value} (h : v.Unwrapped) : v.unwrap = v := by
  cases v with
  | returned w => exact absurd rfl (h.ne_returned w)
  | _ => rfl

/-- The call takes no second `return` off a program's value: there is none. -/
theorem eval_program_unwrapped_eq (p : Program) (depth : Nat) (scope : ScopeId) {st : Store}
    (hst : st.Clean) :
    (eval depth (.program p) scope).unwrapped st = eval depth (.program p) scope st := by
  cases hrun : eval depth (.program p) scope st with
  | none =>
    unfold unwrapped
    rw [hrun]
  | some r =>
    obtain ⟨v, st'⟩ := r
    have hv := ((eval_program_unwrapped depth p scope).of_some hst hrun).2
    rw [unwrapped_of_some hrun, hv.unwrap_eq]

/-- Three depths further, a wrapped program comes to what the program comes to. -/
theorem eval_rel_wrapped (p : Program) (depth : Nat) :
    Option.Rel (fun r r' => r'.1 = r.1.rename .deeper ∧ r.2.Wrapped r'.2)
      (eval (depth + 1) (.program p) 0 Session.fresh.store)
      (eval (depth + 4) (.program p.wrapped) 0 Session.fresh.store) := by
  have hmirrored := mirrored_unwrapped (eval_mirrored mirror_wrapped (depth + 1) (.program p) 0)
  have hrel := hmirrored _ _ wrapped_entered
  rw [eval_program_unwrapped_eq p _ 0 Session.fresh_clean] at hrel
  rw [eval_wrapped]
  exact hrel

/-- Enough depth for an outcome of a program to be that of a greater depth. -/
theorem wrapping_of_runs {p : Program} {depth depth' : Nat} {r r' : Value × Store}
    (hrun : eval depth (.program p) 0 Session.fresh.store = some r)
    (hwrapped : eval depth' (.program p.wrapped) 0 Session.fresh.store = some r') :
    r'.1 = r.1.rename .deeper ∧ r.2.Wrapped r'.2 := by
  have hrel := eval_rel_wrapped p (max depth depth')
  have hle : depth ≤ max depth depth' + 1 := by omega
  have hle' : depth' ≤ max depth depth' + 4 := by omega
  rw [eval_extends hle _ _ _ _ hrun, eval_extends hle' _ _ _ _ hwrapped] at hrel
  cases hrel with
  | some h => exact h

theorem wrapping_terminates_iff (p : Program) :
    (∃ depth r, eval depth (.program p) 0 Session.fresh.store = some r) ↔
      ∃ depth r, eval depth (.program p.wrapped) 0 Session.fresh.store = some r := by
  constructor
  · rintro ⟨depth, r, hrun⟩
    have hrel := eval_rel_wrapped p depth
    rw [eval_extends (Nat.le_succ depth) _ _ _ _ hrun] at hrel
    cases hwrapped : eval (depth + 4) (.program p.wrapped) 0 Session.fresh.store with
    | none =>
      rw [hwrapped] at hrel
      cases hrel
    | some r' => exact ⟨depth + 4, r', hwrapped⟩
  · rintro ⟨depth, r', hwrapped⟩
    have hrel := eval_rel_wrapped p depth
    rw [eval_extends (Nat.le_add_right depth 4) _ _ _ _ hwrapped] at hrel
    cases hrun : eval (depth + 1) (.program p) 0 Session.fresh.store with
    | none =>
      rw [hrun] at hrel
      cases hrel
    | some r => exact ⟨depth + 1, r, hrun⟩

/-- In a fresh session a program comes to an end if and only if the program does that calls a
function with the same statements for a body. The value and the scopes of the one are then
those of the other with later identities and one scope deeper, so that the scope of the call
stands for the root. The two values have one type, one text and the same error, if any. -/
theorem wrapping_preserves (p : Program) :
    ((∃ depth r, eval depth (.program p) Session.fresh.root Session.fresh.store = some r) ↔
      ∃ depth r,
        eval depth (.program p.wrapped) Session.fresh.root Session.fresh.store = some r) ∧
    ∀ depth depth' v v' st st',
      eval depth (.program p) Session.fresh.root Session.fresh.store = some (v, st) →
      eval depth' (.program p.wrapped) Session.fresh.root Session.fresh.store = some (v', st') →
      v' = v.rename .deeper ∧ st.Wrapped st' ∧ v'.type = v.type ∧
        (∀ message, v' = .error message ↔ v = .error message) ∧ v'.inspect = v.inspect := by
  refine ⟨wrapping_terminates_iff p, ?_⟩
  intro depth depth' v v' st st' hrun hwrapped
  obtain ⟨rfl, hst⟩ := wrapping_of_runs hrun hwrapped
  exact ⟨rfl, hst, v.type_rename _, v.rename_eq_error_iff _, v.inspect_rename _⟩

/-- The program `let x = 1; return fn() { x }`. The function has captured the root, or
else the scope of the call. -/
theorem wrapping_preserves_closure :
    eval 3 (.program [.let "x" (.int 1), .return (.function [] [.expr (.ident "x")])]) 0
        Session.fresh.store =
      some (.function 5 [] [.expr (.ident "x")] 0, ⟨#[⟨none, [("x", .int 1)]⟩], 6, []⟩) ∧
    ∃ st', eval 6 (.program (Program.wrapped
        [.let "x" (.int 1), .return (.function [] [.expr (.ident "x")])])) 0
        Session.fresh.store = some (.function 10 [] [.expr (.ident "x")] 1, st') ∧
      Store.Wrapped ⟨#[⟨none, [("x", .int 1)]⟩], 6, []⟩ st' := by
  have hrun : eval 3 (.program [.let "x" (.int 1), .return (.function [] [.expr (.ident "x")])]) 0
      Session.fresh.store =
        some (.function 5 [] [.expr (.ident "x")] 0, ⟨#[⟨none, [("x", .int 1)]⟩], 6, []⟩) := rfl
  have hwrapped : eval 6 (.program (Program.wrapped
      [.let "x" (.int 1), .return (.function [] [.expr (.ident "x")])])) 0
      Session.fresh.store = some (.function 10 [] [.expr (.ident "x")] 1,
        ⟨#[⟨none, []⟩, ⟨some 0, [("x", .int 1)]⟩], 11, []⟩) := rfl
  obtain ⟨-, hst, -⟩ := (wrapping_preserves _).2 3 6 _ _ _ _ hrun hwrapped
  exact ⟨hrun, _, hwrapped, hst⟩

end Monkey
