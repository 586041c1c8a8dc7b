import Monkey.Eval.Depth
import Monkey.Proofs.Eval.Keeps
import Monkey.Proofs.Operation
import Monkey.Proofs.Parts
import Monkey.Proofs.Renaming
import Monkey.Proofs.Store
import Monkey.Session

/-!
Evaluation without functions. Functions come from function literals only: operators make
none, and what builtins and indexing come to was in their operands already. So a node with
no function literal, in a store that binds no function, never comes to a function to call,
whatever it calls. What it does call are builtins, which evaluate nothing, and evaluation
goes no deeper than the node is high.

That no function is called is said by an evaluator that has no outcome if one is.
-/

open Monkey.Action

namespace Monkey

/-- Calls a value, unless it is a function. -/
def applyFirstOrder (callee : Value) (args : List Value) : Action :=
  match callee with
  | .function .. => stuck
  | callee => apply (fun _ _ => stuck) callee args

/-- Like `step`, with no outcome for the call of a function. -/
def stepFirstOrder (run : Node → ScopeId → Action) (scope : ScopeId) : Node → Action
  | .expr (.call f args) =>
    (run (.expr f) scope).andThen fun callee =>
      gather (fun e => run (.expr e) scope) args fun vs => applyFirstOrder callee vs
  | node => step run scope node

/-- Like `eval`, with no outcome if a function is called. -/
def evalFirstOrder : Nat → Node → ScopeId → Action
  | 0, _, _ => stuck
  | depth + 1, node, scope => fun st =>
    stepFirstOrder (evalFirstOrder depth) scope node (st.arrive node)

theorem apply_extends_applyFirstOrder (run : Node → ScopeId → Action) (callee : Value)
    (args : List Value) : (apply run callee args).Extends (applyFirstOrder callee args) := by
  cases callee with
  | function => exact extends_stuck _
  | _ => exact Extends.refl _

theorem step_extends_stepFirstOrder {run' run : Node → ScopeId → Action}
    (hrun : RunsExtend run' run) (scope : ScopeId) (node : Node) :
    (step run' scope node).Extends (stepFirstOrder run scope node) := by
  unfold stepFirstOrder
  split
  · apply Extends.andThen (hrun _ _)
    intro callee
    exact Extends.gather (fun _ => hrun _ _) _ (apply_extends_applyFirstOrder run' callee)
  · exact step_extends hrun scope node

/-- If no function is called, `eval` does the same. -/
theorem eval_extends_evalFirstOrder (depth : Nat) :
    RunsExtend (eval depth) (evalFirstOrder depth) := by
  induction depth with
  | zero => exact fun node scope => extends_stuck _
  | succ depth ih =>
    intro node scope st r h
    exact step_extends_stepFirstOrder ih scope node _ r h

namespace Value

theorem functionFree_inherited : Inherited FunctionFree where
  of_plain := by
    intro v hv
    cases hv <;> constructor
  of_mem_parts := by
    intro v w hv h
    cases hv with
    | vector id helements => exact helements w h
    | dict id hentries =>
      obtain ⟨e, he, rfl⟩ := List.mem_map.mp h
      exact hentries e he
    | _ => cases h
  vector := FunctionFree.vector

theorem FunctionFree.unwrap {v : Value} (h : v.FunctionFree) : v.unwrap.FunctionFree := by
  cases h with
  | returned hv => exact hv
  | int n => exact .int n
  | str text => exact .str text
  | bool b => exact .bool b
  | null => exact .null
  | vector id hvs => exact .vector id hvs
  | dict id hes => exact .dict id hes
  | builtin b => exact .builtin b
  | error message => exact .error message

end Value

/-- No scope binds a function, and there are `size` scopes. -/
def Store.FirstOrder (size : Nat) (st : Store) : Prop :=
  st.EveryBound Value.FunctionFree ∧ st.scopes.size = size

theorem Store.FirstOrder.ofScopes (size : Nat) : OfScopes (FirstOrder size) := by
  rintro st st' hscopes ⟨hst, hsize⟩
  exact ⟨hst.of_scopes_eq hscopes, hscopes ▸ hsize⟩

section Step

variable {size : Nat} {run : Node → ScopeId → Action} {scope : ScopeId}

theorem applyFirstOrder_ensures {callee : Value} (hcallee : callee.FunctionFree)
    {args : List Value} (hargs : ∀ v ∈ args, v.FunctionFree) :
    (applyFirstOrder callee args).Ensures (Store.FirstOrder size) Value.FunctionFree := by
  have hI := Store.FirstOrder.ofScopes size
  cases hcallee with
  | builtin b =>
    intro st hst
    have hcall : (ofExcept (b.call st.clock args)).Ensures (Store.FirstOrder size)
        Value.FunctionFree :=
      keepsOr_ofExcept hI (fun _ hv => Value.functionFree_inherited.call hargs hv)
        fun e => .error e.message
    exact hcall st.tick (hI st st.tick rfl hst)
  | _ => exact keepsOr_fail hI (.error _)

theorem ofExcept_ensures {r : Except RuntimeError Value}
    (hr : ∀ v, r = .ok v → v.FunctionFree) :
    (ofExcept r).Ensures (Store.FirstOrder size) Value.FunctionFree :=
  keepsOr_ofExcept (Store.FirstOrder.ofScopes size) hr fun e => .error e.message

/-- What the parts of a node ensure, the node ensures as well. -/
theorem stepFirstOrder_ensures {node : Node}
    (hnode : ∀ params body, node ≠ .expr (.function params body))
    (hrun : ∀ part ∈ node.parts,
      (run part scope).Ensures (Store.FirstOrder size) Value.FunctionFree) :
    (stepFirstOrder run scope node).Ensures (Store.FirstOrder size) Value.FunctionFree := by
  have hI := Store.FirstOrder.ofScopes size
  have hplain : ∀ {v : Value}, v.Plain → v.FunctionFree :=
    fun hv => Value.functionFree_inherited.of_plain hv
  have hstatements : ∀ {ss : List Statement},
      (∀ part ∈ ss.map .statement,
        (run part scope).Ensures (Store.FirstOrder size) Value.FunctionFree) →
      (inSequence (fun s => run (.statement s) scope) .null ss).Ensures
        (Store.FirstOrder size) Value.FunctionFree := by
    intro ss hss
    apply keepsOr_inSequence .null
    intro s hs
    exact hss _ (List.mem_map_of_mem hs)
  match node with
  | .program p => exact keepsOr_unwrapped (hstatements hrun) fun v hv => hv.unwrap
  | .block b => exact hstatements hrun
  | .statement (.let name e) =>
    apply keepsOr_andThen (hrun _ List.mem_cons_self)
    intro v hv _
    apply keepsOr_bind hI _ .null
    rintro st ⟨hst, hsize⟩
    exact ⟨hst.bind scope name hv, by rw [Store.size_bind, hsize]⟩
  | .statement (.return e) =>
    apply keepsOr_andThen (hrun _ List.mem_cons_self)
    intro v hv _
    exact keepsOr_pure (.returned hv)
  | .statement (.expr e) => exact hrun _ List.mem_cons_self
  | .expr (.ident name) =>
    apply keepsOr_resolve hI
    · intro st v hst hv
      exact hst.1.lookup hv
    · exact .builtin
    · exact fun e => .error e.message
  | .expr (.int n) => exact keepsOr_pure (.int n)
  | .expr (.str text) => exact keepsOr_pure (.str text)
  | .expr (.bool b) => exact keepsOr_pure (.bool b)
  | .expr (.unary op a) =>
    apply keepsOr_andThen (hrun _ List.mem_cons_self)
    intro v _ _
    exact ofExcept_ensures fun r hr => hplain (UnaryOp.plain_of_apply hr)
  | .expr (.binary op a b) =>
    apply keepsOr_andThen (hrun _ List.mem_cons_self)
    intro v _ _
    apply keepsOr_andThen (hrun _ (List.mem_cons_of_mem _ List.mem_cons_self))
    intro w _ _
    exact ofExcept_ensures fun r hr => hplain (BinaryOp.plain_of_apply hr)
  | .expr (.cond c t none) =>
    apply keepsOr_andThen (hrun _ List.mem_cons_self)
    intro v _ _
    split
    · exact hrun _ (List.mem_cons_of_mem _ List.mem_cons_self)
    · exact keepsOr_pure .null
  | .expr (.cond c t (some e)) =>
    apply keepsOr_andThen (hrun _ List.mem_cons_self)
    intro v _ _
    split
    · exact hrun _ (List.mem_cons_of_mem _ List.mem_cons_self)
    · exact hrun _ (List.mem_cons_of_mem _ (List.mem_cons_of_mem _ List.mem_cons_self))
  | .expr (.function params body) => exact absurd rfl (hnode params body)
  | .expr (.call f args) =>
    obtain ⟨hf, hargs⟩ := List.forall_mem_cons.mp hrun
    apply keepsOr_andThen hf
    intro callee hcallee _
    apply keepsOr_gather fun e he => hargs _ (List.mem_map_of_mem he)
    intro vs hvs
    exact applyFirstOrder_ensures hcallee fun v hv => (hvs v hv).1
  | .expr (.vector es) =>
    apply keepsOr_gather fun e he => hrun _ (List.mem_map_of_mem he)
    intro vs hvs
    apply keepsOr_create hI
    intro id
    exact .vector id fun v hv => (hvs v hv).1
  | .expr (.dict ps) =>
    apply keepsOr_gatherPairs hI
    · intro p hp
      have hparts : [Node.expr p.1, .expr p.2] ⊆ (Node.expr (.dict ps)).parts :=
        fun part hpart => List.mem_flatMap.mpr ⟨p, hp, hpart⟩
      exact ⟨hrun _ (hparts List.mem_cons_self),
        hrun _ (hparts (List.mem_cons_of_mem _ List.mem_cons_self))⟩
    · exact fun e => .error e.message
    · intro entries hentries
      apply keepsOr_create hI
      intro id
      exact .dict id fun e he => (hentries e (Dict.mem_of_mem_ofPairs he)).1
  | .expr (.index a i) =>
    apply keepsOr_andThen (hrun _ List.mem_cons_self)
    intro v hv _
    apply keepsOr_andThen (hrun _ (List.mem_cons_of_mem _ List.mem_cons_self))
    intro w _ _
    exact ofExcept_ensures fun r hr => Value.functionFree_inherited.index hv hr

end Step

/-- The height of a node is depth enough. -/
theorem evalFirstOrder_ensures {node : Node} (hnode : node.FunctionFree) {depth : Nat}
    (hdepth : node.height ≤ depth) (size : Nat) (scope : ScopeId) :
    (evalFirstOrder depth node scope).Ensures (Store.FirstOrder size) Value.FunctionFree := by
  induction depth generalizing node with
  | zero => exact absurd (Nat.le_trans node.height_pos hdepth) (Nat.lt_irrefl 0)
  | succ depth ih =>
    have hparts : ∀ part ∈ node.parts,
        (evalFirstOrder depth part scope).Ensures (Store.FirstOrder size)
          Value.FunctionFree := by
      intro part hpart
      apply ih (hnode.of_mem_parts hpart)
      exact Nat.le_of_lt_succ (Nat.lt_of_lt_of_le (Node.height_lt_of_mem_parts hpart) hdepth)
    intro st hst
    have harrive := Store.FirstOrder.ofScopes size st _ (st.scopes_arrive node) hst
    exact stepFirstOrder_ensures hnode.ne_function hparts _ harrive

/-- Without functions, every evaluation comes to an end. For a node with no function literal
and a store that binds no function, there is a value and a store that evaluation comes to at
every depth from the height of the node on, without ever calling a function. The value is
none and holds none, the store still binds none, and no scope was opened. -/
theorem function_free_terminates {node : Node} (hnode : node.FunctionFree) {st : Store}
    (hst : st.EveryBound Value.FunctionFree) (scope : ScopeId) :
    ∃ v st', (∀ depth ≥ node.height, eval depth node scope st = some (v, st') ∧
        evalFirstOrder depth node scope st = some (v, st')) ∧
      v.FunctionFree ∧ st'.EveryBound Value.FunctionFree ∧
      st'.scopes.size = st.scopes.size := by
  have hends : ∀ depth ≥ node.height, ∃ v st',
      evalFirstOrder depth node scope st = some (v, st') ∧
        st'.FirstOrder st.scopes.size ∧ v.FunctionFree := by
    intro depth hdepth
    exact (evalFirstOrder_ensures hnode hdepth st.scopes.size scope).exists_some ⟨hst, rfl⟩
  obtain ⟨v, st', hrun, ⟨hst', hsize⟩, hv⟩ := hends node.height (Nat.le_refl _)
  refine ⟨v, st', ?_, hv, hst', hsize⟩
  intro depth hdepth
  have heval : eval depth node scope st = some (v, st') :=
    eval_extends hdepth node scope st _ (eval_extends_evalFirstOrder _ node scope st _ hrun)
  obtain ⟨w, st'', hrun', -⟩ := hends depth hdepth
  have hsame := eval_extends_evalFirstOrder depth node scope st _ hrun'
  exact ⟨heval, hrun'.trans (hsame.symm.trans heval)⟩

/-- The call `len([], 2)`, where the builtin `push` is bound to `len`. -/
theorem function_free_terminates_push :
    (Node.expr (.call (.ident "len") [.vector [], .int 2])).FunctionFree ∧
      (Session.fresh.store.bind 0 "len" (.builtin .push)).EveryBound Value.FunctionFree ∧
      ∃ st', (∀ depth ≥ 2,
          eval depth (.expr (.call (.ident "len") [.vector [], .int 2])) 0
              (Session.fresh.store.bind 0 "len" (.builtin .push)) =
            some (.vector 5 [.int 2], st') ∧
          evalFirstOrder depth (.expr (.call (.ident "len") [.vector [], .int 2])) 0
              (Session.fresh.store.bind 0 "len" (.builtin .push)) =
            some (.vector 5 [.int 2], st')) ∧
        st'.EveryBound Value.FunctionFree ∧ st'.scopes.size = 1 := by
  have hleaf : ∀ {e : Expr}, (Node.expr e).parts = [] → (∀ ps b, e ≠ .function ps b) →
      (Node.expr e).FunctionFree := by
    intro e hparts hnot
    refine .of_parts (fun ps b h => hnot ps b (Node.expr.inj h)) ?_
    rw [hparts]
    exact fun _ h => absurd h List.not_mem_nil
  have hnode : (Node.expr (.call (.ident "len") [.vector [], .int 2])).FunctionFree := by
    apply Node.FunctionFree.of_parts (by rintro _ _ ⟨⟩)
    simp only [Node.parts, List.map_cons, List.map_nil, List.forall_mem_cons]
    exact ⟨hleaf rfl (by rintro _ _ ⟨⟩), hleaf rfl (by rintro _ _ ⟨⟩),
      hleaf rfl (by rintro _ _ ⟨⟩), fun _ h => absurd h List.not_mem_nil⟩
  have hst : (Session.fresh.store.bind 0 "len" (.builtin .push)).EveryBound
      Value.FunctionFree :=
    (Store.EveryBound.empty.openScope none).bind 0 "len" (.builtin .push)
  obtain ⟨v, st', hrun, -, hst', hsize⟩ := function_free_terminates hnode hst 0
  have hlen : (Session.fresh.store.bind 0 "len" (.builtin .push)).tick.tick.lookup 0 "len" =
      some (.builtin .push) := by
    rw [Store.lookup_tick, Store.lookup_tick, Store.lookup_bind_self Nat.one_pos, if_pos rfl]
  have hcallee : eval 1 (.expr (.ident "len")) 0
      (Session.fresh.store.bind 0 "len" (.builtin .push)).tick = some (.builtin .push,
        (Session.fresh.store.bind 0 "len" (.builtin .push)).tick.tick) :=
    Action.resolve_of_lookup hlen
  have hvalue : (eval 2 (.expr (.call (.ident "len") [.vector [], .int 2])) 0
      (Session.fresh.store.bind 0 "len" (.builtin .push))).map Prod.fst =
        some (.vector 5 [.int 2]) :=
    congrArg (Option.map Prod.fst) (Action.andThen_of_some hcallee rfl)
  rw [(hrun 2 (by decide)).1] at hvalue
  obtain rfl : v = .vector 5 [.int 2] := Option.some.inj hvalue
  exact ⟨hnode, hst, st', hrun, hst', hsize⟩

end Monkey
