import Monkey.Proofs.Eval.Keeps
import Monkey.Proofs.Operation
import Monkey.Proofs.Store
import Monkey.Session

/-!
Errors and `return` markers are never kept. A clean value is not abrupt and has
no abrupt value in it, and a clean store binds clean values only. Evaluation in a
clean store leaves a clean store, and its value is clean, an error, or a `return`
of a clean value; programs and calls have no `return` for a value.

Functions are clean whatever scope they captured: the scopes are in the store, and
the store is clean in all of them.
-/

open Monkey.Action

namespace Monkey

namespace Value

/-- Neither an error nor a `return`, and neither are the elements of a vector or
the values of a dict, at any depth. -/
inductive Clean : Value → Prop where
  | int (n : Int64) : Clean (.int n)
  | str (text : String) : Clean (.str text)
  | bool (b : Bool) : Clean (.bool b)
  | null : Clean .null
  | function (id : Nat) (params : List String) (body : Block) (scope : ScopeId) :
      Clean (.function id params body scope)
  | vector (id : Nat) {elements : List Value} :
      (∀ v ∈ elements, Clean v) → Clean (.vector id elements)
  | dict (id : Nat) {entries : List (Key × Value)} :
      (∀ e ∈ entries, Clean e.2) → Clean (.dict id entries)
  | builtin (b : Builtin) : Clean (.builtin b)

/-- What evaluation may come to: the operand of a `return` is clean itself. -/
inductive Settled : Value → Prop where
  | clean {v : Value} : v.Clean → Settled v
  | error (message : String) : Settled (.error message)
  | returned {v : Value} : v.Clean → Settled (.returned v)

/-- What a program or a call may come to. -/
inductive Unwrapped : Value → Prop where
  | clean {v : Value} : v.Clean → Unwrapped v
  | error (message : String) : Unwrapped (.error message)

variable {v w : Value}

theorem Unwrapped.settled (h : v.Unwrapped) : v.Settled := by
  cases h with
  | clean hv => exact .clean hv
  | error message => exact .error message

theorem Unwrapped.ne_returned (h : v.Unwrapped) (w : Value) : v ≠ .returned w := by
  rintro rfl
  cases h with
  | clean hv => cases hv

/-- A value that evaluation goes on with is clean. -/
theorem Settled.clean_of_proceeds (h : v.Settled) (hproceeds : v.isAbrupt = false) :
    v.Clean := by
  cases h with
  | clean hv => exact hv
  | error message => cases hproceeds
  | returned hv => cases hproceeds

theorem Settled.unwrap (h : v.Settled) : v.unwrap.Unwrapped := by
  cases h with
  | clean hv =>
    cases hv with
    | vector id h => exact .clean (.vector id h)
    | dict id h => exact .clean (.dict id h)
    | _ =>
      apply Unwrapped.clean
      constructor
  | error message => exact .error message
  | returned hv => exact .clean hv

end Value

section Operations

variable {v w r : Value}

theorem Value.Plain.clean (h : v.Plain) : v.Clean := by
  cases h <;> constructor

theorem Value.clean_inherited : Value.Inherited Value.Clean where
  of_plain := Value.Plain.clean
  of_mem_parts := by
    intro v w hv h
    cases hv with
    | vector id helements => exact helements w h
    | dict id hentries =>
      obtain ⟨e, he, rfl⟩ := List.mem_map.mp h
      exact hentries e he
    | _ => cases h
  vector := Value.Clean.vector

theorem Dict.clean_ofPairs {pairs : List (Key × Value)} (hpairs : ∀ e ∈ pairs, e.2.Clean) :
    ∀ e ∈ Dict.ofPairs pairs, e.2.Clean :=
  fun e he => hpairs e (Dict.mem_of_mem_ofPairs he)

end Operations

namespace Store

/-- Every binding of every scope is clean. -/
def Clean (st : Store) : Prop :=
  ∀ sc ∈ st.scopes, ∀ b ∈ sc.bindings, b.2.Clean

theorem Clean.ofScopes : OfScopes Clean :=
  fun _ _ hscopes hst => EveryBound.of_scopes_eq hst hscopes

variable {st : Store}

theorem Clean.lookup (hst : st.Clean) {scope : ScopeId} {name : String} {v : Value}
    (h : st.lookup scope name = some v) : v.Clean :=
  EveryBound.lookup hst h

theorem Clean.bind (hst : st.Clean) (scope : ScopeId) (name : String) {v : Value}
    (hv : v.Clean) : (st.bind scope name v).Clean :=
  EveryBound.bind hst scope name hv

theorem Clean.bindAll (hst : st.Clean) (scope : ScopeId) {bindings : List (String × Value)}
    (hbindings : ∀ b ∈ bindings, b.2.Clean) : (st.bindAll scope bindings).Clean :=
  EveryBound.bindAll hst scope hbindings

theorem Clean.openScope (hst : st.Clean) (outer : Option ScopeId) :
    (st.openScope outer).2.Clean :=
  EveryBound.openScope hst outer

end Store

/-- An evaluator of the parts of nodes that keeps the store clean. -/
abbrev RunsClean (run : Node → ScopeId → Action) : Prop :=
  ∀ node scope, (run node scope).Keeps Store.Clean Value.Settled

section Step

variable {run : Node → ScopeId → Action}

theorem enter_clean (hrun : RunsClean run) {bindings : List (String × Value)}
    (hbindings : ∀ b ∈ bindings, b.2.Clean) (body : Block) (outer : ScopeId) :
    (enter run bindings body outer).Keeps Store.Clean Value.Unwrapped := by
  intro st hst
  have hopened : (st.tick.openScope (some outer)).2.Clean :=
    (Store.Clean.ofScopes st st.tick rfl hst).openScope (some outer)
  have hbody : ((run (.block body) st.scopes.size).unwrapped).Keeps Store.Clean Value.Unwrapped :=
    keepsOr_unwrapped (hrun _ _) fun v hv => hv.unwrap
  exact hbody _ (hopened.bindAll st.scopes.size hbindings)

theorem apply_clean (hrun : RunsClean run) (callee : Value) {args : List Value}
    (hargs : ∀ v ∈ args, v.Clean) :
    (apply run callee args).Keeps Store.Clean Value.Unwrapped := by
  cases callee with
  | function id params body scope =>
    simp only [apply]
    split
    · apply enter_clean hrun
      intro b hb
      exact hargs b.2 (List.of_mem_zip hb).2
    · exact keepsOr_fail Store.Clean.ofScopes (.error _)
  | builtin b =>
    intro st hst
    have hcall : (Action.ofExcept (b.call st.clock args)).Keeps Store.Clean Value.Unwrapped := by
      apply keepsOr_ofExcept Store.Clean.ofScopes
      · intro v hv
        exact .clean (Value.clean_inherited.call hargs hv)
      · intro e
        exact .error _
    exact hcall _ (Store.Clean.ofScopes st st.tick rfl hst)
  | _ => exact keepsOr_fail Store.Clean.ofScopes (.error _)

/-- What operators and indexing come to. -/
theorem ofExcept_clean {r : Except RuntimeError Value} (h : ∀ v, r = .ok v → v.Clean) :
    (Action.ofExcept r).Keeps Store.Clean Value.Settled := by
  apply keepsOr_ofExcept Store.Clean.ofScopes
  · intro v hv
    exact .clean (h v hv)
  · intro e
    exact .error _

theorem inSequence_clean (hrun : RunsClean run) (scope : ScopeId) (ss : List Statement) :
    (inSequence (fun s => run (.statement s) scope) .null ss).Keeps Store.Clean
      Value.Settled := by
  apply keepsOr_inSequence (.clean .null)
  intro s _
  exact hrun _ _

theorem step_clean (hrun : RunsClean run) (scope : ScopeId) (node : Node) :
    (step run scope node).Keeps Store.Clean Value.Settled := by
  have hfail : ∀ e : RuntimeError, (Value.error e.message).Settled := fun e => .error e.message
  match node with
  | .program p =>
    exact keepsOr_unwrapped (inSequence_clean hrun scope p) fun v hv => hv.unwrap.settled
  | .block b => exact inSequence_clean hrun scope b
  | .statement (.let name e) =>
    apply keepsOr_andThen (hrun _ _)
    intro v hv hproceeds
    apply keepsOr_bind Store.Clean.ofScopes _ (.clean .null)
    intro st hst
    exact hst.bind scope name (hv.clean_of_proceeds hproceeds)
  | .statement (.return e) =>
    apply keepsOr_andThen (hrun _ _)
    intro v hv hproceeds
    exact keepsOr_pure (.returned (hv.clean_of_proceeds hproceeds))
  | .statement (.expr e) => exact hrun _ _
  | .expr (.ident name) =>
    apply keepsOr_resolve Store.Clean.ofScopes
    · intro st v hst hv
      exact .clean (hst.lookup hv)
    · intro b
      exact .clean (.builtin b)
    · exact hfail
  | .expr (.int n) => exact keepsOr_pure (.clean (.int n))
  | .expr (.str text) => exact keepsOr_pure (.clean (.str text))
  | .expr (.bool b) => exact keepsOr_pure (.clean (.bool b))
  | .expr (.unary op a) =>
    apply keepsOr_andThen (hrun _ _)
    intro v _ _
    exact ofExcept_clean fun r hr => (UnaryOp.plain_of_apply hr).clean
  | .expr (.binary op a b) =>
    apply keepsOr_andThen (hrun _ _)
    intro v _ _
    apply keepsOr_andThen (hrun _ _)
    intro w _ _
    exact ofExcept_clean fun r hr => (BinaryOp.plain_of_apply hr).clean
  | .expr (.cond c t e) =>
    apply keepsOr_andThen (hrun _ _)
    intro v _ _
    split
    · exact hrun _ _
    · split
      · exact hrun _ _
      · exact keepsOr_pure (.clean .null)
  | .expr (.function params body) =>
    change (create fun id => .function id params body scope).Keeps _ _
    apply keepsOr_create Store.Clean.ofScopes
    intro id
    exact .clean (.function id params body scope)
  | .expr (.call f args) =>
    apply keepsOr_andThen (hrun _ _)
    intro callee _ _
    apply keepsOr_gather fun e _ => hrun _ _
    intro vs hvs
    have hargs : ∀ v ∈ vs, v.Clean := fun v hv => (hvs v hv).1.clean_of_proceeds (hvs v hv).2
    exact (apply_clean hrun callee hargs).mono fun v hv => hv.settled
  | .expr (.vector es) =>
    apply keepsOr_gather fun e _ => hrun _ _
    intro vs hvs
    apply keepsOr_create Store.Clean.ofScopes
    intro id
    exact .clean (.vector id fun v hv => (hvs v hv).1.clean_of_proceeds (hvs v hv).2)
  | .expr (.dict ps) =>
    apply keepsOr_gatherPairs Store.Clean.ofScopes (fun p _ => ⟨hrun _ _, hrun _ _⟩) hfail
    intro entries hentries
    apply keepsOr_create Store.Clean.ofScopes
    intro id
    have hclean : ∀ e ∈ entries, e.2.Clean :=
      fun e he => (hentries e he).1.clean_of_proceeds (hentries e he).2
    exact .clean (.dict id (Dict.clean_ofPairs hclean))
  | .expr (.index a i) =>
    apply keepsOr_andThen (hrun _ _)
    intro v hv hproceeds
    apply keepsOr_andThen (hrun _ _)
    intro w _ _
    exact ofExcept_clean fun r hr =>
      Value.clean_inherited.index (hv.clean_of_proceeds hproceeds) hr

end Step

/-- At every depth, evaluation keeps the store clean. -/
theorem eval_clean (depth : Nat) : RunsClean (eval depth) := by
  induction depth with
  | zero => exact fun node scope => keeps_stuck
  | succ depth ih =>
    intro node scope st hst
    have harrive : (st.arrive node).Clean := Store.Clean.ofScopes st _ (st.scopes_arrive node) hst
    exact step_clean ih scope node _ harrive

/-- A `return` does not get out of a program. -/
theorem eval_program_unwrapped (depth : Nat) (p : Program) (scope : ScopeId) :
    (eval depth (.program p) scope).Keeps Store.Clean Value.Unwrapped := by
  cases depth with
  | zero => exact keeps_stuck
  | succ depth =>
    exact keepsOr_unwrapped (inSequence_clean (eval_clean depth) scope p) fun v hv => hv.unwrap

theorem call_clean (depth : Nat) (callee : Value) {args : List Value}
    (hargs : ∀ v ∈ args, v.Clean) :
    (call depth callee args).Keeps Store.Clean Value.Unwrapped :=
  apply_clean (eval_clean depth) callee hargs

namespace Session

/-- The sessions that programs lead to from a fresh one. -/
inductive Reachable : Session → Prop where
  | fresh : Reachable fresh
  | eval {s s' : Session} {depth : Nat} {p : Program} {v : Value} :
      Reachable s → s.eval depth p = some (v, s') → Reachable s'

theorem fresh_clean : fresh.store.Clean :=
  Store.Clean.openScope Store.EveryBound.empty none

theorem Reachable.clean {s : Session} (h : s.Reachable) : s.store.Clean := by
  induction h with
  | fresh => exact fresh_clean
  | @eval s s' depth p v _ hrun ih =>
    unfold Session.eval at hrun
    split at hrun
    · cases hrun
    · rename_i w store heval
      cases hrun
      exact ((eval_clean depth _ _).of_some ih heval).1

end Session

/-- Evaluation in a clean store, if it comes to an end, leaves a clean store. Its
value is clean, an error, or a `return` of a clean value, and for a program or a
call it is no `return`. So everything that programs lead to is clean. -/
theorem evaluation_keeps_clean :
    (∀ depth node scope st v st', st.Clean → eval depth node scope st = some (v, st') →
      st'.Clean ∧ v.Settled) ∧
    (∀ depth p scope st v st', st.Clean → eval depth (.program p) scope st = some (v, st') →
      v.Unwrapped ∧ ∀ w, v ≠ .returned w) ∧
    (∀ depth callee args st v st', st.Clean → (∀ a ∈ args, a.Clean) →
      call depth callee args st = some (v, st') →
      st'.Clean ∧ v.Unwrapped ∧ ∀ w, v ≠ .returned w) ∧
    ∀ s : Session, s.Reachable → s.store.Clean := by
  refine ⟨?_, ?_, ?_, fun s hs => hs.clean⟩
  · intro depth node scope st v st' hst h
    exact (eval_clean depth node scope).of_some hst h
  · intro depth p scope st v st' hst h
    have hv := ((eval_program_unwrapped depth p scope).of_some hst h).2
    exact ⟨hv, hv.ne_returned⟩
  · intro depth callee args st v st' hst hargs h
    obtain ⟨hst', hv⟩ := (call_clean depth callee hargs).of_some hst h
    exact ⟨hst', hv, hv.ne_returned⟩

/-- The program `return [1]` and the call `first([null])` in a fresh session. -/
theorem evaluation_keeps_clean_return :
    Session.fresh.store.Clean ∧
      eval 4 (.program [.return (.vector [.int 1])]) Session.fresh.root Session.fresh.store =
        some (.vector 3 [.int 1], ⟨#[⟨none, []⟩], 4, []⟩) ∧
      Store.Clean ⟨#[⟨none, []⟩], 4, []⟩ ∧ (Value.vector 3 [.int 1]).Unwrapped ∧
      call 0 (.builtin .first) [.vector 0 [.null]] Session.fresh.store =
        some (.null, Session.fresh.store.tick) ∧
      Session.fresh.store.tick.Clean := by
  have hfresh : Session.fresh.store.Clean := evaluation_keeps_clean.2.2.2 _ .fresh
  have heval : eval 4 (.program [.return (.vector [.int 1])]) Session.fresh.root
      Session.fresh.store = some (.vector 3 [.int 1], ⟨#[⟨none, []⟩], 4, []⟩) := rfl
  have hcall : call 0 (.builtin .first) [.vector 0 [.null]] Session.fresh.store =
      some (.null, Session.fresh.store.tick) := rfl
  have hargs : ∀ a ∈ [Value.vector 0 [.null]], a.Clean := by
    intro a ha
    obtain rfl := List.mem_singleton.mp ha
    apply Value.Clean.vector
    intro v hv
    obtain rfl := List.mem_singleton.mp hv
    exact .null
  have hstore := (evaluation_keeps_clean.1 4 _ _ _ _ _ hfresh heval).1
  have hvalue := (evaluation_keeps_clean.2.1 4 _ _ _ _ _ hfresh heval).1
  have hcalled := (evaluation_keeps_clean.2.2.1 0 _ _ _ _ _ hfresh hargs hcall).1
  exact ⟨hfresh, heval, hstore, hvalue, hcall, hcalled⟩

end Monkey
