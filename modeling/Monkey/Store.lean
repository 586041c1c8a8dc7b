import Monkey.Value

/-!
What a running program remembers. A store has every scope that was ever
opened; a scope has its own bindings and the scope around it. Functions name
scopes by their place in the store, so that a scope outlives the call that
opened it and every function that captured it sees the same bindings.

The store also keeps a clock, which evaluation makes tick: with each statement
and expression that it comes to, each scope that it opens, each `let` that
binds a name, each object that it makes and each builtin that it calls. The
parameters of a call are bound without a tick of their own, just after the one
for their scope. The time at which an object is made therefore tells it from
all others, and the time at which a fault arose tells whether anything was done
after it.
-/

namespace Monkey

structure Scope where
  outer : Option ScopeId
  /-- One binding for each name. -/
  bindings : List (String × Value)

namespace Scope

/-- Bindings with one more, in place of an earlier one of the same name. -/
def insert (name : String) (v : Value) : List (String × Value) → List (String × Value)
  | [] => [(name, v)]
  | (x, w) :: bindings =>
    if x = name then (name, v) :: bindings else (x, w) :: insert name v bindings

def bind (sc : Scope) (name : String) (v : Value) : Scope :=
  { sc with bindings := insert name v sc.bindings }

/-- What a scope itself binds a name to. -/
def get? (sc : Scope) (name : String) : Option Value :=
  sc.bindings.lookup name

end Scope

/-- A failure of a program, with the time at which it arose. -/
structure Fault where
  message : String
  time : Nat
  deriving DecidableEq

structure Store where
  scopes : Array Scope
  clock : Nat
  /-- The latest fault comes first. -/
  faults : List Fault

namespace Store

def empty : Store := ⟨#[], 0, []⟩

def tick (st : Store) : Store := { st with clock := st.clock + 1 }

/-- Opens a scope with no bindings inside another one, or inside none. -/
def openScope (st : Store) (outer : Option ScopeId) : ScopeId × Store :=
  (st.scopes.size, { st with scopes := st.scopes.push ⟨outer, []⟩ })

/-- Binds a name in one scope. The same name in a scope around it is hidden,
and not changed. -/
def bind (st : Store) (scope : ScopeId) (name : String) (v : Value) : Store :=
  { st with scopes := st.scopes.modify scope (·.bind name v) }

def bindAll (st : Store) (scope : ScopeId) : List (String × Value) → Store
  | [] => st
  | (name, v) :: bindings => (st.bind scope name v).bindAll scope bindings

/-- What a name means in a scope: its binding there or, failing that, in the
nearest scope around it. The scope around another one is always older, and the
search goes to older scopes only. -/
def lookup (st : Store) (scope : ScopeId) (name : String) : Option Value :=
  match st.scopes[scope]? with
  | none => none
  | some sc =>
    match sc.get? name with
    | some v => some v
    | none =>
      match sc.outer with
      | none => none
      | some outer => if _h : outer < scope then st.lookup outer name else none
termination_by scope

/-- Records a fault, now. -/
def fail (st : Store) (message : String) : Store :=
  { st with faults := ⟨message, st.clock⟩ :: st.faults }

end Store

end Monkey
