import Monkey.RuntimeError
import Monkey.Store

/-!
Steps of evaluation. An action takes a store to a value and the store after
it, or has no outcome at all, which means that it was not given enough depth
to come to an end. Failing is an outcome like any other: the value is an error.

Actions are put together by `andThen`, which goes on with a value unless it is
abrupt. That is the one place where an error or a `return` ends what holds it.
-/

namespace Monkey

abbrev Action := Store → Option (Value × Store)

namespace Action

def pure (v : Value) : Action := fun st => some (v, st)

/-- No outcome. -/
def stuck : Action := fun _ => none

/-- An error, recorded as a fault. -/
def fail (e : RuntimeError) : Action := fun st =>
  some (.error e.message, st.fail e.message)

def ofExcept : Except RuntimeError Value → Action
  | .ok v => pure v
  | .error e => fail e

/-- Goes on with the value of an action, unless the value is abrupt. -/
def andThen (a : Action) (next : Value → Action) : Action := fun st =>
  match a st with
  | none => none
  | some (v, st) => if v.isAbrupt then some (v, st) else next v st

/-- Where a `return` ends: its operand is the value. -/
def unwrapped (a : Action) : Action := fun st =>
  match a st with
  | none => none
  | some (v, st) => some (v.unwrap, st)

/-- A new object, which the present time tells from all others. -/
def create (make : Nat → Value) : Action := fun st =>
  some (make st.clock, st.tick)

/-- Binds a name in a scope. There is nothing to say about it, so the value is
`null`. -/
def bind (scope : ScopeId) (name : String) (v : Value) : Action := fun st =>
  some (.null, st.tick.bind scope name v)

/-- What a name means: its binding, or the builtin of that name if there is
none. -/
def resolve (scope : ScopeId) (name : String) : Action := fun st =>
  match st.lookup scope name with
  | some v => some (v, st)
  | none =>
    match Builtin.ofName? name with
    | some b => some (.builtin b, st)
    | none => fail (.unbound name) st

/-- Statements one after the other. The value is that of the last one, or
`last` if there are none. -/
def inSequence (run : Statement → Action) (last : Value) : List Statement → Action
  | [] => pure last
  | s :: ss => (run s).andThen fun v => inSequence run v ss

/-- Expressions from left to right, and then what is to be done with their
values. -/
def gather (run : Expr → Action) : List Expr → (List Value → Action) → Action
  | [], next => next []
  | e :: es, next => (run e).andThen fun v => gather run es fun vs => next (v :: vs)

/-- The pairs of a dict from left to right, and then what is to be done with
them. A key is found unusable before its value is looked at. -/
def gatherPairs (run : Expr → Action) :
    List (Expr × Expr) → (List (Key × Value) → Action) → Action
  | [], next => next []
  | (k, e) :: ps, next =>
    (run k).andThen fun v =>
      match v.key? with
      | none => fail (.unusableKey v.type)
      | some key =>
        (run e).andThen fun w => gatherPairs run ps fun es => next ((key, w) :: es)

end Action

end Monkey
