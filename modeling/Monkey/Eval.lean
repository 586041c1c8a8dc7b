import Monkey.Eval.Action
import Monkey.Operation

/-!
The meaning of programs. `step` says what a node does in terms of what its
parts do, and `eval` runs it to a given depth: a part of a node, and the body
of a function that is called, are one deeper than the node itself. A program
that comes to an end does so at some depth, and then has the same outcome at
every greater one.
-/

open Monkey.Action

namespace Monkey

/-- Runs the body of a function in a new scope inside the one that the function
was made in, with its parameters bound there. A `return` ends there. -/
def enter (run : Node → ScopeId → Action) (bindings : List (String × Value)) (body : Block)
    (outer : ScopeId) : Action := fun st =>
  let (inner, st) := st.tick.openScope (some outer)
  (run (.block body) inner).unwrapped (st.bindAll inner bindings)

/-- Calls a value. -/
def apply (run : Node → ScopeId → Action) (callee : Value) (args : List Value) : Action :=
  match callee with
  | .function _ params body scope =>
    if params.length = args.length then enter run (params.zip args) body scope
    else fail (.wrongArity params.length args.length)
  | .builtin b => fun st => ofExcept (b.call st.clock args) st.tick
  | v => fail (.notFunction v.type)

/-- What a node does in a scope, if its parts do what `run` says. -/
def step (run : Node → ScopeId → Action) (scope : ScopeId) : Node → Action
  | .program p => (inSequence (fun s => run (.statement s) scope) .null p).unwrapped
  | .block b => inSequence (fun s => run (.statement s) scope) .null b
  | .statement (.let name e) => (run (.expr e) scope).andThen fun v => bind scope name v
  | .statement (.return e) => (run (.expr e) scope).andThen fun v => pure (.returned v)
  | .statement (.expr e) => run (.expr e) scope
  | .expr (.ident name) => resolve scope name
  | .expr (.int n) => pure (.int n)
  | .expr (.str text) => pure (.str text)
  | .expr (.bool b) => pure (.bool b)
  | .expr (.unary op a) => (run (.expr a) scope).andThen fun v => ofExcept (op.apply v)
  | .expr (.binary op a b) =>
    (run (.expr a) scope).andThen fun v =>
      (run (.expr b) scope).andThen fun w => ofExcept (op.apply v w)
  | .expr (.cond c t e) =>
    (run (.expr c) scope).andThen fun v =>
      if v.isTruthy then run (.block t) scope
      else
        match e with
        | some e => run (.block e) scope
        | none => pure .null
  | .expr (.function params body) => create fun id => .function id params body scope
  | .expr (.call f args) =>
    (run (.expr f) scope).andThen fun callee =>
      gather (fun e => run (.expr e) scope) args fun vs => apply run callee vs
  | .expr (.vector es) =>
    gather (fun e => run (.expr e) scope) es fun vs => create fun id => .vector id vs
  | .expr (.dict ps) =>
    gatherPairs (fun e => run (.expr e) scope) ps fun entries =>
      create fun id => .dict id (Dict.ofPairs entries)
  | .expr (.index a i) =>
    (run (.expr a) scope).andThen fun v =>
      (run (.expr i) scope).andThen fun w => ofExcept (v.index w)

/-- Coming to a statement or an expression takes one tick of the clock. A
program or a block is no more than its statements, and takes no time itself. -/
def Store.arrive (st : Store) : Node → Store
  | .program _ | .block _ => st
  | .statement _ | .expr _ => st.tick

/-- Evaluates a node in a scope to a depth. -/
def eval : Nat → Node → ScopeId → Action
  | 0, _, _ => stuck
  | depth + 1, node, scope => fun st => step (eval depth) scope node (st.arrive node)

/-- Calls a value, with bodies evaluated to a depth. -/
def call (depth : Nat) (callee : Value) (args : List Value) : Action :=
  apply (eval depth) callee args

end Monkey
