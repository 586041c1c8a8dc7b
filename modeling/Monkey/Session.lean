import Monkey.Eval

/-!
Programs that run one after the other and share a root scope, so that each
sees what the earlier ones have bound.
-/

namespace Monkey

structure Session where
  store : Store
  root : ScopeId

namespace Session

/-- A session in which nothing has been bound yet. -/
def fresh : Session :=
  let (root, store) := Store.empty.openScope none
  ⟨store, root⟩

/-- Runs a program to a depth. -/
def eval (depth : Nat) (s : Session) (p : Program) : Option (Value × Session) :=
  match Monkey.eval depth (.program p) s.root s.store with
  | none => none
  | some (v, store) => some (v, { s with store })

/-- What a name has been bound to. -/
def get? (s : Session) (name : String) : Option Value :=
  s.store.lookup s.root name

end Session

end Monkey
