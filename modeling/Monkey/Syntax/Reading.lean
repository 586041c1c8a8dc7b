import Monkey.Syntax.Error
import Monkey.Token

/-!
The outcome of reading one construct off a list of tokens, and ways to put
outcomes together. Reading never stops at a mistake: an outcome has the errors
that were met, the node if there is one, and the tokens that were not used,
from which whoever asked for the construct may go on.

`ReadingWithin n` keeps a proof that at most `n` tokens are left. It is what
makes the readers of `Monkey.Syntax.Read`, which call each other on the rests
of one another, end on every list.
-/

namespace Monkey

structure Reading (α : Type) where
  node? : Option α
  errors : List SyntaxError
  rest : List Token

/-- A reading that leaves at most `n` tokens. -/
structure ReadingWithin (n : Nat) (α : Type) extends Reading α where
  rest_le : rest.length ≤ n

namespace ReadingWithin

variable {m n : Nat} {α β : Type}

def done (a : α) (rest : List Token) : ReadingWithin rest.length α :=
  ⟨⟨some a, [], rest⟩, Nat.le_refl _⟩

def fail (e : SyntaxError) (rest : List Token) : ReadingWithin rest.length α :=
  ⟨⟨none, [e], rest⟩, Nat.le_refl _⟩

def weaken (r : ReadingWithin n α) (h : n ≤ m) : ReadingWithin m α :=
  ⟨r.toReading, Nat.le_trans r.rest_le h⟩

def map (f : α → β) (r : ReadingWithin n α) : ReadingWithin n β :=
  ⟨⟨r.node?.map f, r.errors, r.rest⟩, r.rest_le⟩

/-- Goes on from where a reading stopped, whether or not it found a node. -/
def regardless (r : ReadingWithin n α)
    (next : Option α → (rest : List Token) → rest.length ≤ n → ReadingWithin rest.length β) :
    ReadingWithin n β :=
  let s := next r.node? r.rest r.rest_le
  ⟨⟨s.node?, r.errors ++ s.errors, s.rest⟩, Nat.le_trans s.rest_le r.rest_le⟩

/-- Goes on from where a reading stopped if it found a node, and stops there
otherwise. -/
def andThen (r : ReadingWithin n α)
    (next : α → (rest : List Token) → rest.length ≤ n → ReadingWithin rest.length β) :
    ReadingWithin n β :=
  match r.node? with
  | none => ⟨⟨none, r.errors, r.rest⟩, r.rest_le⟩
  | some a =>
    let s := next a r.rest r.rest_le
    ⟨⟨s.node?, r.errors ++ s.errors, s.rest⟩, Nat.le_trans s.rest_le r.rest_le⟩

/-- Takes a semicolon along after a node, if there is one. -/
def dropSemicolon (r : ReadingWithin n α) : ReadingWithin n α :=
  match r with
  | ⟨⟨some a, errors, .symbol .semicolon :: rest⟩, h⟩ =>
    ⟨⟨some a, errors, rest⟩, Nat.le_of_succ_le h⟩
  | r => r

end ReadingWithin

end Monkey
