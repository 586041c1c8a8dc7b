/-!
The syntax trees of Monkey. A program and a block are both lists of
statements; what differs is what evaluation makes of a `return` in them, so
that a node says which of the two it is.

Trees may be built freely: a name need not be one that can be written, a
string may hold a quote, and an integer may be negative.
-/

namespace Monkey

inductive UnaryOp where
  | minus | bang
  deriving DecidableEq

def UnaryOp.text : UnaryOp → String
  | .minus => "-"
  | .bang => "!"

inductive BinaryOp where
  | plus | minus | multiply | divide | equal | notEqual | greaterThan | lessThan
  deriving DecidableEq

def BinaryOp.text : BinaryOp → String
  | .plus => "+"
  | .minus => "-"
  | .multiply => "*"
  | .divide => "/"
  | .equal => "=="
  | .notEqual => "!="
  | .greaterThan => ">"
  | .lessThan => "<"

mutual

inductive Expr where
  | ident (name : String)
  | int (n : Int64)
  | str (text : String)
  | bool (b : Bool)
  | unary (op : UnaryOp) (operand : Expr)
  | binary (op : BinaryOp) (left right : Expr)
  | cond (condition : Expr) (onTrue : List Statement) (onFalse : Option (List Statement))
  | function (params : List String) (body : List Statement)
  | call (callee : Expr) (args : List Expr)
  | vector (elements : List Expr)
  /-- The pairs are in the order in which they are written. -/
  | dict (pairs : List (Expr × Expr))
  | index (collection key : Expr)

inductive Statement where
  | «let» (name : String) (value : Expr)
  | «return» (value : Expr)
  | expr (e : Expr)

end

instance : Inhabited Expr := ⟨.bool false⟩

abbrev Block := List Statement

abbrev Program := List Statement

/-- What can be evaluated. -/
inductive Node where
  | program (p : Program)
  | block (b : Block)
  | statement (s : Statement)
  | expr (e : Expr)

mutual

def Expr.same : Expr → Expr → Bool
  | .ident x, .ident y => x == y
  | .int m, .int n => m == n
  | .str s, .str t => s == t
  | .bool b, .bool c => b == c
  | .unary o a, .unary p b => o == p && a.same b
  | .binary o a b, .binary p c d => o == p && a.same c && b.same d
  | .cond a b none, .cond c d none => a.same c && Block.same b d
  | .cond a b (some e), .cond c d (some f) => a.same c && Block.same b d && Block.same e f
  | .function ps b, .function qs c => ps == qs && Block.same b c
  | .call f as, .call g bs => f.same g && Expr.sameList as bs
  | .vector as, .vector bs => Expr.sameList as bs
  | .dict ps, .dict qs => Expr.samePairs ps qs
  | .index a b, .index c d => a.same c && b.same d
  | _, _ => false

def Statement.same : Statement → Statement → Bool
  | .let x a, .let y b => x == y && a.same b
  | .return a, .return b => a.same b
  | .expr a, .expr b => a.same b
  | _, _ => false

def Block.same : List Statement → List Statement → Bool
  | [], [] => true
  | s :: ss, t :: ts => s.same t && Block.same ss ts
  | _, _ => false

def Expr.sameList : List Expr → List Expr → Bool
  | [], [] => true
  | a :: as, b :: bs => a.same b && Expr.sameList as bs
  | _, _ => false

def Expr.samePairs : List (Expr × Expr) → List (Expr × Expr) → Bool
  | [], [] => true
  | (a, b) :: ps, (c, d) :: qs => a.same c && b.same d && Expr.samePairs ps qs
  | _, _ => false

end

mutual

theorem Expr.same_iff : (a b : Expr) → (a.same b = true ↔ a = b)
  | .ident _, b => by cases b <;> simp [Expr.same]
  | .int _, b => by cases b <;> simp [Expr.same]
  | .str _, b => by cases b <;> simp [Expr.same]
  | .bool _, b => by cases b <;> simp [Expr.same]
  | .unary _ a, b => by cases b <;> simp [Expr.same, Expr.same_iff a]
  | .binary _ a b, c => by
    cases c <;> simp [Expr.same, Expr.same_iff a, Expr.same_iff b, and_assoc]
  | .cond a b none, c => by
    rcases c with _ | _ | _ | _ | _ | _ | ⟨_, _, _ | _⟩ <;>
      simp [Expr.same, Expr.same_iff a, Block.same_iff b]
  | .cond a b (some d), c => by
    rcases c with _ | _ | _ | _ | _ | _ | ⟨_, _, _ | _⟩ <;>
      simp [Expr.same, Expr.same_iff a, Block.same_iff b, Block.same_iff d, and_assoc]
  | .function _ b, c => by cases c <;> simp [Expr.same, Block.same_iff b]
  | .call f as, c => by cases c <;> simp [Expr.same, Expr.same_iff f, Expr.sameList_iff as]
  | .vector as, c => by cases c <;> simp [Expr.same, Expr.sameList_iff as]
  | .dict ps, c => by cases c <;> simp [Expr.same, Expr.samePairs_iff ps]
  | .index a b, c => by cases c <;> simp [Expr.same, Expr.same_iff a, Expr.same_iff b]

theorem Statement.same_iff : (s t : Statement) → (s.same t = true ↔ s = t)
  | .let _ a, t => by cases t <;> simp [Statement.same, Expr.same_iff a]
  | .return a, t => by cases t <;> simp [Statement.same, Expr.same_iff a]
  | .expr a, t => by cases t <;> simp [Statement.same, Expr.same_iff a]

theorem Block.same_iff : (b c : List Statement) → (Block.same b c = true ↔ b = c)
  | [], c => by cases c <;> simp [Block.same]
  | s :: ss, c => by cases c <;> simp [Block.same, Statement.same_iff s, Block.same_iff ss]

theorem Expr.sameList_iff : (as bs : List Expr) → (Expr.sameList as bs = true ↔ as = bs)
  | [], bs => by cases bs <;> simp [Expr.sameList]
  | a :: as, bs => by cases bs <;> simp [Expr.sameList, Expr.same_iff a, Expr.sameList_iff as]

theorem Expr.samePairs_iff :
    (ps qs : List (Expr × Expr)) → (Expr.samePairs ps qs = true ↔ ps = qs)
  | [], qs => by cases qs <;> simp [Expr.samePairs]
  | (a, b) :: ps, qs => by
    rcases qs with _ | ⟨⟨_, _⟩, _⟩ <;>
      simp [Expr.samePairs, Expr.same_iff a, Expr.same_iff b, Expr.samePairs_iff ps]

end

instance : DecidableEq Expr := fun a b => decidable_of_iff _ (Expr.same_iff a b)

instance : DecidableEq Statement := fun s t => decidable_of_iff _ (Statement.same_iff s t)

end Monkey
