import Monkey.Proofs.Readers

/-!
How the powers under which expressions are read fit the layers of the grammar.
Each layer has a floor, the greatest power under which its texts are read to
their end, and a ceiling, the greatest power that a token after such a text may
have without taking it in.
-/

namespace Monkey

namespace Layer

/-- How many layers are looser. -/
def depth : Layer → Nat
  | .equality => 0
  | .comparison => 1
  | .sum => 2
  | .product => 3
  | .unary => 4
  | .applied => 5
  | .primary => 6

def floor : Layer → Nat
  | .equality => 0
  | .comparison => 1
  | .sum => 2
  | .product => 3
  | .unary | .applied | .primary => 5

def ceiling : Layer → Nat
  | .equality => 1
  | .comparison => 2
  | .sum => 3
  | .product => 4
  | .unary => 5
  | .applied | .primary => 7

/-- The loosest layer that is read to its end under a power. -/
def ofPower : Nat → Layer
  | 0 => .equality
  | 1 => .comparison
  | 2 => .sum
  | 3 => .product
  | _ => .unary

theorem depth_injective {l m : Layer} (h : l.depth = m.depth) : l = m := by
  cases l <;> cases m <;> simp_all [depth]

theorem depth_tighter {l : Layer} (h : l.depth < 6) : l.tighter.depth = l.depth + 1 := by
  cases l with
  | primary => exact absurd h (by decide)
  | _ => rfl

theorem depth_le (l : Layer) : l.depth ≤ 6 := by
  cases l <;> simp [depth]

theorem depth_ofPower_le (p : Nat) : (ofPower p).depth ≤ p := by
  match p with
  | 0 | 1 | 2 | 3 => exact Nat.le_refl _
  | p + 4 => exact Nat.le_add_left 4 p

theorem depth_ofPower_le_four (p : Nat) : (ofPower p).depth ≤ 4 := by
  match p with
  | 0 | 1 | 2 | 3 => simp [ofPower, depth]
  | p + 4 => exact Nat.le_refl 4

/-- What may be called or indexed is at least as tight as a call. -/
theorem applied_depth_le {l : Layer} (h : 6 ≤ l.ceiling) : applied.depth ≤ l.depth := by
  cases l <;> simp_all [ceiling, depth]

theorem floor_le_tighter (l : Layer) : l.floor ≤ l.tighter.floor := by
  cases l <;> simp [floor, tighter]

theorem ceiling_le_tighter (l : Layer) : l.ceiling ≤ l.tighter.ceiling := by
  cases l <;> simp [ceiling, tighter]

end Layer

namespace BinaryOp

theorem power_eq_ceiling (op : BinaryOp) : (Suffix.operator op).power = op.layer.ceiling := by
  cases op <;> rfl

theorem floor_lt_power (op : BinaryOp) : op.layer.floor < (Suffix.operator op).power := by
  cases op <;> decide

theorem power_eq_depth_succ (op : BinaryOp) :
    (Suffix.operator op).power = op.layer.depth + 1 := by
  cases op <;> rfl

/-- The right side of an operator is read to the end of a tighter text. -/
theorem power_le_floor (op : BinaryOp) :
    (Suffix.operator op).power ≤ op.layer.tighter.floor := by
  cases op <;> decide

/-- An operator that may follow a text of a layer builds on a layer that is no
tighter. -/
theorem depth_le_of_power_le {op : BinaryOp} {l : Layer}
    (h : (Suffix.operator op).power ≤ l.ceiling) : op.layer.depth ≤ l.depth := by
  have hop : op.layer.depth ≤ 3 := by cases op <;> decide
  have hl : min l.ceiling 4 ≤ l.depth + 1 := by cases l <;> decide
  rw [power_eq_depth_succ] at h
  omega

theorem ofPower_power (op : BinaryOp) :
    Layer.ofPower (Suffix.operator op).power = op.layer.tighter := by
  cases op <;> rfl

end BinaryOp

/-- A text of one layer is a text of every looser layer. -/
theorem Derives.widen {l m : Layer} {ts rest : List Token} {e : Expr}
    (h : Derives (.expr l) ts e rest) (hle : m.depth ≤ l.depth) :
    Derives (.expr m) ts e rest := by
  obtain ⟨n, hn⟩ := Nat.le.dest hle
  induction n generalizing m with
  | zero =>
    obtain rfl : m = l := Layer.depth_injective hn
    exact h
  | succ n ih =>
    have hdepth := Layer.depth_le l
    have htighter : m.tighter.depth = m.depth + 1 := Layer.depth_tighter (by omega)
    exact .tighter (ih (by omega) (by omega))

end Monkey
