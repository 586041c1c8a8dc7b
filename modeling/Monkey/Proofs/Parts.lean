import Monkey.Syntax

/-!
What nodes are made of. The parts of a node are the nodes one level below it; how many
levels there are is the height of the node. A node has no function literal in it if
neither it nor any of its parts, and so on down, is one.
-/

namespace Monkey

mutual

/-- The number of levels of an expression, its own and those of its parts. -/
def Expr.height : Expr → Nat
  | .ident _ | .int _ | .str _ | .bool _ => 1
  | .unary _ a => a.height + 1
  | .binary _ a b => max a.height b.height + 1
  | .cond c t none => max c.height (Block.height t) + 1
  | .cond c t (some e) => max c.height (max (Block.height t) (Block.height e)) + 1
  | .function _ body => Block.height body + 1
  | .call f args => max f.height (Expr.heightEach args) + 1
  | .vector es => Expr.heightEach es + 1
  | .dict ps => Expr.heightPairs ps + 1
  | .index a i => max a.height i.height + 1

def Statement.height : Statement → Nat
  | .let _ e | .return e | .expr e => e.height + 1

/-- A block is one level above its statements. -/
def Block.height : List Statement → Nat
  | [] => 1
  | s :: ss => max (s.height + 1) (Block.height ss)

def Expr.heightEach : List Expr → Nat
  | [] => 0
  | e :: es => max e.height (Expr.heightEach es)

def Expr.heightPairs : List (Expr × Expr) → Nat
  | [] => 0
  | (k, v) :: ps => max (max k.height v.height) (Expr.heightPairs ps)

end

theorem Expr.height_pos (e : Expr) : 0 < e.height := by
  unfold height
  split <;> exact Nat.succ_pos _

theorem Block.height_pos (ss : List Statement) : 0 < Block.height ss := by
  cases ss with
  | nil => exact Nat.one_pos
  | cons s ss => exact Nat.lt_of_lt_of_le (Nat.succ_pos _) (Nat.le_max_left _ _)

theorem Block.height_lt_of_mem {s : Statement} {ss : List Statement} (h : s ∈ ss) :
    s.height < Block.height ss := by
  induction ss with
  | nil => cases h
  | cons t ss ih =>
    obtain rfl | h := List.mem_cons.mp h
    · exact Nat.lt_of_succ_le (Nat.le_max_left _ _)
    · exact Nat.lt_of_lt_of_le (ih h) (Nat.le_max_right _ _)

theorem Expr.height_le_heightEach {e : Expr} {es : List Expr} (h : e ∈ es) :
    e.height ≤ Expr.heightEach es := by
  induction es with
  | nil => cases h
  | cons a es ih =>
    obtain rfl | h := List.mem_cons.mp h
    · exact Nat.le_max_left _ _
    · exact Nat.le_trans (ih h) (Nat.le_max_right _ _)

theorem Expr.height_le_heightPairs {p : Expr × Expr} {ps : List (Expr × Expr)} (h : p ∈ ps) :
    max p.1.height p.2.height ≤ Expr.heightPairs ps := by
  induction ps with
  | nil => cases h
  | cons q ps ih =>
    obtain rfl | h := List.mem_cons.mp h
    · exact Nat.le_max_left _ _
    · exact Nat.le_trans (ih h) (Nat.le_max_right _ _)

namespace Node

def height : Node → Nat
  | .program p => Block.height p
  | .block b => Block.height b
  | .statement s => s.height
  | .expr e => e.height

def parts : Node → List Node
  | .program p => p.map .statement
  | .block b => b.map .statement
  | .statement (.let _ e) | .statement (.return e) | .statement (.expr e) => [.expr e]
  | .expr (.ident _) | .expr (.int _) | .expr (.str _) | .expr (.bool _) => []
  | .expr (.unary _ a) => [.expr a]
  | .expr (.binary _ a b) => [.expr a, .expr b]
  | .expr (.cond c t none) => [.expr c, .block t]
  | .expr (.cond c t (some e)) => [.expr c, .block t, .block e]
  | .expr (.function _ body) => [.block body]
  | .expr (.call f args) => .expr f :: args.map .expr
  | .expr (.vector es) => es.map .expr
  | .expr (.dict ps) => ps.flatMap fun p => [.expr p.1, .expr p.2]
  | .expr (.index a i) => [.expr a, .expr i]

variable {node part : Node}

theorem height_lt_of_mem_parts (h : part ∈ node.parts) : part.height < node.height := by
  have hstatements : ∀ {ss : List Statement}, part ∈ ss.map .statement →
      part.height < Block.height ss := by
    intro ss hpart
    obtain ⟨s, hs, rfl⟩ := List.mem_map.mp hpart
    exact Block.height_lt_of_mem hs
  have hexprs : ∀ {es : List Expr}, part ∈ es.map .expr →
      part.height ≤ Expr.heightEach es := by
    intro es hpart
    obtain ⟨e, he, rfl⟩ := List.mem_map.mp hpart
    exact Expr.height_le_heightEach he
  match node with
  | .program p | .block p => exact hstatements h
  | .statement (.let _ e) | .statement (.return e) | .statement (.expr e)
  | .expr (.unary _ e) =>
    obtain rfl := List.mem_singleton.mp h
    exact Nat.lt_succ_self _
  | .expr (.ident _) | .expr (.int _) | .expr (.str _) | .expr (.bool _) => cases h
  | .expr (.binary _ a b) | .expr (.index a b) =>
    simp only [parts, List.mem_cons, List.not_mem_nil, or_false] at h
    obtain rfl | rfl := h
    · exact Nat.lt_succ_of_le (Nat.le_max_left _ _)
    · exact Nat.lt_succ_of_le (Nat.le_max_right _ _)
  | .expr (.cond c t none) =>
    simp only [parts, List.mem_cons, List.not_mem_nil, or_false] at h
    obtain rfl | rfl := h
    · exact Nat.lt_succ_of_le (Nat.le_max_left _ _)
    · exact Nat.lt_succ_of_le (Nat.le_max_right _ _)
  | .expr (.cond c t (some e)) =>
    simp only [parts, List.mem_cons, List.not_mem_nil, or_false] at h
    obtain rfl | rfl | rfl := h
    · exact Nat.lt_succ_of_le (Nat.le_max_left _ _)
    · exact Nat.lt_succ_of_le (Nat.le_trans (Nat.le_max_left _ _) (Nat.le_max_right _ _))
    · exact Nat.lt_succ_of_le (Nat.le_trans (Nat.le_max_right _ _) (Nat.le_max_right _ _))
  | .expr (.function _ body) =>
    obtain rfl := List.mem_singleton.mp h
    exact Nat.lt_succ_self _
  | .expr (.call f args) =>
    obtain rfl | h := List.mem_cons.mp h
    · exact Nat.lt_succ_of_le (Nat.le_max_left _ _)
    · exact Nat.lt_succ_of_le (Nat.le_trans (hexprs h) (Nat.le_max_right _ _))
  | .expr (.vector es) => exact Nat.lt_succ_of_le (hexprs h)
  | .expr (.dict ps) =>
    obtain ⟨p, hp, h⟩ := List.mem_flatMap.mp h
    simp only [List.mem_cons, List.not_mem_nil, or_false] at h
    obtain ⟨hk, he⟩ := Nat.max_le.mp (Expr.height_le_heightPairs hp)
    obtain rfl | rfl := h
    · exact Nat.lt_succ_of_le hk
    · exact Nat.lt_succ_of_le he

theorem height_pos (node : Node) : 0 < node.height := by
  cases node with
  | program p => exact Block.height_pos p
  | block b => exact Block.height_pos b
  | statement s => cases s <;> exact Nat.succ_pos _
  | expr e => exact e.height_pos

/-- No function literal occurs in the node. -/
inductive FunctionFree : Node → Prop where
  | of_parts {node : Node} (not_function : ∀ params body, node ≠ .expr (.function params body))
      (parts : ∀ part ∈ node.parts, FunctionFree part) : FunctionFree node

theorem FunctionFree.of_mem_parts (hnode : node.FunctionFree) (h : part ∈ node.parts) :
    part.FunctionFree := by
  cases hnode with
  | of_parts _ hparts => exact hparts part h

theorem FunctionFree.ne_function (hnode : node.FunctionFree) (params : List String)
    (body : Block) : node ≠ .expr (.function params body) := by
  cases hnode with
  | of_parts hnot _ => exact hnot params body

end Node

end Monkey
