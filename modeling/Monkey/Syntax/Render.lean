import Monkey.Integer
import Monkey.Syntax
import Monkey.Text.Join

/-!
Syntax trees as text. Operators and indexing are put in parentheses, so that
the text shows how it was understood, and a statement that is an expression is
followed by a semicolon only where another statement comes after it.
-/

namespace Monkey

open Text

/-- The text of a block, given that of its statements. -/
def Block.braced (block : Block) (text : String) : String :=
  if block.isEmpty then "\x7b\x7d" else "\x7b " ++ text ++ " \x7d"

/-- What is written between a statement and the next one. -/
def Statement.separator : Statement → String
  | .expr _ => "; "
  | _ => " "

mutual

def Expr.render : Expr → String
  | .ident name => name
  | .int n => Integer.text n
  | .str text => "\"" ++ text ++ "\""
  | .bool b => if b then "true" else "false"
  | .unary op a => "(" ++ op.text ++ a.render ++ ")"
  | .binary op a b => "(" ++ a.render ++ " " ++ op.text ++ " " ++ b.render ++ ")"
  | .cond c t e =>
    "if (" ++ c.render ++ ") " ++ Block.braced t (Block.render t) ++
      match e with
      | none => ""
      | some e => " else " ++ Block.braced e (Block.render e)
  | .function params body =>
    "fn(" ++ commaSeparated params ++ ") " ++ Block.braced body (Block.render body)
  | .call f args => f.render ++ "(" ++ commaSeparated (Expr.renderEach args) ++ ")"
  | .vector es => "[" ++ commaSeparated (Expr.renderEach es) ++ "]"
  | .dict ps => "\x7b" ++ commaSeparated (Expr.renderPairs ps) ++ "\x7d"
  | .index a i => "(" ++ a.render ++ "[" ++ i.render ++ "])"

def Statement.render : Statement → String
  | .let name e => "let " ++ name ++ " = " ++ e.render ++ ";"
  | .return e => "return " ++ e.render ++ ";"
  | .expr e => e.render

def Block.render : List Statement → String
  | [] => ""
  | [s] => s.render
  | s :: t :: ss => s.render ++ s.separator ++ Block.render (t :: ss)

def Expr.renderEach : List Expr → List String
  | [] => []
  | e :: es => e.render :: Expr.renderEach es

def Expr.renderPairs : List (Expr × Expr) → List String
  | [] => []
  | (k, v) :: ps => (k.render ++ ": " ++ v.render) :: Expr.renderPairs ps

end

def Node.render : Node → String
  | .program p => Block.render p
  | .block b => Block.render b
  | .statement s => s.render
  | .expr e => e.render

end Monkey
