import Monkey.Integer
import Monkey.Syntax
import Monkey.Syntax.Reading
import Monkey.Token.Scan

/-!
Reading programs. A statement that goes wrong is dropped, with the error that
stopped it, and reading goes on at the next token; this holds in blocks as it
does at the top. A token that starts no expression is left behind where one is
to start, be it the brace that would have closed the block.

Every reader takes the tokens from the first one of its construct on, and calls
others on what it has left. Each time there are fewer tokens, or as many and a
reader of lower rank; the measures weigh a token as much as all four ranks.

An expression is an operand and the suffixes after it: an operator binds what
stands to its left if its power is greater than the one it is read under, and
reads its right side under its own power, so that operators of one power group
to the left.
-/

namespace Monkey

open ReadingWithin

/-- One token of the given kind. -/
def Kind.read (kind : Kind) : (ts : List Token) → ReadingWithin ts.length Unit
  | [] => fail (.unexpected kind .eof) []
  | t :: ts =>
    if t.kind = kind then (done () ts).weaken (Nat.le_succ _)
    else fail (.unexpected kind t.kind) (t :: ts)

/-- One name. -/
def readName : (ts : List Token) → ReadingWithin ts.length String
  | .ident name :: ts => (done name ts).weaken (Nat.le_succ _)
  | ts => fail (.unexpected .ident (Kind.ofHead ts)) ts

/-- The parameters after the first, and the closing parenthesis. -/
def readMoreParams : (ts : List Token) → ReadingWithin ts.length (List String)
  | .symbol .comma :: .ident name :: ts =>
    ((readMoreParams ts).map (name :: ·)).weaken (by simp; omega)
  | .symbol .comma :: ts =>
    (fail (.unexpected .ident (Kind.ofHead ts)) ts).weaken (Nat.le_succ _)
  | ts => ((Kind.symbol .rparen).read ts).map fun _ => []

/-- The parameters of a function, and the closing parenthesis. -/
def readParams : (ts : List Token) → ReadingWithin ts.length (List String)
  | .symbol .rparen :: ts => (done [] ts).weaken (Nat.le_succ _)
  | ts => (readName ts).andThen fun name ts _ => (readMoreParams ts).map (name :: ·)

/-- What may follow an operand and take it in. -/
inductive Suffix where
  | operator (op : BinaryOp)
  | call
  | index
  deriving DecidableEq

/-- How strongly a suffix binds what stands to its left. -/
def Suffix.power : Suffix → Nat
  | .operator .equal | .operator .notEqual => 1
  | .operator .lessThan | .operator .greaterThan => 2
  | .operator .plus | .operator .minus => 3
  | .operator .multiply | .operator .divide => 4
  | .call => 6
  | .index => 7

/-- The power under which the operand of `-` and `!` is read: calls and
indexing belong to the operand, and operators do not. -/
def UnaryOp.power : Nat := 5

/-- The suffix that a token starts. -/
def Suffix.ofToken? : Token → Option Suffix
  | .symbol .plus => some (.operator .plus)
  | .symbol .minus => some (.operator .minus)
  | .symbol .asterisk => some (.operator .multiply)
  | .symbol .slash => some (.operator .divide)
  | .symbol .eq => some (.operator .equal)
  | .symbol .notEq => some (.operator .notEqual)
  | .symbol .lt => some (.operator .lessThan)
  | .symbol .gt => some (.operator .greaterThan)
  | .symbol .lparen => some .call
  | .symbol .lbracket => some .index
  | _ => none

mutual

/-- An expression whose operators all have more than the given power. -/
def Expr.read (power : Nat) (ts : List Token) : ReadingWithin ts.tail.length Expr :=
  (Expr.readOperand ts).andThen fun left rest _ => Expr.readSuffixes power left rest
termination_by 4 * ts.length + 1
decreasing_by all_goals grind

/-- An expression that starts with its first token and is not continued. -/
def Expr.readOperand (ts : List Token) : ReadingWithin ts.tail.length Expr :=
  match ts with
  | .ident name :: ts => done (.ident name) ts
  | .int digits :: ts =>
    match Integer.ofDigits? digits with
    | some n => done (.int n) ts
    | none => fail (.integerTooLarge digits) ts
  | .str text :: ts => done (.str text) ts
  | .keyword .true :: ts => done (.bool true) ts
  | .keyword .false :: ts => done (.bool false) ts
  | .symbol .bang :: ts => ((Expr.read UnaryOp.power ts).map (.unary .bang)).weaken (by simp)
  | .symbol .minus :: ts => ((Expr.read UnaryOp.power ts).map (.unary .minus)).weaken (by simp)
  | .symbol .lparen :: ts =>
    ((Expr.read 0 ts).andThen fun e ts _ =>
      ((Kind.symbol .rparen).read ts).map fun _ => e).weaken (by simp)
  | .keyword .if :: ts =>
    ((Kind.symbol .lparen).read ts).andThen fun _ ts _ =>
      ((Expr.read 0 ts).weaken (by simp)).andThen fun c ts _ =>
        ((Kind.symbol .rparen).read ts).andThen fun _ ts _ =>
          ((Kind.symbol .lbrace).read ts).andThen fun _ ts _ =>
            (Block.read ts).andThen fun t ts _ =>
              match ts with
              | .keyword .else :: ts =>
                (((Kind.symbol .lbrace).read ts).andThen fun _ ts _ =>
                  (Block.read ts).map fun e => .cond c t (some e)).weaken (by simp)
              | ts => done (.cond c t none) ts
  | .keyword .fn :: ts =>
    ((Kind.symbol .lparen).read ts).andThen fun _ ts _ =>
      (readParams ts).andThen fun params ts _ =>
        ((Kind.symbol .lbrace).read ts).andThen fun _ ts _ =>
          (Block.read ts).map fun body => .function params body
  | .symbol .lbracket :: ts => (Expr.readList (.symbol .rbracket) ts).map .vector
  | .symbol .lbrace :: ts => (Expr.readPairs ts).map .dict
  | t :: ts => fail (.noExpression t.kind) ts
  | [] => fail (.noExpression .eof) []
termination_by 4 * ts.length + 0
decreasing_by all_goals grind

/-- The suffixes after an expression that have more than the given power. -/
def Expr.readSuffixes (power : Nat) (left : Expr) (ts : List Token) :
    ReadingWithin ts.length Expr :=
  match ts with
  | [] => done left []
  | t :: ts =>
    match Suffix.ofToken? t with
    | none => done left (t :: ts)
    | some s =>
      if power < s.power then
        (match s with
        | .operator op =>
          ((Expr.read s.power ts).weaken (by simp)).andThen fun right ts _ =>
            Expr.readSuffixes power (.binary op left right) ts
        | .call =>
          (Expr.readList (.symbol .rparen) ts).andThen fun args ts _ =>
            Expr.readSuffixes power (.call left args) ts
        | .index =>
          ((Expr.read 0 ts).weaken (by simp)).andThen fun key ts _ =>
            ((Kind.symbol .rbracket).read ts).andThen fun _ ts _ =>
              Expr.readSuffixes power (.index left key) ts :
          ReadingWithin ts.length Expr).weaken (Nat.le_succ _)
      else done left (t :: ts)
termination_by 4 * ts.length + 0
decreasing_by all_goals grind

/-- Expressions with commas between them, and the token that closes them. -/
def Expr.readList (close : Kind) (ts : List Token) : ReadingWithin ts.length (List Expr) :=
  if Kind.ofHead ts = close then (done [] ts.tail).weaken (by simp)
  else
    ((Expr.read 0 ts).weaken (by simp)).andThen fun e ts _ =>
      (Expr.readMoreList close ts).map (e :: ·)
termination_by 4 * ts.length + 2
decreasing_by all_goals grind

/-- The expressions after the first, and the token that closes them. -/
def Expr.readMoreList (close : Kind) (ts : List Token) : ReadingWithin ts.length (List Expr) :=
  match ts with
  | .symbol .comma :: ts =>
    ((Expr.read 0 ts).andThen fun e ts _ =>
      (Expr.readMoreList close ts).map (e :: ·)).weaken (by simp; omega)
  | ts => (close.read ts).map fun _ => []
termination_by 4 * ts.length + 0
decreasing_by all_goals grind

/-- The pairs of a dict, and the closing brace. A comma may stand before the
brace. -/
def Expr.readPairs (ts : List Token) : ReadingWithin ts.length (List (Expr × Expr)) :=
  match ts with
  | .symbol .rbrace :: ts => (done [] ts).weaken (Nat.le_succ _)
  | ts =>
    ((Expr.read 0 ts).weaken (by simp)).andThen fun key ts _ =>
      ((Kind.symbol .colon).read ts).andThen fun _ ts _ =>
        ((Expr.read 0 ts).weaken (by simp)).andThen fun value ts _ =>
          match ts with
          | .symbol .rbrace :: ts => (done [(key, value)] ts).weaken (Nat.le_succ _)
          | .symbol .comma :: ts =>
            ((Expr.readPairs ts).map ((key, value) :: ·)).weaken (Nat.le_succ _)
          | ts => fail (.unexpected (.symbol .comma) (Kind.ofHead ts)) ts
termination_by 4 * ts.length + 2
decreasing_by all_goals grind

/-- The statements of a block, and the closing brace. -/
def Block.read (ts : List Token) : ReadingWithin ts.length (List Statement) :=
  match ts with
  | [] => fail (.unexpected (.symbol .rbrace) .eof) []
  | .symbol .rbrace :: ts => (done [] ts).weaken (Nat.le_succ _)
  | t :: ts =>
    ((Statement.read (t :: ts)).regardless fun s? ts _ =>
      (Block.read ts).map (s?.toList ++ ·)).weaken (by simp)
termination_by 4 * ts.length + 3
decreasing_by all_goals grind

/-- A statement, and the semicolon after it if there is one. -/
def Statement.read (ts : List Token) : ReadingWithin ts.tail.length Statement :=
  match ts with
  | .keyword .let :: ts =>
    ((readName ts).andThen fun name ts _ =>
      ((Kind.symbol .assign).read ts).andThen fun _ ts _ =>
        ((Expr.read 0 ts).map (.let name)).weaken (by simp)).dropSemicolon
  | .keyword .return :: ts => (((Expr.read 0 ts).map .return).weaken (by simp)).dropSemicolon
  | ts => ((Expr.read 0 ts).map .expr).dropSemicolon
termination_by 4 * ts.length + 2
decreasing_by all_goals grind

end

/-- Statements to the end of the input. -/
def Program.read : List Token → Reading Program
  | [] => ⟨some [], [], []⟩
  | t :: ts =>
    let s := Statement.read (t :: ts)
    let p := Program.read s.rest
    ⟨p.node?.map (s.node?.toList ++ ·), s.errors ++ p.errors, p.rest⟩
termination_by ts => ts.length
decreasing_by
  have := (Statement.read (t :: ts)).rest_le
  grind

end Monkey
