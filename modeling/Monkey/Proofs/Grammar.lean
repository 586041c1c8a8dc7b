import Monkey.Syntax
import Monkey.Token

/-!
The grammar of Monkey, said without a parser. `Derives c ts t rest` holds when
the tokens `ts` start with a text of category `c` for the tree `t`, and `rest`
is what follows that text.

Expressions come in layers. Each layer but the tightest has the next tighter
one in it and adds one way to build on it, so that the layers alone settle how
a text is grouped. The one thing that is not context-free is the end of a
statement: its semicolon may be left out only where the next token could not
carry the expression on.
-/

namespace Monkey

/-- The layers of expressions, from the loosest to the tightest. -/
inductive Layer where
  | equality | comparison | sum | product | unary | applied | primary
  deriving DecidableEq

/-- The next tighter layer; nothing is tighter than a primary. -/
def Layer.tighter : Layer → Layer
  | .equality => .comparison
  | .comparison => .sum
  | .sum => .product
  | .product => .unary
  | .unary => .applied
  | .applied | .primary => .primary

/-- The layer whose chains an operator makes. -/
def BinaryOp.layer : BinaryOp → Layer
  | .equal | .notEqual => .equality
  | .lessThan | .greaterThan => .comparison
  | .plus | .minus => .sum
  | .multiply | .divide => .product

def BinaryOp.symbol : BinaryOp → Symbol
  | .plus => .plus
  | .minus => .minus
  | .multiply => .asterisk
  | .divide => .slash
  | .equal => .eq
  | .notEqual => .notEq
  | .greaterThan => .gt
  | .lessThan => .lt

def UnaryOp.symbol : UnaryOp → Symbol
  | .minus => .minus
  | .bang => .bang

/-- The ten tokens that would carry an expression on: the operators, and what
opens a call or an index. -/
def Token.continues : Token → Bool
  | .symbol s =>
      s ∈ [.plus, .minus, .asterisk, .slash, .lt, .gt, .eq, .notEq, .lparen, .lbracket]
  | _ => false

/-- The number that a numeral writes in decimal. -/
def decimal (digits : String) : Nat :=
  Nat.ofDigitChars 10 digits.toList 0

/-- The categories of texts. A clause is a statement without its end. -/
inductive Category where
  | expr (layer : Layer)
  | names
  | exprs
  | pairs
  | block
  | clause
  | statement
  | statements

/-- The trees that the texts of a category are for. -/
abbrev Category.Tree : Category → Type
  | .expr _ => Expr
  | .names => List String
  | .exprs => List Expr
  | .pairs => List (Expr × Expr)
  | .clause | .statement => Statement
  | .block | .statements => List Statement

/-- The tokens start with a text of the category for the tree, and the rest
follows it. -/
inductive Derives : (c : Category) → List Token → c.Tree → List Token → Prop where
  | tighter {l : Layer} {ts rest : List Token} {e : Expr} :
      Derives (.expr l.tighter) ts e rest → Derives (.expr l) ts e rest
  | operator {op : BinaryOp} {ts us rest : List Token} {a b : Expr} :
      Derives (.expr op.layer) ts a (.symbol op.symbol :: us) →
      Derives (.expr op.layer.tighter) us b rest →
      Derives (.expr op.layer) ts (Expr.binary op a b) rest
  | unary {op : UnaryOp} {ts rest : List Token} {a : Expr} :
      Derives (.expr .unary) ts a rest →
      Derives (.expr .unary) (.symbol op.symbol :: ts) (Expr.unary op a) rest
  | call {ts us rest : List Token} {f : Expr} {args : List Expr} :
      Derives (.expr .applied) ts f (.symbol .lparen :: us) →
      Derives .exprs us args (.symbol .rparen :: rest) →
      Derives (.expr .applied) ts (Expr.call f args) rest
  | index {ts us rest : List Token} {a i : Expr} :
      Derives (.expr .applied) ts a (.symbol .lbracket :: us) →
      Derives (.expr .equality) us i (.symbol .rbracket :: rest) →
      Derives (.expr .applied) ts (Expr.index a i) rest
  | ident {name : String} {rest : List Token} :
      Derives (.expr .primary) (.ident name :: rest) (Expr.ident name) rest
  | str {text : String} {rest : List Token} :
      Derives (.expr .primary) (.str text :: rest) (Expr.str text) rest
  | truth {rest : List Token} :
      Derives (.expr .primary) (.keyword .true :: rest) (Expr.bool true) rest
  | falsity {rest : List Token} :
      Derives (.expr .primary) (.keyword .false :: rest) (Expr.bool false) rest
  /-- The number is at most `2 ^ 63 - 1`. -/
  | int {digits : String} {rest : List Token} :
      decimal digits ≤ 9223372036854775807 →
      Derives (.expr .primary) (.int digits :: rest)
        (Expr.int (Int64.ofNat (decimal digits))) rest
  | group {ts rest : List Token} {e : Expr} :
      Derives (.expr .equality) ts e (.symbol .rparen :: rest) →
      Derives (.expr .primary) (.symbol .lparen :: ts) e rest
  | cond {ts us rest : List Token} {c : Expr} {t : List Statement} :
      Derives (.expr .equality) ts c (.symbol .rparen :: us) →
      Derives .block us t rest →
      Derives (.expr .primary) (.keyword .if :: .symbol .lparen :: ts) (Expr.cond c t none) rest
  | condElse {ts us vs rest : List Token} {c : Expr} {t e : List Statement} :
      Derives (.expr .equality) ts c (.symbol .rparen :: us) →
      Derives .block us t (.keyword .else :: vs) →
      Derives .block vs e rest →
      Derives (.expr .primary) (.keyword .if :: .symbol .lparen :: ts)
        (Expr.cond c t (some e)) rest
  | function {ts us rest : List Token} {params : List String} {body : List Statement} :
      Derives .names ts params (.symbol .rparen :: us) →
      Derives .block us body rest →
      Derives (.expr .primary) (.keyword .fn :: .symbol .lparen :: ts)
        (Expr.function params body) rest
  | vector {ts rest : List Token} {es : List Expr} :
      Derives .exprs ts es (.symbol .rbracket :: rest) →
      Derives (.expr .primary) (.symbol .lbracket :: ts) (Expr.vector es) rest
  | dict {ts rest : List Token} {ps : List (Expr × Expr)} :
      Derives .pairs ts ps (.symbol .rbrace :: rest) →
      Derives (.expr .primary) (.symbol .lbrace :: ts) (Expr.dict ps) rest
  | noNames {rest : List Token} : Derives .names rest [] rest
  | lastName {name : String} {rest : List Token} :
      Derives .names (.ident name :: rest) [name] rest
  | moreNames {name next : String} {names : List String} {ts rest : List Token} :
      Derives .names ts (next :: names) rest →
      Derives .names (.ident name :: .symbol .comma :: ts) (name :: next :: names) rest
  | noExprs {rest : List Token} : Derives .exprs rest [] rest
  | lastExpr {ts rest : List Token} {e : Expr} :
      Derives (.expr .equality) ts e rest → Derives .exprs ts [e] rest
  | moreExprs {ts us rest : List Token} {e next : Expr} {es : List Expr} :
      Derives (.expr .equality) ts e (.symbol .comma :: us) →
      Derives .exprs us (next :: es) rest →
      Derives .exprs ts (e :: next :: es) rest
  | noPairs {rest : List Token} : Derives .pairs rest [] rest
  | lastPair {ts us rest : List Token} {k v : Expr} :
      Derives (.expr .equality) ts k (.symbol .colon :: us) →
      Derives (.expr .equality) us v rest →
      Derives .pairs ts [(k, v)] rest
  /-- Nothing need come after the comma. -/
  | morePairs {ts us vs rest : List Token} {k v : Expr} {ps : List (Expr × Expr)} :
      Derives (.expr .equality) ts k (.symbol .colon :: us) →
      Derives (.expr .equality) us v (.symbol .comma :: vs) →
      Derives .pairs vs ps rest →
      Derives .pairs ts ((k, v) :: ps) rest
  | block {ts rest : List Token} {b : List Statement} :
      Derives .statements ts b (.symbol .rbrace :: rest) →
      Derives .block (.symbol .lbrace :: ts) b rest
  | let {name : String} {ts rest : List Token} {e : Expr} :
      Derives (.expr .equality) ts e rest →
      Derives .clause (.keyword .let :: .ident name :: .symbol .assign :: ts)
        (Statement.let name e) rest
  | return {ts rest : List Token} {e : Expr} :
      Derives (.expr .equality) ts e rest →
      Derives .clause (.keyword .return :: ts) (Statement.return e) rest
  | bare {ts rest : List Token} {e : Expr} :
      Derives (.expr .equality) ts e rest → Derives .clause ts (Statement.expr e) rest
  | ended {ts rest : List Token} {s : Statement} :
      Derives .clause ts s (.symbol .semicolon :: rest) → Derives .statement ts s rest
  | unended {ts rest : List Token} {s : Statement} :
      Derives .clause ts s rest → (∀ next ∈ rest.head?, next.continues = false) →
      Derives .statement ts s rest
  | noStatements {rest : List Token} : Derives .statements rest [] rest
  | moreStatements {ts us rest : List Token} {s : Statement} {ss : List Statement} :
      Derives .statement ts s us →
      Derives .statements us ss rest →
      Derives .statements ts (s :: ss) rest

/-- The tokens that an expression can start with. -/
def Token.startsExpr : Token → Bool
  | .ident _ | .int _ | .str _ => true
  | .keyword k => k ∈ [.true, .false, .if, .fn]
  | .symbol s => s ∈ [.bang, .minus, .lparen, .lbracket, .lbrace]
  | _ => false

/-- The tokens that a statement can start with. -/
def Token.starts : Token → Bool
  | .keyword .let | .keyword .return => true
  | t => t.startsExpr

theorem Token.starts_of_startsExpr {t : Token} (h : t.startsExpr = true) : t.starts = true := by
  unfold Token.starts
  split
  · rfl
  · rfl
  · exact h

/-- Whether a text of a category can start with a token. Of the other categories
there are empty texts. -/
def Category.starts : Category → Token → Bool
  | .expr _, t => t.startsExpr
  | .clause, t | .statement, t => t.starts
  | _, _ => true

def Category.isSolid : Category → Bool
  | .expr _ | .clause | .statement => true
  | _ => false

/-- An expression or a statement is not empty, and its first token is one that
can start it. -/
theorem Derives.head_starts {c : Category} {ts rest : List Token} {tree : c.Tree}
    (h : Derives c ts tree rest) (hsolid : c.isSolid = true) :
    ∃ t us, ts = t :: us ∧ c.starts t = true := by
  induction h with
  | tighter _ ih | ended _ ih => exact ih rfl
  | operator _ _ ih _ | call _ _ ih _ | index _ _ ih _ => exact ih rfl
  | unended _ _ ih => exact ih rfl
  | bare _ ih =>
    obtain ⟨t, us, hts, ht⟩ := ih rfl
    exact ⟨t, us, hts, Token.starts_of_startsExpr ht⟩
  | @unary op _ _ _ _ _ => cases op <;> exact ⟨_, _, rfl, rfl⟩
  | ident | str | truth | falsity | int | group | cond | condElse | function | vector | dict
  | «let» | «return» => exact ⟨_, _, rfl, rfl⟩
  | noNames | lastName | moreNames | noExprs | lastExpr | moreExprs | noPairs | lastPair
  | morePairs | block | noStatements | moreStatements => cases hsolid

/-- Statements are empty or start as a statement does. -/
theorem Derives.statements_head {ts rest : List Token} {ss : List Statement}
    (h : Derives .statements ts ss rest) :
    ts = rest ∨ ∃ t us, ts = t :: us ∧ t.starts = true := by
  cases h with
  | noStatements => exact .inl rfl
  | moreStatements hs _ => exact .inr (hs.head_starts rfl)

end Monkey
