import Monkey.Syntax.Read
import Monkey.Token.Cursor

/-!
Reading a text from wherever a cursor stands. A parser keeps the tokens that
are left and the errors met so far; once it has read a program there are no
tokens left, and reading again gives the empty program.
-/

namespace Monkey

structure Parser where
  /-- From the one that the parser is at to the last one before the end. -/
  tokens : List Token
  errors : List SyntaxError

/-- Two words are drawn at once, the one to be at and the one to look at behind it. -/
def Parser.ofCursor (c : Cursor) : Parser :=
  let (current, c) := c.advance
  let (peek, c) := c.advance
  ⟨[current, peek].filter (· ≠ .eof) ++ c.tokens, []⟩

/-- The program that the tokens write. Statements that go wrong are not in it;
there is an error for each of them. -/
def Parser.program (p : Parser) : Program × Parser :=
  let r := Program.read p.tokens
  (r.node?.getD [], ⟨r.rest, p.errors ++ r.errors⟩)

/-- The program that a text writes, and the errors in it in the order in which
they were met. -/
def parse (source : String) : Program × List SyntaxError :=
  let (program, p) := (Parser.ofCursor (.ofText source)).program
  (program, p.errors)

end Monkey
