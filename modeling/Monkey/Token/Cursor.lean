import Monkey.Token.Scan

/-!
A place in a text from which words are drawn one at a time, in either of two
ways that may be mixed: `advance` always answers, with the end again and again
once the text is used up, while `next?` stops after it has itself answered
with the end. Both move the same place, so a word drawn in one way is not seen
in the other.
-/

namespace Monkey

structure Cursor where
  /-- The text that has not been drawn yet. -/
  rest : List Char
  /-- Whether `next?` has answered with the end. -/
  finished : Bool

def Cursor.ofText (source : String) : Cursor := ⟨source.toList, false⟩

/-- The next word; at the end of the text, the end. -/
def Cursor.advance (c : Cursor) : Token × Cursor :=
  let (t, rest) := scan c.rest
  (t, { c with rest })

/-- The next word, until the end has been drawn this way. -/
def Cursor.next? (c : Cursor) : Option Token × Cursor :=
  if c.finished then (none, c)
  else
    let (t, c) := c.advance
    (some t, { c with finished := t == .eof })

/-- The two ways to ask a cursor for a word. -/
inductive Draw where
  | advance
  | next
  deriving DecidableEq

def Cursor.draw (c : Cursor) : Draw → Option Token × Cursor
  | .advance =>
    let (t, c) := c.advance
    (some t, c)
  | .next => c.next?

/-- The answers to a sequence of requests to one cursor, and the cursor after
them. -/
def Cursor.drawAll (c : Cursor) : List Draw → List (Option Token) × Cursor
  | [] => ([], c)
  | d :: ds =>
    let (answer, c) := c.draw d
    let (answers, c) := c.drawAll ds
    (answer :: answers, c)

/-- The words that are still to be drawn, without the end. -/
def Cursor.tokens (c : Cursor) : List Token := Monkey.tokens c.rest

end Monkey
