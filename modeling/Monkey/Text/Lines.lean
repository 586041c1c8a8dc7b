/-!
Lines of input. A line ends after a line feed, which belongs to it; what comes
after the last line feed is a line too, unless it is empty. A line of bytes
that are not UTF-8 has no text.
-/

namespace Monkey.Text

/-- Cuts a list after each item that ends a line. The pieces put together give
the list again. -/
def linesOf {α : Type} (endsLine : α → Bool) : List α → List (List α)
  | [] => []
  | a :: as =>
    if endsLine a then [a] :: linesOf endsLine as
    else
      match linesOf endsLine as with
      | [] => [[a]]
      | line :: lines => (a :: line) :: lines

theorem flatten_linesOf {α : Type} (endsLine : α → Bool) (as : List α) :
    (linesOf endsLine as).flatten = as := by
  induction as with
  | nil => rfl
  | cons a as ih =>
    unfold linesOf
    split
    · simp [ih]
    · cases hlines : linesOf endsLine as with
      | nil => simpa [hlines] using ih
      | cons line lines => simpa [hlines] using ih

def decode (bytes : List UInt8) : Option String :=
  String.fromUTF8? ⟨bytes.toArray⟩

/-- The lines of an input, each with its text if it has one. -/
def inputLines (input : ByteArray) : List (Option String) :=
  (linesOf (· == '\n'.toUInt8) input.data.toList).map decode

end Monkey.Text
