/-!
Quoted text. Quotes and backslashes are escaped, and so are characters that
leave no mark of their own on a page: the four usual control characters by
letter, the others by their code point in hexadecimal.
-/

namespace Monkey.Text

/-- The characters that are not shown as themselves: controls, separators other than the
blank, marks of format, marks that combine with the character before them, private characters
and noncharacters. This stops at the blocks that are for such characters alone. Marks that
stand among the letters of a script, as U+0483 does, count as printable, and so do code
points below U+E0000 that no character has yet. -/
def isUnprintable (c : Char) : Bool :=
  let n := c.toNat
  n < 0x20 || (0x7f ≤ n && n ≤ 0xa0) || n == 0xad ||
    (0x300 ≤ n && n ≤ 0x36f) || n == 0x1680 || n == 0x180e ||
    (0x1ab0 ≤ n && n ≤ 0x1aff) || (0x1dc0 ≤ n && n ≤ 0x1dff) || (0x2000 ≤ n && n ≤ 0x200f) ||
    (0x2028 ≤ n && n ≤ 0x202f) || (0x205f ≤ n && n ≤ 0x206f) || (0x20d0 ≤ n && n ≤ 0x20ff) ||
    n == 0x3000 || (0xe000 ≤ n && n ≤ 0xf8ff) || (0xfdd0 ≤ n && n ≤ 0xfdef) ||
    (0xfe00 ≤ n && n ≤ 0xfe0f) || (0xfe20 ≤ n && n ≤ 0xfe2f) || n == 0xfeff ||
    (0xfff0 ≤ n && n ≤ 0xfffb) || 0xfffe ≤ n % 0x10000 || 0xe0000 ≤ n

/-- A character as it stands in a quoted text. -/
def escaped (c : Char) : List Char :=
  if c = '"' then ['\\', '"']
  else if c = '\\' then ['\\', '\\']
  else if c = '\n' then ['\\', 'n']
  else if c = '\r' then ['\\', 'r']
  else if c = '\t' then ['\\', 't']
  else if c = '\x00' then ['\\', '0']
  else if isUnprintable c then ['\\', 'u', '{'] ++ Nat.toDigits 16 c.toNat ++ ['}']
  else [c]

def quoted (text : String) : String :=
  String.ofList ('"' :: text.toList.flatMap escaped ++ ['"'])

end Monkey.Text
