/-!
Blank text. The blanks are the characters with the Unicode property
White_Space, of which there are twenty-five; the words of a program are
separated by four of them only.
-/

namespace Monkey.Text

def isBlank (c : Char) : Bool :=
  let n := c.toNat
  (0x09 ≤ n && n ≤ 0x0d) || n == 0x20 || n == 0x85 || n == 0xa0 || n == 0x1680 ||
    (0x2000 ≤ n && n ≤ 0x200a) || n == 0x2028 || n == 0x2029 || n == 0x202f ||
    n == 0x205f || n == 0x3000

/-- Whether a text shows nothing at all. -/
def allBlank (text : String) : Bool := text.toList.all isBlank

end Monkey.Text
