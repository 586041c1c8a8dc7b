import Monkey.Token

/-!
Cutting a text into tokens. Blanks are skipped; then the first character
settles what sort of word follows, and the word is as long as it can be. A
string runs to the next quote or, if there is none, to the end of the text; it
knows no escapes. A character that starts no word is a token by itself.
-/

namespace Monkey

/-- The characters that separate words and mean nothing else. -/
def isSpace (c : Char) : Bool :=
  c == ' ' || c == '\t' || c == '\r' || c == '\n'

/-- The characters of names and keywords: the letters `a` to `z` in both
cases, and the underscore. -/
def isLetter (c : Char) : Bool :=
  c.isAlpha || c == '_'

/-- The symbol that a text starts with, and the text after it. A symbol of two
characters is preferred to its first character alone. -/
def Symbol.scan? : List Char → Option (Symbol × List Char)
  | '=' :: '=' :: r => some (.eq, r)
  | '=' :: r => some (.assign, r)
  | '!' :: '=' :: r => some (.notEq, r)
  | '!' :: r => some (.bang, r)
  | '+' :: r => some (.plus, r)
  | '-' :: r => some (.minus, r)
  | '*' :: r => some (.asterisk, r)
  | '/' :: r => some (.slash, r)
  | '<' :: r => some (.lt, r)
  | '>' :: r => some (.gt, r)
  | '(' :: r => some (.lparen, r)
  | ')' :: r => some (.rparen, r)
  | '{' :: r => some (.lbrace, r)
  | '}' :: r => some (.rbrace, r)
  | '[' :: r => some (.lbracket, r)
  | ']' :: r => some (.rbracket, r)
  | ',' :: r => some (.comma, r)
  | ';' :: r => some (.semicolon, r)
  | ':' :: r => some (.colon, r)
  | _ => none

theorem Symbol.scan?_eq_append {s : List Char} {symbol : Symbol} {rest : List Char}
    (h : Symbol.scan? s = some (symbol, rest)) : s = symbol.text.toList ++ rest := by
  unfold Symbol.scan? at h
  split at h <;> cases h <;> rfl

/-- The word at the very start of a text, and the text after it. -/
def scanWord : List Char → Token × List Char
  | [] => (.eof, [])
  | c :: r =>
    if c = '"' then
      (.str (String.ofList (r.takeWhile (· ≠ '"'))), (r.dropWhile (· ≠ '"')).drop 1)
    else if c.isDigit then
      (.int (String.ofList (c :: r.takeWhile Char.isDigit)), r.dropWhile Char.isDigit)
    else if isLetter c then
      (.ofWord (String.ofList (c :: r.takeWhile isLetter)), r.dropWhile isLetter)
    else
      match Symbol.scan? (c :: r) with
      | some (symbol, rest) => (.symbol symbol, rest)
      | none => (.illegal c, r)

/-- The next word of a text, and the text after it. -/
def scan (s : List Char) : Token × List Char :=
  scanWord (s.dropWhile isSpace)

private theorem length_dropWhile_le {α : Type} (p : α → Bool) (l : List α) :
    (l.dropWhile p).length ≤ l.length :=
  (List.dropWhile_sublist p).length_le

theorem scanWord_rest_lt (c : Char) (r : List Char) :
    (scanWord (c :: r)).2.length < (c :: r).length := by
  simp only [scanWord]
  split
  · have := length_dropWhile_le (· ≠ '"') r
    simp only [List.length_drop, List.length_cons]
    omega
  · split
    · have := length_dropWhile_le Char.isDigit r
      simp only [List.length_cons]
      omega
    · split
      · have := length_dropWhile_le isLetter r
        simp only [List.length_cons]
        omega
      · split
        · rename_i symbol rest h
          have hs := Symbol.scan?_eq_append h
          have hpos : 0 < symbol.text.toList.length := by cases symbol <;> decide
          rw [hs, List.length_append]
          show rest.length < _
          omega
        · simp

/-- Every word but the end takes something off the text. -/
theorem scan_rest_lt {s : List Char} (h : (scan s).1 ≠ .eof) :
    (scan s).2.length < s.length := by
  unfold scan at h ⊢
  have hle := length_dropWhile_le isSpace s
  cases hs : s.dropWhile isSpace with
  | nil => simp [hs, scanWord] at h
  | cons c r =>
    have := scanWord_rest_lt c r
    rw [hs] at hle
    omega

/-- The words of a text, without the end that follows them. -/
def tokens (s : List Char) : List Token :=
  let next := scan s
  if h : next.1 = .eof then []
  else
    have := scan_rest_lt h
    next.1 :: tokens next.2
termination_by s.length

/-- The words of a text and the end after them. -/
def lex (source : String) : List Token :=
  tokens source.toList ++ [.eof]

end Monkey
