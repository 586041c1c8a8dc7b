/-!
The words of a Monkey text. A token is one word together with what it says:
symbols and keywords say no more than which one they are, while names,
numerals, strings and stray characters carry their text. The end of the input
is a token too, so that whoever asks for the next word always gets one.

A token's kind is what is left when that text is forgotten. Syntax errors
speak of kinds only, under the names given by `Kind.name`.
-/

namespace Monkey

/-- The words that are made of neither letters, digits nor quotes. -/
inductive Symbol where
  | comma | semicolon | colon
  | lparen | rparen | lbrace | rbrace | lbracket | rbracket
  | assign | plus | minus | bang | asterisk | slash | lt | gt | eq | notEq
  deriving DecidableEq

/-- A symbol as it is written. -/
def Symbol.text : Symbol → String
  | .comma => ","
  | .semicolon => ";"
  | .colon => ":"
  | .lparen => "("
  | .rparen => ")"
  | .lbrace => "\x7b"
  | .rbrace => "\x7d"
  | .lbracket => "["
  | .rbracket => "]"
  | .assign => "="
  | .plus => "+"
  | .minus => "-"
  | .bang => "!"
  | .asterisk => "*"
  | .slash => "/"
  | .lt => "<"
  | .gt => ">"
  | .eq => "=="
  | .notEq => "!="

/-- The words of letters that no name may take. -/
inductive Keyword where
  | fn | «let» | true | false | «if» | «else» | «return»
  deriving DecidableEq

/-- A keyword as it is written. -/
def Keyword.text : Keyword → String
  | .fn => "fn"
  | .let => "let"
  | .true => "true"
  | .false => "false"
  | .if => "if"
  | .else => "else"
  | .return => "return"

/-- The keyword that a word is, if it is one. -/
def Keyword.ofText? (word : String) : Option Keyword :=
  match word with
  | "fn" => some .fn
  | "let" => some .let
  | "true" => some .true
  | "false" => some .false
  | "if" => some .if
  | "else" => some .else
  | "return" => some .return
  | _ => none

theorem Keyword.ofText?_text (k : Keyword) : Keyword.ofText? k.text = some k := by
  cases k <;> rfl

theorem Keyword.text_of_ofText? {word : String} {k : Keyword}
    (h : Keyword.ofText? word = some k) : k.text = word := by
  unfold Keyword.ofText? at h
  split at h <;> cases h <;> rfl

/-- What sort of word a token is. -/
inductive Kind where
  | illegal
  | eof
  | symbol (s : Symbol)
  | keyword (k : Keyword)
  | ident
  | int
  | str
  deriving DecidableEq

/-- How messages call a kind. -/
def Kind.name : Kind → String
  | .illegal => "ILLEGAL"
  | .eof => "EOF"
  | .symbol s => s.text
  | .keyword .fn => "FUNCTION"
  | .keyword .let => "LET"
  | .keyword .true => "TRUE"
  | .keyword .false => "FALSE"
  | .keyword .if => "IF"
  | .keyword .else => "ELSE"
  | .keyword .return => "RETURN"
  | .ident => "IDENT"
  | .int => "INT"
  | .str => "STR"

inductive Token where
  | illegal (c : Char)
  | eof
  | symbol (s : Symbol)
  | keyword (k : Keyword)
  | ident (name : String)
  | int (digits : String)
  | str (text : String)
  deriving DecidableEq

def Token.kind : Token → Kind
  | .illegal _ => .illegal
  | .eof => .eof
  | .symbol s => .symbol s
  | .keyword k => .keyword k
  | .ident _ => .ident
  | .int _ => .int
  | .str _ => .str

/-- The text that a token stands for. A string's quotes are not part of it,
and the end of the input has none. -/
def Token.literal : Token → String
  | .illegal c => c.toString
  | .eof => ""
  | .symbol s => s.text
  | .keyword k => k.text
  | .ident name => name
  | .int digits => digits
  | .str text => text

/-- A word of letters is a keyword where it can be one, and a name otherwise. -/
def Token.ofWord (word : String) : Token :=
  match Keyword.ofText? word with
  | some k => .keyword k
  | none => .ident word

theorem Token.literal_ofWord (word : String) : (Token.ofWord word).literal = word := by
  unfold Token.ofWord
  cases h : Keyword.ofText? word with
  | none => rfl
  | some k => exact Keyword.text_of_ofText? h

/-- The kind at the head of a list of tokens; an empty list is at the end of
the input. -/
def Kind.ofHead : List Token → Kind
  | [] => .eof
  | t :: _ => t.kind

end Monkey
