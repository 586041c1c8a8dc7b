import Monkey.Text.Quoted
import Monkey.Token
import Monkey.Value.Inspect

/-!
Tokens and values spelled out, for whoever looks into a running program. Every
value says of what type it is and every text is quoted, so that nothing shown
here can be mistaken for something else.
-/

namespace Monkey

open Text

/-- The name of a symbol's kind. -/
def Symbol.label : Symbol → String
  | .comma => "Comma"
  | .semicolon => "Semicolon"
  | .colon => "Colon"
  | .lparen => "LParen"
  | .rparen => "RParen"
  | .lbrace => "LBrace"
  | .rbrace => "RBrace"
  | .lbracket => "LBracket"
  | .rbracket => "RBracket"
  | .assign => "Assign"
  | .plus => "Plus"
  | .minus => "Minus"
  | .bang => "Bang"
  | .asterisk => "Asterisk"
  | .slash => "Slash"
  | .lt => "Lt"
  | .gt => "Gt"
  | .eq => "Eq"
  | .notEq => "NotEq"

/-- The name of a keyword's kind. -/
def Keyword.label : Keyword → String
  | .fn => "Function"
  | .let => "Let"
  | .true => "True"
  | .false => "False"
  | .if => "If"
  | .else => "Else"
  | .return => "Return"

/-- A name in letters for every kind, symbols included. -/
def Kind.label : Kind → String
  | .illegal => "Illegal"
  | .eof => "Eof"
  | .symbol s => s.label
  | .keyword k => k.label
  | .ident => "Ident"
  | .int => "Int"
  | .str => "Str"

def Token.dump (t : Token) : String :=
  "Token \x7b kind: " ++ t.kind.label ++ ", literal: " ++ quoted t.literal ++ " \x7d"

def Key.dump : Key → String
  | .int n => "Int(" ++ Integer.text n ++ ")"
  | .str text => "Str(" ++ quoted text ++ ")"
  | .bool b => "Bool(" ++ (if b then "true" else "false") ++ ")"

namespace Value

mutual

def dump : Value → String
  | .int n => "Value::Int(" ++ Integer.text n ++ ")"
  | .str text => "Value::Str(" ++ quoted text ++ ")"
  | .bool b => "Value::Bool(" ++ (if b then "true" else "false") ++ ")"
  | .null => "Value::Null"
  | .returned v => "Value::Return(" ++ v.dump ++ ")"
  | .function id params body scope =>
    "Value::Fn(" ++ (Value.function id params body scope).inspect ++ ")"
  | .vector _ vs => "Value::Vector([" ++ commaSeparated (dumpEach vs) ++ "])"
  | .dict _ es => "Value::Dict(\x7b" ++ commaSeparated (dumpEntries es) ++ "\x7d)"
  | .builtin b => "Value::Builtin(" ++ b.name ++ ")"
  | .error message => "Value::Error(" ++ quoted message ++ ")"

def dumpEach : List Value → List String
  | [] => []
  | v :: vs => v.dump :: dumpEach vs

def dumpEntries : List (Key × Value) → List String
  | [] => []
  | (k, v) :: es => (k.dump ++ ": " ++ v.dump) :: dumpEntries es

end

end Value

end Monkey
