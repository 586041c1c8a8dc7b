import Monkey.Output
import Monkey.Session
import Monkey.Syntax.Parser
import Monkey.Text.Blank
import Monkey.Text.Lines
import Monkey.Value.Inspect

/-!
Talking to a session, and running a script. A session reads a line, answers
it, and prompts for the next one until there is none; what a line binds can be
used in later ones. A script is one program in a session of its own.

A line or script with syntax errors is not run, not even in part. The answer
to it is a list of the errors.
-/

namespace Monkey

def prompt : String := ">> "

/-- The report on a text that is not a program, piece by piece. -/
def report (errors : List SyntaxError) : List String :=
  "parser errors:\n" :: errors.map fun e => "\t" ++ e.message ++ "\n"

/-- The answer to one line, piece by piece, and the session after it. A blank
line has no answer. -/
def Session.respond (depth : Nat) (s : Session) (line : String) :
    Option (List String × Session) :=
  if Text.allBlank line then some ([], s)
  else
    let (program, errors) := parse line
    if errors.isEmpty then
      match s.eval depth program with
      | none => none
      | some (v, s) => some ([v.inspect ++ "\n"], s)
    else some (report errors, s)

/-- A conversation: a prompt before each line and after the last, and the
answers in between. It breaks off at a line that is not text. -/
def Session.converse (depth : Nat) (s : Session) : List (Option String) → Output Unit
  | [] => do
    Output.write prompt
    Output.write "\n"
  | none :: _ => do
    Output.write prompt
    throw .notUtf8
  | some line :: lines => do
    Output.write prompt
    let (answer, s) ← Output.ofOption (s.respond depth line)
    Output.writeAll answer
    s.converse depth lines

/-- A conversation in a new session over the lines of an input. -/
def repl (depth : Nat) (input : ByteArray) : Output Unit :=
  Session.fresh.converse depth (Text.inputLines input)

/-- Runs a text as one program and writes the value that it comes to. -/
def runScript (depth : Nat) (source : String) : Output Value := do
  let (program, errors) := parse source
  if errors.isEmpty then
    let (v, _) ← Output.ofOption (Session.fresh.eval depth program)
    Output.write (v.inspect ++ "\n")
    return v
  else
    Output.writeAll (report errors)
    throw (.rejected errors)

end Monkey
