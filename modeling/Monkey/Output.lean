import Monkey.Syntax.Error

/-!
Writing to something that may fill up. A sink takes bytes until it has no room
left; of a text that does not fit it takes as much as it can, and then fails.
What comes after a failure is not written.
-/

namespace Monkey

/-- Why a session or a script ended before its end. -/
inductive Failure where
  /-- The sink has no more room. -/
  | full
  /-- What was to be read is not text. -/
  | notUtf8
  /-- There is no file to read. -/
  | noFile
  /-- The script is not a program. -/
  | rejected (errors : List SyntaxError)
  deriving DecidableEq

def Failure.message : Failure → String
  | .full => "writer is full"
  | .notUtf8 => "stream did not contain valid UTF-8"
  | .noFile => "No such file or directory (os error 2)"
  | .rejected errors => errors.length.repr ++ " syntax error(s)"

structure Sink where
  /-- How many bytes will still be taken; without it, all of them. -/
  room : Option Nat
  taken : ByteArray

/-- A sink that takes everything. -/
def Sink.unlimited : Sink := ⟨none, ByteArray.empty⟩

/-- A sink that takes that many bytes in all. -/
def Sink.limited (room : Nat) : Sink := ⟨some room, ByteArray.empty⟩

/-- Hands a text to a sink, which takes all of it or as much as fits. Says
whether it was all. -/
def Sink.put (s : Sink) (text : String) : Bool × Sink :=
  let bytes := text.toUTF8
  match s.room with
  | none => (true, { s with taken := s.taken ++ bytes })
  | some room =>
    if bytes.size ≤ room then (true, ⟨some (room - bytes.size), s.taken ++ bytes⟩)
    else (false, ⟨some 0, s.taken ++ bytes.extract 0 room⟩)

/-- Work that writes to a sink. It may fail, and it has no outcome at all if a
program that it runs is not given enough depth. -/
abbrev Output := ExceptT Failure (StateT Sink Option)

namespace Output

def write (text : String) : Output Unit := do
  let fits ← modifyGet (·.put text)
  unless fits do throw .full

def writeAll : List String → Output Unit
  | [] => pure ()
  | text :: texts => do
    write text
    writeAll texts

/-- What a run came to, and the sink after it. -/
def run {α : Type} (o : Output α) (s : Sink) : Option (Except Failure α × Sink) :=
  StateT.run (ExceptT.run o) s

/-- The result of a computation that may lack depth. -/
def ofOption {α : Type} : Option α → Output α
  | some a => pure a
  | none => ExceptT.mk fun _ => none

end Output

end Monkey
