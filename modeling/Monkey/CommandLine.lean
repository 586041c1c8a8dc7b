import Monkey.Repl

/-!
The command line. Without an argument the program greets and converses over
its standard input; with one, it runs the file of that name. A failure is told
on standard error and makes the exit status one.
-/

namespace Monkey.CommandLine

def greeting : List String :=
  ["Hello! This is the Monkey programming language!\n", "Feel free to type in commands\n"]

inductive Invocation where
  /-- No argument, with the bytes on standard input. -/
  | conversation (input : ByteArray)
  /-- A file to run, with its bytes if it exists. -/
  | script (contents? : Option ByteArray)

/-- What a run leaves behind. -/
structure Outcome where
  stdout : ByteArray
  stderr : String
  status : UInt8

/-- What is said about a failure. -/
def complaint (e : Failure) : String := "monkey: " ++ e.message ++ "\n"

def script (depth : Nat) (contents? : Option ByteArray) : Output Unit :=
  match contents? with
  | none => throw .noFile
  | some bytes =>
    match String.fromUTF8? bytes with
    | none => throw .notUtf8
    | some source => do
      let _ ← runScript depth source

def work (depth : Nat) : Invocation → Output Unit
  | .conversation input => do
    Output.writeAll greeting
    repl depth input
  | .script contents? => script depth contents?

def run (depth : Nat) (i : Invocation) : Option Outcome :=
  match (work depth i).run .unlimited with
  | none => none
  | some (.ok (), sink) => some ⟨sink.taken, "", 0⟩
  | some (.error e, sink) => some ⟨sink.taken, complaint e, 1⟩

end Monkey.CommandLine
