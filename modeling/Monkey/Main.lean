import Monkey.CommandLine

/-!
The program. What is read, what is answered and with which status the program
ends is settled in `Monkey.CommandLine` and below it; here the answers are
given as the lines come in.
-/

namespace Monkey.CommandLine

/-- How deep evaluation may go. -/
def depth : Nat := 1000000

def tooDeep : IO UInt32 := do
  (← IO.getStderr).putStr "monkey: evaluation goes too deep\n"
  return 1

/-- The bytes up to the end of the line, or to the end of the input. -/
partial def readLine (input : IO.FS.Stream) (bytes : ByteArray) : IO ByteArray := do
  let next ← input.read 1
  if next.isEmpty then return bytes
  let bytes := bytes ++ next
  if next.toList == ['\n'.toUInt8] then return bytes
  readLine input bytes

partial def converse (s : Session) : IO UInt32 := do
  let output ← IO.getStdout
  output.putStr prompt
  output.flush
  let bytes ← readLine (← IO.getStdin) ByteArray.empty
  if bytes.isEmpty then
    output.putStr "\n"
    return 0
  match String.fromUTF8? bytes with
  | none =>
    (← IO.getStderr).putStr (complaint .notUtf8)
    return 1
  | some line =>
    match s.respond depth line with
    | none => tooDeep
    | some (answer, s) =>
      answer.forM output.putStr
      converse s

/-- The bytes of a file, if there is such a file. -/
def readFile? (path : String) : IO (Option ByteArray) := do
  try return some (← IO.FS.readBinFile path)
  catch
    | .noFileOrDirectory .. => return none
    | e => throw e

def runFile (path : String) : IO UInt32 := do
  let contents? ← readFile? path
  match run depth (.script contents?) with
  | none => tooDeep
  | some outcome =>
    (← IO.getStdout).write outcome.stdout
    (← IO.getStderr).putStr outcome.stderr
    return outcome.status.toUInt32

end Monkey.CommandLine

def main (args : List String) : IO UInt32 := do
  match args with
  | [] =>
    Monkey.CommandLine.greeting.forM (← IO.getStdout).putStr
    Monkey.CommandLine.converse .fresh
  | path :: _ => Monkey.CommandLine.runFile path
