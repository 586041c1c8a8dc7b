import Monkey.Eval.Depth
import Monkey.Main
import Monkey.Proofs.Grammar.Power
import Monkey.Proofs.Reading
import Monkey.Syntax.Parser
import Monkey.Syntax.Render
import Monkey.Value.Dump
import Monkey.Proofs.Grammar.Sound
import Monkey.Proofs.Grammar.Complete
import Monkey.Proofs.Canonical
import Monkey.Proofs.Grammar.Parse
import Monkey.Proofs.RoundTrip
import Monkey.Proofs.Eval.Clean
import Monkey.Proofs.Eval.Frame
import Monkey.Proofs.Lexing.Pieces
import Monkey.Proofs.Eval.Faults
import Monkey.Proofs.Eval.Mirror
import Monkey.Proofs.Eval.Repeat
import Monkey.Proofs.Eval.Sequence
import Monkey.Proofs.Grammar.Append
import Monkey.Proofs.Lines
import Monkey.Proofs.Output
import Monkey.Proofs.Repl
import Monkey.Proofs.Lexing.Apart
import Monkey.Proofs.Prospect
import Monkey.Proofs.Recovery
import Monkey.Proofs.Eval.Ledger
import Monkey.Proofs.Eval.Identity
import Monkey.Proofs.Transcript
import Monkey.Proofs.Synchronisation
import Monkey.Proofs.Eval.Arithmetic
import Monkey.Proofs.Eval.Wrapping
import Monkey.Proofs.Calls
import Monkey.Proofs.Accounting
import Monkey.Proofs.Eval.Scoping
import Monkey.Proofs.Eval.Equality
import Monkey.Proofs.Eval.DictLiteral
import Monkey.Proofs.Eval.ReadBack
import Monkey.Proofs.Room
import Monkey.Proofs.Names
import Monkey.Proofs.Eval.Unmentioned
import Monkey.Proofs.Parts
import Monkey.Proofs.Eval.FunctionFree
import Monkey.Proofs.Eval.Yields
import Monkey.Proofs.Eval.Loop
import Monkey.Proofs.Eval.MapReduce
import Monkey.Proofs.Lexing.Separated
import Monkey.Proofs.Lexing.Drawing
import Monkey.Proofs.Eval.Vectors
