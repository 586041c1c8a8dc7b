import Monkey.Proofs.Eval.Sequence
import Monkey.Proofs.Grammar.Append
import Monkey.Proofs.Grammar.Parse
import Monkey.Proofs.Lexing
import Monkey.Proofs.Lines
import Monkey.Proofs.Output
import Monkey.Repl

/-!
A conversation and a script. Lines that are programs by themselves, all but the
last one ended by a semicolon, are one program together; and what it comes to as a
script is what the last line comes to in a conversation over the lines, if none of
the earlier ones ends early.
-/

namespace Monkey

/-- One line with its end. -/
structure IsLine (line : String) : Prop where
  exists_chars : ∃ chars, line.toList = chars ++ ['\n'] ∧ '\n' ∉ chars

/-- A line that is a program and says something. -/
structure IsProgramLine (line : String) : Prop extends IsLine line where
  not_blank : Text.allBlank line = false
  no_errors : (parse line).2 = []

/-- The program that a text writes, if it has no errors. -/
def programOf (text : String) : Program := (parse text).1

variable {line : String}

theorem IsProgramLine.parse_eq (h : IsProgramLine line) : parse line = (programOf line, []) :=
  Prod.ext rfl h.no_errors

theorem IsProgramLine.derives (h : IsProgramLine line) :
    Derives .statements (tokens line.toList) (programOf line) [] :=
  derives_of_parse h.parse_eq

theorem isBlank_of_isSpace {c : Char} (h : isSpace c = true) : Text.isBlank c = true := by
  rcases isSpace_iff.mp h with rfl | rfl | rfl | rfl <;> rfl

/-- A line that says something and has no errors has a statement. -/
theorem program_ne_nil_of_not_blank (hblank : Text.allBlank line = false)
    (herrors : (parse line).2 = []) : programOf line ≠ [] := by
  intro hnil
  have hparse : parse line = ([], []) := Prod.ext hnil herrors
  have hderives := derives_of_parse hparse
  generalize hts : tokens line.toList = ts at hderives
  cases hderives
  have hspace := isSpace_of_tokens_eq_nil hts
  have hall : Text.allBlank line = true :=
    List.all_eq_true.mpr fun c hc => isBlank_of_isSpace (hspace c hc)
  rw [hblank] at hall
  cases hall

theorem IsProgramLine.program_ne_nil (h : IsProgramLine line) : programOf line ≠ [] :=
  program_ne_nil_of_not_blank h.not_blank h.no_errors

/-- The last word of a line is a semicolon. -/
def EndsStatement (line : String) : Prop :=
  (tokens line.toList).getLast? = some (.symbol .semicolon)

/-- Lines that end their statements, with one more line. -/
theorem derives_lines {lines : List String} {last : String}
    (hlines : ∀ line ∈ lines, IsProgramLine line) (hends : ∀ line ∈ lines, EndsStatement line)
    (hlast : IsProgramLine last) :
    Derives .statements (tokens (String.join (lines ++ [last])).toList)
      ((lines.map programOf).flatten ++ programOf last) [] := by
  induction lines with
  | nil =>
    have hjoin : String.join [last] = last := by
      rw [String.join_cons, String.join_nil, String.append_empty]
    rw [List.nil_append, hjoin]
    exact hlast.derives
  | cons line lines ih =>
    obtain ⟨hline, hlines⟩ := List.forall_mem_cons.mp hlines
    obtain ⟨hend, hends⟩ := List.forall_mem_cons.mp hends
    rw [List.cons_append, String.join_cons, String.toList_append,
      tokens_append_of_semicolon hend, List.map_cons, List.flatten_cons, List.append_assoc]
    exact hline.derives.append_statements hend (ih hlines hends)

theorem IsLine.complete (h : IsLine line) : Text.Complete (· == '\n') line.toList := by
  obtain ⟨chars, hchars, hnone⟩ := h.exists_chars
  refine ⟨chars, '\n', hchars, fun c hc => beq_false_of_ne ?_, beq_self_eq_true '\n'⟩
  rintro rfl
  exact hnone hc

/-- Lines with their ends are the lines of the text that they make together. -/
theorem inputLines_join {lines : List String} (hlines : ∀ line ∈ lines, IsLine line) :
    Text.inputLines (String.join lines).toUTF8 = lines.map some := by
  have hcomplete : ∀ chars ∈ lines.map String.toList, Text.Complete (· == '\n') chars :=
    List.forall_mem_map.mpr fun line hline => (hlines line hline).complete
  rw [Text.inputLines_eq_lines, Text.lines_join (Text.areLines_of_complete hcomplete)]

/-- What is seen of one exchange. -/
def exchange (v : Value) : String := prompt ++ (v.inspect ++ "\n")

namespace Session

variable {depth : Nat} {s s' : Session}

/-- A line that is a program is answered with the value of the program. -/
theorem respond_eq {v : Value} (hline : IsProgramLine line)
    (h : s.eval depth (programOf line) = some (v, s')) :
    s.respond depth line = some ([v.inspect ++ "\n"], s') := by
  unfold respond
  rw [hline.not_blank, hline.parse_eq]
  simp [h]

/-- A line that is answered stands behind a prompt. -/
theorem converse_respond {answer : List String} (h : s.respond depth line = some (answer, s'))
    (written : String) (inputs : List (Option String)) :
    (s.converse depth (some line :: inputs)).run (.holding written) =
      (s'.converse depth inputs).run
        (.holding (written ++ (prompt ++ String.join answer))) := by
  rw [converse, Output.run_bind_of_ok (Output.run_write written prompt), h,
    Output.run_bind_of_ok (Output.run_ofOption _ _),
    Output.run_bind_of_ok (Output.run_writeAll _ _), String.append_assoc]

theorem converse_cons {v : Value} (hline : IsProgramLine line)
    (h : s.eval depth (programOf line) = some (v, s')) (written : String)
    (inputs : List (Option String)) :
    (s.converse depth (some line :: inputs)).run (.holding written) =
      (s'.converse depth inputs).run (.holding (written ++ exchange v)) := by
  rw [converse_respond (respond_eq hline h), String.join_cons, String.join_nil,
    String.append_empty]
  rfl

/-- The exchanges over lines of which none ends early. -/
theorem Runs.converse {lines : List String} {vs : List Value}
    (h : s.Runs (lines.map programOf) vs s') (hlines : ∀ line ∈ lines, IsProgramLine line) :
    ∃ enough, ∀ depth ≥ enough, ∀ written inputs,
      (s.converse depth (lines.map some ++ inputs)).run (.holding written) =
        (s'.converse depth inputs).run (.holding (written ++ String.join (vs.map exchange))) := by
  induction lines generalizing s vs with
  | nil =>
    cases h
    refine ⟨0, fun depth _ written inputs => ?_⟩
    rw [List.map_nil, List.map_nil, String.join_nil, String.append_empty]
    rfl
  | cons line lines ih =>
    obtain ⟨hline, hlines⟩ := List.forall_mem_cons.mp hlines
    cases h with
    | @more _ _ _ _ v vs store depth' hb hproceeds hmore =>
      have hvalue : s.eval depth' (programOf line) = some (v, { s with store }) := by
        unfold Session.eval
        rw [eval_program_of_block hb hproceeds]
      obtain ⟨enough, hrest⟩ := ih hmore hlines
      refine ⟨max depth' enough, fun depth hle written inputs => ?_⟩
      have hvalue' := eval_mono hvalue (Nat.le_trans (Nat.le_max_left _ _) hle)
      rw [List.map_cons, List.cons_append, converse_cons hline hvalue',
        hrest depth (Nat.le_trans (Nat.le_max_right _ _) hle), List.map_cons, String.join_cons,
        String.append_assoc]

end Session

/-- Lines that are programs, of which all but the last end with a semicolon, are a
program together, with the statements of each of them. If none of the lines before
the last ends early, the script of all lines comes to the value that the last line
comes to in a conversation over them, and it writes what the conversation writes
between the prompt for that line and the prompt after it. -/
theorem script_of_lines (lines : List String) (last : String) (values : List Value) (v : Value)
    (s s' : Session) (depth : Nat) (hlines : ∀ line ∈ lines, IsProgramLine line)
    (hlast : IsProgramLine last) (hends : ∀ line ∈ lines, EndsStatement line)
    (hruns : Session.fresh.Runs (lines.map programOf) values s)
    (hv : s.eval depth (programOf last) = some (v, s')) :
    parse (String.join (lines ++ [last])) =
        ((lines.map programOf).flatten ++ programOf last, []) ∧
      ∃ enough, ∀ depth ≥ enough,
        (runScript depth (String.join (lines ++ [last]))).run .unlimited =
          some (.ok v, .holding (v.inspect ++ "\n")) ∧
        (repl depth (String.join (lines ++ [last])).toUTF8).run .unlimited =
          some (.ok (), .holding (String.join (values.map exchange) ++
            (prompt ++ (v.inspect ++ "\n")) ++ (prompt ++ "\n"))) := by
  have hparse := parse_of_derives (derives_lines hlines hends hlast)
  have hinput : ∀ line ∈ lines ++ [last], IsLine line := by
    intro line hline
    rcases List.mem_append.mp hline with hline | hline
    · exact (hlines line hline).toIsLine
    · rw [List.mem_singleton.mp hline]
      exact hlast.toIsLine
  obtain ⟨enough, hscript⟩ := hruns.eval_append hlast.program_ne_nil hv
  obtain ⟨enough', hconverse⟩ := hruns.converse hlines
  refine ⟨hparse, max depth (max enough enough'), fun depth' hle => ⟨?_, ?_⟩⟩
  · have heval := hscript depth' (by omega)
    unfold runScript
    rw [hparse]
    simp only [List.isEmpty_nil, if_true, heval]
    rw [Output.run_bind_of_ok (Output.run_ofOption _ _)]
    exact Output.run_bind_of_ok (Output.run_write "" _) _
  · have hv' := Session.eval_mono hv (show depth ≤ depth' by omega)
    unfold repl
    rw [inputLines_join hinput, List.map_append, Sink.unlimited_eq,
      hconverse depth' (by omega), List.map_singleton, Session.converse_cons hlast hv',
      Session.converse, Output.run_bind_of_ok (Output.run_write _ _), Output.run_write]
    simp only [String.empty_append, exchange, String.append_assoc]

/-- The lines `let a = true;` and `a`. -/
theorem script_of_lines_binding :
    parse "let a = true;\na\n" = ([.let "a" (.bool true), .expr (.ident "a")], []) ∧
      ∃ enough, ∀ depth ≥ enough,
        (runScript depth "let a = true;\na\n").run .unlimited =
          some (.ok (.bool true), .holding "true\n") ∧
        (repl depth "let a = true;\na\n".toUTF8).run .unlimited =
          some (.ok (), .holding ">> null\n>> true\n>> \n") := by
  have hname : IsName "a" := by decide
  have htokens : tokens "let a = true;\n".toList =
      [.keyword .let, .ident "a", .symbol .assign, .keyword .true, .symbol .semicolon] := by
    have hline : "let a = true;\n".toList = Keyword.let.text.toList ++ ' ' :: ("a".toList ++
        ' ' :: (Symbol.assign.text.toList ++ ' ' :: (Keyword.true.text.toList ++
          (Symbol.semicolon.text.toList ++ ['\n'])))) := by decide
    have hend : Splits (Symbol.semicolon.text.toList ++ ['\n']) := splits_cons (by decide) _
    rw [hline, tokens_keyword _ (splits_cons (by decide) _), tokens_blank rfl,
      tokens_name hname (splits_cons (by decide) _), tokens_blank rfl,
      tokens_symbol _ (by simp), tokens_blank rfl, tokens_keyword _ hend,
      tokens_symbol _ (by simp), tokens_blank rfl, tokens_nil]
  have htokens' : tokens "a\n".toList = [.ident "a"] := by
    have hline : "a\n".toList = "a".toList ++ ['\n'] := by decide
    rw [hline, tokens_name hname (splits_cons (by decide) _), tokens_blank rfl, tokens_nil]
  have hparse : parse "let a = true;\n" = ([.let "a" (.bool true)], []) := by
    apply parse_of_derives
    rw [htokens]
    exact .moreStatements (.ended (.let (Derives.truth.widen (by decide)))) .noStatements
  have hparse' : parse "a\n" = ([.expr (.ident "a")], []) := by
    apply parse_of_derives
    rw [htokens']
    exact .moreStatements (.unended (.bare (Derives.ident.widen (by decide))) nofun) .noStatements
  have hprogram : programOf "let a = true;\n" = [.let "a" (.bool true)] := congrArg Prod.fst hparse
  have hprogram' : programOf "a\n" = [.expr (.ident "a")] := congrArg Prod.fst hparse'
  have hline : IsProgramLine "let a = true;\n" :=
    ⟨⟨"let a = true;".toList, by decide, by decide⟩, by decide, congrArg Prod.snd hparse⟩
  have hlast : IsProgramLine "a\n" :=
    ⟨⟨['a'], by decide, by decide⟩, by decide, congrArg Prod.snd hparse'⟩
  have hend : EndsStatement "let a = true;\n" := by
    rw [EndsStatement, htokens]
    rfl
  have hruns : Session.fresh.Runs (["let a = true;\n"].map programOf) [.null]
      ⟨⟨#[⟨none, [("a", .bool true)]⟩], 3, []⟩, 0⟩ := by
    have hblock : eval 3 (.block [.let "a" (.bool true)]) Session.fresh.root Session.fresh.store =
        some (.null, ⟨#[⟨none, [("a", .bool true)]⟩], 3, []⟩) := rfl
    rw [List.map_singleton, hprogram]
    exact .more hblock rfl (.done _)
  have hv : (⟨⟨#[⟨none, [("a", .bool true)]⟩], 3, []⟩, 0⟩ : Session).eval 3 (programOf "a\n") =
      some (.bool true, ⟨⟨#[⟨none, [("a", .bool true)]⟩], 5, []⟩, 0⟩) := by
    have hresolve : Action.resolve 0 "a" ⟨#[⟨none, [("a", .bool true)]⟩], 5, []⟩ =
        some (.bool true, ⟨#[⟨none, [("a", .bool true)]⟩], 5, []⟩) := by
      rw [Action.resolve, Store.lookup]
      rfl
    rw [hprogram']
    simp only [Session.eval, eval, step, Store.arrive, Store.tick, Action.inSequence,
      Action.unwrapped, Action.andThen, hresolve]
    rfl
  have hscript := script_of_lines ["let a = true;\n"] "a\n" [.null] (.bool true) _ _ 3
    (List.forall_mem_singleton.mpr hline) hlast (List.forall_mem_singleton.mpr hend) hruns hv
  rw [List.map_singleton, hprogram, hprogram'] at hscript
  exact hscript

end Monkey
