import Monkey.Proofs.Repl

/-!
What a conversation writes. Each line has its response, which depends on the line and
on what the error-free lines before it have left in the session; what is written is a
prompt and a response for each line in turn. A line that is blank or wrong leaves the
session as it was, so that it may as well not have been there.
-/

namespace Monkey

namespace Session

variable {s s' : Session} {line response : String}

/-- The response to a line, and the session after it. -/
inductive Answers : Session → String → String → Session → Prop where
  | blank {s : Session} {line : String} : Text.allBlank line = true → Answers s line "" s
  | rejected {s : Session} {line : String} :
      Text.allBlank line = false → (parse line).2 ≠ [] →
      Answers s line ("parser errors:\n" ++
        String.join ((parse line).2.map fun e => "\t" ++ e.message ++ "\n")) s
  | value {s s' : Session} {line : String} {depth : Nat} {v : Value} :
      Text.allBlank line = false → (parse line).2 = [] →
      s.eval depth (parse line).1 = some (v, s') → Answers s line (v.inspect ++ "\n") s'

theorem join_report (errors : List SyntaxError) :
    String.join (report errors) =
      "parser errors:\n" ++ String.join (errors.map fun e => "\t" ++ e.message ++ "\n") :=
  String.join_cons

/-- Given enough depth, a line is answered so. -/
theorem Answers.respond (h : s.Answers line response s') :
    ∃ enough, ∀ depth ≥ enough, ∃ answer,
      s.respond depth line = some (answer, s') ∧ String.join answer = response := by
  unfold Session.respond
  cases h with
  | blank hblank =>
    refine ⟨0, fun depth _ => ⟨[], ?_, String.join_nil⟩⟩
    rw [if_pos hblank]
  | rejected hblank herrors =>
    refine ⟨0, fun depth _ => ⟨report (parse line).2, ?_, join_report _⟩⟩
    have hsome : (parse line).2.isEmpty = false := List.isEmpty_eq_false_iff.mpr herrors
    simp only [hblank, hsome]
    rfl
  | @value _ _ enough v hblank herrors heval =>
    refine ⟨enough, fun depth hle => ⟨[v.inspect ++ "\n"], ?_, ?_⟩⟩
    · simp only [hblank, herrors, eval_mono heval hle]
      rfl
    · rw [String.join_cons, String.join_nil, String.append_empty]

/-- Every answer is of this kind. -/
theorem answers_of_respond {depth : Nat} {answer : List String}
    (h : s.respond depth line = some (answer, s')) :
    s.Answers line (String.join answer) s' := by
  unfold Session.respond at h
  cases hblank : Text.allBlank line with
  | true =>
    rw [if_pos hblank] at h
    cases h
    rw [String.join_nil]
    exact .blank hblank
  | false =>
    simp only [hblank, Bool.false_eq_true, if_false] at h
    split at h
    · rename_i hempty
      have herrors := List.isEmpty_iff.mp hempty
      split at h
      · cases h
      · rename_i v store heval
        cases h
        rw [String.join_cons, String.join_nil, String.append_empty]
        exact .value hblank herrors heval
    · rename_i hsome
      cases h
      rw [join_report]
      exact .rejected hblank fun herrors => hsome (List.isEmpty_iff.mpr herrors)

/-- The responses to lines, one after the other, and the session after them. -/
inductive Transcript : Session → List (String × String) → Session → Prop where
  | done (s : Session) : Transcript s [] s
  | line {s s' s'' : Session} {line response : String} {exchanges : List (String × String)} :
      s.Answers line response s' → Transcript s' exchanges s'' →
      Transcript s ((line, response) :: exchanges) s''

/-- Deletes lines that are blank or have errors, with their responses. -/
inductive Pruned : List (String × String) → List (String × String) → Prop where
  | nil : Pruned [] []
  | keep {exchanges kept : List (String × String)} (e : String × String) :
      Pruned exchanges kept → Pruned (e :: exchanges) (e :: kept)
  | drop {exchanges kept : List (String × String)} {e : String × String} :
      Text.allBlank e.1 = true ∨ (parse e.1).2 ≠ [] → Pruned exchanges kept →
      Pruned (e :: exchanges) kept

/-- What is seen of exchanges: each response stands behind a prompt. -/
def shown (exchanges : List (String × String)) : String :=
  String.join (exchanges.map fun e => prompt ++ e.2)

variable {exchanges kept : List (String × String)}

theorem Pruned.sublist (h : Pruned exchanges kept) : kept.Sublist exchanges := by
  induction h with
  | nil => exact .slnil
  | keep e _ ih => exact ih.cons_cons e
  | drop _ _ ih => exact ih.cons _

/-- Blank and wrong lines leave the session as it was. -/
theorem Answers.eq_of_silent (h : s.Answers line response s')
    (hsilent : Text.allBlank line = true ∨ (parse line).2 ≠ []) : s' = s := by
  cases h with
  | blank | rejected => rfl
  | value hblank herrors _ =>
    rcases hsilent with hblank' | herrors'
    · rw [hblank] at hblank'
      cases hblank'
    · exact absurd herrors herrors'

theorem Transcript.pruned (h : s.Transcript exchanges s') (hkept : Pruned exchanges kept) :
    s.Transcript kept s' := by
  induction hkept generalizing s with
  | nil => exact h
  | keep e _ ih =>
    cases h with
    | line hline hrest => exact .line hline (ih hrest)
  | drop hsilent _ ih =>
    cases h with
    | line hline hrest =>
      rw [hline.eq_of_silent hsilent] at hrest
      exact ih hrest

/-- Given enough depth, a conversation over the lines of a transcript writes the
transcript, and goes on from the session after it. -/
theorem Transcript.converse (h : s.Transcript exchanges s') :
    ∃ enough, ∀ depth ≥ enough, ∀ written inputs,
      (s.converse depth ((exchanges.map Prod.fst).map some ++ inputs)).run (.holding written) =
        (s'.converse depth inputs).run (.holding (written ++ shown exchanges)) := by
  induction h with
  | done s =>
    refine ⟨0, fun depth _ written inputs => ?_⟩
    rw [shown, List.map_nil, List.map_nil, List.map_nil, String.join_nil, String.append_empty]
    rfl
  | @line s s' s'' line response exchanges hline _ ih =>
    obtain ⟨enough, hrespond⟩ := hline.respond
    obtain ⟨enough', hrest⟩ := ih
    refine ⟨max enough enough', fun depth hle written inputs => ?_⟩
    obtain ⟨answer, hanswer, rfl⟩ := hrespond depth (by omega)
    rw [List.map_cons, List.map_cons, List.cons_append, converse_respond hanswer,
      hrest depth (by omega), shown, shown, List.map_cons, String.join_cons, String.append_assoc]

/-- A conversation that comes to an end has a transcript of its lines. -/
theorem exists_transcript {depth : Nat} {lines : List String} {inputs : List (Option String)}
    {written : String} {r : Except Failure Unit × Sink}
    (h : (s.converse depth (lines.map some ++ inputs)).run (.holding written) = some r) :
    ∃ exchanges s', exchanges.map Prod.fst = lines ∧ s.Transcript exchanges s' := by
  induction lines generalizing s written with
  | nil => exact ⟨[], s, rfl, .done s⟩
  | cons line lines ih =>
    rw [List.map_cons, List.cons_append] at h
    cases hrespond : s.respond depth line with
    | none =>
      rw [converse, Output.run_bind_of_ok (Output.run_write written prompt), hrespond] at h
      cases h
    | some answered =>
      obtain ⟨answer, mid⟩ := answered
      rw [converse_respond hrespond] at h
      obtain ⟨exchanges, s', hlines, htranscript⟩ := ih h
      refine ⟨(line, String.join answer) :: exchanges, s', ?_, ?_⟩
      · rw [List.map_cons, hlines]
      · exact .line (answers_of_respond hrespond) htranscript

end Session

open Session

/-- Given enough depth, a conversation over an input comes to the outcome, and has written
the text to a sink that takes everything. -/
def Converses (input : ByteArray) (outcome : Except Failure Unit) (written : String) : Prop :=
  ∃ enough, ∀ depth ≥ enough,
    (repl depth input).run .unlimited = some (outcome, .holding written)

variable {exchanges : List (String × String)} {s' : Session}

theorem Session.Transcript.converses {text : String}
    (h : Session.fresh.Transcript exchanges s')
    (hlines : exchanges.map Prod.fst = Text.lines text) :
    Converses text.toUTF8 (.ok ()) (shown exchanges ++ (prompt ++ "\n")) := by
  obtain ⟨enough, hconverse⟩ := h.converse
  refine ⟨enough, fun depth hle => ?_⟩
  have hrun := hconverse depth hle "" []
  rw [List.append_nil] at hrun
  rw [repl, Text.inputLines_eq_lines, ← hlines, Sink.unlimited_eq, hrun, Session.converse,
    Output.run_bind_of_ok (Output.run_write _ _), Output.run_write, String.empty_append,
    String.append_assoc]

/-- The input breaks off with a line that is not text. -/
theorem Session.Transcript.converses_notUtf8 {input : ByteArray} {more : List (Option String)}
    (h : Session.fresh.Transcript exchanges s')
    (hlines : Text.inputLines input = (exchanges.map Prod.fst).map some ++ none :: more) :
    Converses input (.error .notUtf8) (shown exchanges ++ prompt) := by
  obtain ⟨enough, hconverse⟩ := h.converse
  refine ⟨enough, fun depth hle => ?_⟩
  rw [repl, hlines, Sink.unlimited_eq, hconverse depth hle, Session.converse,
    Output.run_bind_of_ok (Output.run_write _ _), String.empty_append]
  rfl

/-- A conversation comes to an end on the texts of which all lines have responses. It writes a
prompt and the response for each line in order, and then a prompt and a line feed; lines that
are blank or have errors can be deleted without any change to the other responses. Where a
line is not text, the transcript of the lines before and one more prompt were written. A line
that is not blank has a statement or an error. -/
theorem conversation_transcript :
    (∀ text exchanges s', exchanges.map Prod.fst = Text.lines text →
      Session.fresh.Transcript exchanges s' →
      Converses text.toUTF8 (.ok ()) (shown exchanges ++ (prompt ++ "\n"))) ∧
    (∀ text depth r, (repl depth text.toUTF8).run .unlimited = some r →
      ∃ exchanges s', exchanges.map Prod.fst = Text.lines text ∧
        Session.fresh.Transcript exchanges s') ∧
    (∀ text exchanges kept s', exchanges.map Prod.fst = Text.lines text →
      Session.fresh.Transcript exchanges s' → Pruned exchanges kept →
      let text' := String.join (kept.map Prod.fst)
      kept.map Prod.fst = Text.lines text' ∧ Session.fresh.Transcript kept s' ∧
        Converses text'.toUTF8 (.ok ()) (shown kept ++ (prompt ++ "\n"))) ∧
    (∀ input exchanges s' more,
      Text.inputLines input = (exchanges.map Prod.fst).map some ++ none :: more →
      Session.fresh.Transcript exchanges s' →
      Converses input (.error .notUtf8) (shown exchanges ++ prompt)) ∧
    ∀ line, Text.allBlank line = false → (parse line).1 ≠ [] ∨ (parse line).2 ≠ [] := by
  refine ⟨fun text exchanges s' hlines h => h.converses hlines, ?_, ?_,
    fun input exchanges s' more hlines h => h.converses_notUtf8 hlines, ?_⟩
  · intro text depth r h
    rw [repl, Text.inputLines_eq_lines, ← List.append_nil (List.map some _),
      Sink.unlimited_eq] at h
    exact exists_transcript h
  · intro text exchanges kept s' hlines h hpruned text'
    have hkept : (kept.map Prod.fst).Sublist (Text.lines text) :=
      hlines ▸ hpruned.sublist.map Prod.fst
    have hlines' := Text.lines_join_of_sublist hkept
    exact ⟨hlines'.symm, h.pruned hpruned, (h.pruned hpruned).converses hlines'.symm⟩
  · intro line hblank
    by_cases herrors : (parse line).2 = []
    · exact .inl (program_ne_nil_of_not_blank hblank herrors)
    · exact .inr herrors

/-- A blank line and a wrong one before `true`, and `true` alone. -/
theorem conversation_transcript_true :
    Converses "\n;\ntrue\n".toUTF8 (.ok ())
        ">> >> parser errors:\n\tno prefix parse function for ;\n>> true\n>> \n" ∧
      Converses "true\n".toUTF8 (.ok ()) ">> true\n>> \n" := by
  have hblank : Text.allBlank "\n" = true := by decide
  have hwrong : parse ";\n" = ([], [.noExpression (.symbol .semicolon)]) := by
    have hline : ";\n".toList = Symbol.semicolon.text.toList ++ ['\n'] := by decide
    have htokens : tokens ";\n".toList = [.symbol .semicolon] := by
      rw [hline, tokens_symbol _ (by simp), tokens_blank rfl, tokens_nil]
    have hstatement := Statement.read_of_not_starts [] (t := .symbol .semicolon) rfl
    rw [parse_eq, htokens, Program.read, hstatement, Program.read]
    rfl
  have htrue : parse "true\n" = ([.expr (.bool true)], []) := by
    have hline : "true\n".toList = Keyword.true.text.toList ++ ['\n'] := by decide
    apply parse_of_derives
    rw [hline, tokens_keyword _ (splits_cons (by decide) _), tokens_blank rfl, tokens_nil]
    have hnone : ∀ next ∈ ([] : List Token).head?, next.continues = false :=
      fun _ hnext => absurd hnext (Option.not_mem_none _)
    exact .moreStatements (.unended (.bare (Derives.truth.widen (by decide))) hnone) .noStatements
  have hsilent : (parse ";\n").2 ≠ [] := by
    rw [hwrong]
    exact List.cons_ne_nil _ _
  have heval : Session.fresh.eval 4 (parse "true\n").1 =
      some (.bool true, ⟨⟨#[⟨none, []⟩], 2, []⟩, 0⟩) := by
    rw [htrue]
    rfl
  have hrejected : Session.fresh.Answers ";\n"
      "parser errors:\n\tno prefix parse function for ;\n" Session.fresh := by
    have h := Answers.rejected (s := Session.fresh) (by decide) hsilent
    have htext : "parser errors:\n" ++ String.join
        ([SyntaxError.noExpression (.symbol .semicolon)].map fun e => "\t" ++ e.message ++ "\n") =
        "parser errors:\n\tno prefix parse function for ;\n" := by decide
    rwa [hwrong, htext] at h
  have hvalue : Session.fresh.Answers "true\n" "true\n" ⟨⟨#[⟨none, []⟩], 2, []⟩, 0⟩ :=
    .value (v := .bool true) (by decide) (congrArg Prod.snd htrue) heval
  let exchanges := [("\n", ""),
    (";\n", "parser errors:\n\tno prefix parse function for ;\n"), ("true\n", "true\n")]
  have htranscript : Session.fresh.Transcript exchanges ⟨⟨#[⟨none, []⟩], 2, []⟩, 0⟩ :=
    .line (.blank hblank) (.line hrejected (.line hvalue (.done _)))
  have hpruned : Pruned exchanges [("true\n", "true\n")] :=
    .drop (.inl hblank) (.drop (.inr hsilent) (.keep _ .nil))
  have hlines : exchanges.map Prod.fst = Text.lines "\n;\ntrue\n" := by decide
  have hshown : shown exchanges ++ (prompt ++ "\n") =
      ">> >> parser errors:\n\tno prefix parse function for ;\n>> true\n>> \n" := by decide
  have hshown' : shown [("true\n", "true\n")] ++ (prompt ++ "\n") = ">> true\n>> \n" := by decide
  have hall := conversation_transcript.1 _ _ _ hlines htranscript
  have hkept := (conversation_transcript.2.2.1 _ _ _ _ hlines htranscript hpruned).2.2
  rw [hshown] at hall
  rw [hshown'] at hkept
  exact ⟨hall, hkept⟩

end Monkey
