import Monkey.Proofs.Grammar.Append
import Monkey.Proofs.Recovery

/-!
Where reading starts anew. Behind a semicolon that no brace surrounds it makes no
difference what was read before it: whether the statement in front of the semicolon is
right, stops short of it or fails at it, the tokens behind it are read as if they stood
alone. So the two sides of such a semicolon can be read one after the other, and their
statements and errors put together.
-/

namespace Monkey

open ReadingWithin

/-- How the reading of a statement comes to a semicolon. Either it stays before it, or
it takes it along, as the end of the statement or as what went wrong in it. Neither
depends on what comes behind the semicolon. -/
inductive Reaches {α : Type} (outcome : List Token → Reading α) : Prop where
  | before (node? : Option α) (errors : List SyntaxError) (rest : List Token) :
      Braceless rest →
      (∀ us, outcome (.symbol .semicolon :: us) =
        ⟨node?, errors, rest ++ .symbol .semicolon :: us⟩) →
      Reaches outcome
  | takes (node? : Option α) (errors : List SyntaxError) :
      (∀ us, outcome (.symbol .semicolon :: us) = ⟨node?, errors, us⟩) → Reaches outcome

theorem reaches_dropSemicolon {α : Type} {n : List Token → Nat}
    {r : (us : List Token) → ReadingWithin (n us) α}
    (h : Meets .semicolon fun us => (r us).toReading) :
    Reaches fun us => (r us).dropSemicolon.toReading := by
  cases h with
  | takes errors h => exact .takes none _ fun us => dropSemicolon_of_none (h us)
  | before node? rest errors hrest _ h =>
    have hstops : ∀ us, (r (.symbol .semicolon :: us)).toReading =
        ⟨node?, errors (.symbol .semicolon), rest ++ .symbol .semicolon :: us⟩ :=
      fun us => h _ (.stops us)
    generalize errors (.symbol .semicolon) = errors at hstops
    cases node? with
    | none => exact .before none errors rest hrest fun us => dropSemicolon_of_none (hstops us)
    | some a =>
      cases rest with
      | nil => exact .takes (some a) errors fun us => dropSemicolon_of_node (hstops us)
      | cons t rest =>
        by_cases ht : t = .symbol .semicolon
        · subst ht
          exact .before (some a) errors rest hrest.tail fun us => dropSemicolon_of_node (hstops us)
        · refine .before (some a) errors (t :: rest) hrest fun us => ?_
          exact dropSemicolon_of_head (hstops us) (by simpa using ht)

theorem Statement.read_reaches {t : Token} {ts : List Token} (hts : Braceless (t :: ts)) :
    Reaches fun us => (Statement.read (t :: (ts ++ us))).toReading := by
  obtain ⟨clause, hread, hclause⟩ := Statement.exists_clause_meets (.inr rfl) hts
  simpa only [hread] using reaches_dropSemicolon hclause

/-- Reading starts anew behind a semicolon after these tokens: of what stands before it
there are some statements and errors, and those of what stands behind it follow. -/
def StartsAnew (ts : List Token) : Prop :=
  ∃ ss errors, ∀ us, Program.read (ts ++ .symbol .semicolon :: us) =
    ⟨(Program.read us).node?.map (ss ++ ·), errors ++ (Program.read us).errors,
      (Program.read us).rest⟩

section StartsAnew

variable {t : Token} {ts mid : List Token} {s? : Option Statement} {errors : List SyntaxError}

/-- A semicolon by itself is a mistake. -/
theorem startsAnew_nil : StartsAnew [] := by
  refine ⟨[], [.noExpression (.symbol .semicolon)], fun us => ?_⟩
  exact Program.read_of_statement (Statement.read_of_not_starts us rfl)

/-- The semicolon belongs to the first statement. -/
theorem startsAnew_of_takes
    (h : ∀ us, (Statement.read (t :: ts ++ .symbol .semicolon :: us)).toReading =
      ⟨s?, errors, us⟩) : StartsAnew (t :: ts) :=
  ⟨s?.toList, errors, fun us => Program.read_of_statement (h us)⟩

/-- The first statement ends before the semicolon. -/
theorem StartsAnew.cons (hmid : StartsAnew mid)
    (h : ∀ us, (Statement.read (t :: ts ++ .symbol .semicolon :: us)).toReading =
      ⟨s?, errors, mid ++ .symbol .semicolon :: us⟩) : StartsAnew (t :: ts) := by
  obtain ⟨ss, more, hread⟩ := hmid
  refine ⟨s?.toList ++ ss, errors ++ more, fun us => ?_⟩
  refine (Program.read_of_statement (h us)).trans ?_
  rw [hread us]
  simp [Function.comp_def]

/-- Without braces it does not matter what went wrong. -/
theorem Braceless.startsAnew {ts : List Token} (hts : Braceless ts) : StartsAnew ts := by
  match ts with
  | [] => exact startsAnew_nil
  | t :: ts =>
    cases Statement.read_reaches hts with
    | takes s? errors h => exact startsAnew_of_takes h
    | before s? errors mid hmid h =>
      have hlt : mid.length < (t :: ts).length := by
        have hle := rest_le_of_eq (h [])
        simp only [List.tail_cons, List.length_append, List.length_cons] at hle ⊢
        omega
      exact StartsAnew.cons hmid.startsAnew h
termination_by ts.length
decreasing_by exact hlt

/-- Without errors braces do no harm: every one of them is closed before the semicolon. -/
theorem Derives.startsAnew {ss : List Statement} (h : Derives .statements ts ss []) :
    StartsAnew ts := by
  have hsemicolon : ∀ us : List Token, ∀ next ∈ (Token.symbol .semicolon :: us).head?,
      next.continues = false := by simp [Token.continues]
  induction ss generalizing ts with
  | nil =>
    cases h
    exact startsAnew_nil
  | cons s ss ih =>
    cases h with
    | @moreStatements _ mid _ _ _ hs hss =>
      obtain ⟨t, ts, rfl, -⟩ := hs.head_starts rfl
      rcases hss.statements_head with rfl | ⟨u, mid, rfl, hu⟩
      · cases hs with
        | ended hs =>
          -- The semicolon that was there is the end of the statement, and a second one follows.
          have hread : ∀ us, (Statement.read (t :: ts ++ .symbol .semicolon :: us)).toReading =
              .ok s ([] ++ .symbol .semicolon :: us) := by
            intro us
            have hclause := hs.append_of_next (.symbol .semicolon :: us) fun _ => hsemicolon us
            exact Category.Reads.read_ended hclause.reads
          exact startsAnew_nil.cons hread
        | unended hs _ =>
          have hread : ∀ us, (Statement.read (t :: ts ++ .symbol .semicolon :: us)).toReading =
              .ok s us := by
            intro us
            have hclause := hs.append_of_next (.symbol .semicolon :: us) fun _ => hsemicolon us
            exact Category.Reads.read_ended hclause.reads
          exact startsAnew_of_takes hread
      · have hread : ∀ us, (Statement.read (t :: ts ++ .symbol .semicolon :: us)).toReading =
            .ok s (u :: mid ++ .symbol .semicolon :: us) := by
          intro us
          have hstatement := hs.append_of_next (.symbol .semicolon :: us) fun _ => hsemicolon us
          exact Category.Reads.read_statement hstatement.reads (.inr (.inr ⟨u, _, rfl, hu⟩))
        exact (ih hss).cons hread

end StartsAnew

section Texts

theorem tokens_semicolon_blank {s : String} (hs : ¬ EndsInString s.toList) (t : String) :
    tokens (s ++ " ; " ++ t).toList =
      tokens s.toList ++ .symbol .semicolon :: tokens t.toList := by
  have hmiddle : " ; ".toList = ' ' :: (Symbol.semicolon.text.toList ++ [' ']) := by decide
  simp only [String.toList_append, hmiddle, List.append_assoc, List.cons_append]
  rw [tokens_append_blank hs rfl, tokens_symbol _ (by simp), List.nil_append, tokens_blank rfl]

theorem tokens_semicolon_end {s : String} (hs : ¬ EndsInString s.toList) :
    tokens (s ++ " ;").toList = tokens s.toList ++ [.symbol .semicolon] := by
  have hend : " ;".toList = ' ' :: (Symbol.semicolon.text.toList ++ []) := by decide
  rw [String.toList_append, hend, tokens_append_blank hs rfl, tokens_symbol _ (by simp),
    tokens_nil]

/-- A text is cut in two by a semicolon, if the text before it does not end inside a
string and has no errors or no braces. What stands before the semicolon is parsed with
it, what stands behind it is parsed alone, and the statements and the errors of the two
are those of the whole. -/
theorem semicolon_synchronises (s t : String) (hopen : ¬ EndsInString s.toList)
    (hs : (parse s).2 = [] ∨ Braceless (tokens s.toList)) :
    parse (s ++ " ; " ++ t) =
      ((parse (s ++ " ;")).1 ++ (parse t).1, (parse (s ++ " ;")).2 ++ (parse t).2) := by
  have hanew : StartsAnew (tokens s.toList) := by
    rcases hs with herrors | hbraces
    · exact (derives_of_parse (p := (parse s).1) (by rw [← herrors])).startsAnew
    · exact hbraces.startsAnew
  obtain ⟨ss, errors, hread⟩ := hanew
  obtain ⟨more, hmore⟩ := Program.exists_node (tokens t.toList)
  have hwhole : parse (s ++ " ; " ++ t) = (ss ++ more, errors ++ (parse t).2) := by
    rw [parse_eq, tokens_semicolon_blank hopen, hread, hmore, errors_parse]
    rfl
  have hfirst : parse (s ++ " ;") = (ss, errors) := by
    rw [parse_eq, tokens_semicolon_end hopen, hread, Program.read_nil]
    simp [Reading.ok]
  have hsecond : (parse t).1 = more := by
    rw [parse_eq, hmore]
    rfl
  rw [hwhole, hfirst, hsecond]

theorem semicolon_synchronises_let_x :
    ¬ EndsInString "let x =".toList ∧ Braceless (tokens "let x =".toList) ∧
      parse ("let x =" ++ " ; " ++ "5") =
        ([.expr (.int 5)], [.noExpression (.symbol .semicolon)]) := by
  have hopen : ¬ EndsInString "let x =".toList := by decide
  have hbraces : Braceless (tokens "let x =".toList) := by
    rw [tokens_let_x_assign]
    simp [Braceless]
  have hfirst : parse ("let x =" ++ " ;") = ([], [.noExpression (.symbol .semicolon)]) := by
    have hlet := Statement.read_let_of_not_starts "x" (t := .symbol .semicolon) rfl []
    rw [parse_eq, tokens_semicolon_end hopen, tokens_let_x_assign]
    simp only [List.cons_append, List.nil_append]
    rw [Program.read_of_statement hlet, Program.read_nil]
    rfl
  refine ⟨hopen, hbraces, ?_⟩
  rw [semicolon_synchronises "let x =" "5" hopen (.inr hbraces), hfirst, parse_five]
  rfl

end Texts

end Monkey
