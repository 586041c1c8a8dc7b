import Mathlib.Data.List.Induction
import Mathlib.Data.List.ReduceOption
import Monkey.Proofs.Lexing
import Monkey.Syntax.Parser

/-!
Drawing words from a cursor in two ways. Whichever way is used, what has been drawn and
what is still to be drawn make up the words of the text, so that no word is lost and none
comes twice; once the words are used up, all that can be drawn is the end. Only one of the
two ways ever stops, and only because it has itself answered with the end. A parser, which
draws two words before it starts, has all the words that were still to be drawn.
-/

namespace Monkey

/-- There is no text left behind the end. -/
theorem scan_rest_of_eof {s : List Char} (h : (scan s).1 = .eof) : (scan s).2 = [] := by
  obtain ⟨blanks, rest, _, hdrop, -, -, hrest⟩ := exists_run isSpace s
  rw [scan, hdrop] at h ⊢
  cases rest with
  | nil => rfl
  | cons c r =>
    obtain ⟨_, _, hwritten⟩ := scanWord_written (hrest c rfl) r
    exact absurd h hwritten.ne_eof

namespace Cursor

/-- From one place to the next one: the word in between is the token or, where no words are
left, the token is the end. -/
inductive Passes (c : Cursor) (t : Token) (c' : Cursor) : Prop where
  | word : t ≠ .eof → c.tokens = t :: c'.tokens → Passes c t c'
  | ending : t = .eof → c.tokens = [] → c'.tokens = [] → Passes c t c'

theorem passes_advance (c : Cursor) : c.Passes c.advance.1 c.advance.2 := by
  by_cases hend : (scan c.rest).1 = .eof
  · have hnone : Monkey.tokens c.rest = [] := by
      rw [Monkey.tokens]
      exact dif_pos hend
    have hrest : Monkey.tokens (scan c.rest).2 = [] := by
      rw [scan_rest_of_eof hend, tokens_nil]
    exact .ending hend hnone hrest
  · exact .word hend (tokens_of_scan rfl hend)

theorem Passes.tokens_eq {c c' : Cursor} {t : Token} (h : c.Passes t c') :
    c.tokens = [t].filter (· ≠ .eof) ++ c'.tokens := by
  cases h with
  | word hne hword => simp [hne, hword]
  | ending heof hnone hrest => simp [heof, hnone, hrest]

/-- What a request can come to: nothing, if words were asked for until the end and the end
was given, and otherwise the next word. -/
theorem draw_cases (c : Cursor) (d : Draw) :
    (d = .next ∧ c.finished = true ∧ c.draw d = (none, c)) ∨
      ∃ t c', c.draw d = (some t, c') ∧ c.Passes t c' ∧ (d = .next → c.finished = false) ∧
        (c'.finished = true ↔ c.finished = true ∨ (d, t) = (.next, .eof)) := by
  have hpasses := c.passes_advance
  cases d with
  | advance =>
    refine .inr ⟨c.advance.1, c.advance.2, rfl, hpasses, by simp, ?_⟩
    simp [advance]
  | next =>
    cases hfinished : c.finished with
    | true => exact .inl ⟨rfl, rfl, by simp [draw, next?, hfinished]⟩
    | false =>
      refine .inr ⟨c.advance.1, { c.advance.2 with finished := c.advance.1 == .eof },
        by simp [draw, next?, hfinished], ?_, by simp, by simp⟩
      cases hpasses with
      | word hne hword => exact .word hne hword
      | ending heof hnone hrest => exact .ending heof hnone hrest

/-- One more request goes on from where the others have led. -/
theorem drawAll_concat (c : Cursor) (ds : List Draw) (d : Draw) :
    c.drawAll (ds ++ [d]) = ((c.drawAll ds).1 ++ [((c.drawAll ds).2.draw d).1],
      ((c.drawAll ds).2.draw d).2) := by
  induction ds generalizing c with
  | nil => rfl
  | cons e ds ih => simp [drawAll, ih]

/-- Where a cursor over a text stands after some requests and the answers to them. The end
comes up in the answers as often as it was drawn, and that is not before the words are
used up. -/
structure Stands (s : List Char) (ds : List Draw) (answers : List (Option Token))
    (c : Cursor) : Prop where
  length_eq : answers.length = ds.length
  conserved : ∃ ends, answers.reduceOption ++ c.tokens =
    Monkey.tokens s ++ List.replicate ends .eof ∧ (ends = 0 ∨ c.tokens = [])
  finished_iff : c.finished = true ↔ (.next, some .eof) ∈ ds.zip answers

variable {s : List Char} {ds : List Draw} {answers : List (Option Token)} {c : Cursor}

theorem Stands.draw (h : Stands s ds answers c) (d : Draw) :
    Stands s (ds ++ [d]) (answers ++ [(c.draw d).1]) (c.draw d).2 := by
  obtain ⟨ends, hall, hends⟩ := h.conserved
  obtain ⟨rfl, hfinished, hdraw⟩ | ⟨t, c', hdraw, hpasses, -, hfinished⟩ := c.draw_cases d
  · rw [hdraw]
    constructor
    · simp [h.length_eq]
    · refine ⟨ends, ?_, hends⟩
      rw [List.reduceOption_append, List.reduceOption_cons_of_none, List.reduceOption_nil,
        List.append_nil, hall]
    · simp [List.zip_append h.length_eq.symm, h.finished_iff]
  · rw [hdraw]
    constructor
    · simp [h.length_eq]
    · rw [List.reduceOption_append, List.reduceOption_cons_of_some, List.reduceOption_nil,
        List.append_assoc]
      cases hpasses with
      | word _ hword =>
        -- A word was left, so the end has not been drawn yet.
        have hnone : ends = 0 := by simpa [hword] using hends
        refine ⟨ends, ?_, .inl hnone⟩
        rw [← hall, hword, List.singleton_append]
      | ending heof hnone hrest =>
        refine ⟨ends + 1, ?_, .inr hrest⟩
        rw [hnone, List.append_nil] at hall
        rw [hrest, List.append_nil, hall, heof, List.append_assoc, List.replicate_succ']
    · rw [hfinished, h.finished_iff, List.zip_append h.length_eq.symm]
      simp [eq_comm]

theorem stands_drawAll (s : List Char) (ds : List Draw) :
    Stands s ds ((⟨s, false⟩ : Cursor).drawAll ds).1 ((⟨s, false⟩ : Cursor).drawAll ds).2 := by
  induction ds using List.reverseRecOn with
  | nil =>
    refine ⟨rfl, ⟨0, ?_, .inl rfl⟩, ?_⟩
    · simp [drawAll, tokens]
    · simp [drawAll]
  | append_singleton ds d ih =>
    rw [drawAll_concat]
    exact ih.draw d

theorem Stands.length_ends_le (h : Stands s ds answers c) {ends : Nat}
    (hall : answers.reduceOption = Monkey.tokens s ++ List.replicate ends .eof) :
    ends ≤ ds.length := by
  have hlength := congrArg List.length hall
  have hle := List.reduceOption_length_le answers
  have hsame := h.length_eq
  simp at hlength
  omega

theorem Stands.tokens_eq (h : Stands s ds answers c) :
    c.tokens = (Monkey.tokens s).drop answers.reduceOption.length := by
  obtain ⟨ends, hall, rfl | hnone⟩ := h.conserved
  · rw [List.replicate_zero, List.append_nil] at hall
    rw [← hall, List.drop_left]
  · rw [hnone, List.append_nil] at hall
    rw [hnone, hall, List.drop_of_length_le]
    simp

theorem Stands.drawn_prefix {source : String} (h : Stands source.toList ds answers c) :
    answers.reduceOption <+: lex source ++ List.replicate ds.length .eof := by
  have hends : lex source ++ List.replicate ds.length .eof =
      Monkey.tokens source.toList ++ List.replicate (ds.length + 1) .eof := by
    simp [lex, List.replicate_succ]
  rw [hends]
  obtain ⟨ends, hall, rfl | hnone⟩ := h.conserved
  · rw [List.replicate_zero, List.append_nil] at hall
    rw [← hall, List.append_assoc]
    exact List.prefix_append _ _
  · rw [hnone, List.append_nil] at hall
    have hle := h.length_ends_le hall
    rw [hall, List.prefix_append_right_inj, List.prefix_replicate_iff]
    simp
    omega

end Cursor

/-- That two words have been drawn in advance makes no difference to what there is to
parse. -/
theorem Parser.ofCursor_eq (c : Cursor) : Parser.ofCursor c = ⟨c.tokens, []⟩ := by
  have hcurrent := c.passes_advance.tokens_eq
  have hpeek := c.advance.2.passes_advance.tokens_eq
  rw [hcurrent, hpeek, ← List.append_assoc, ← List.filter_append]
  rfl

theorem Cursor.tokens_ofText (source : String) :
    (Cursor.ofText source).tokens = Monkey.tokens source.toList := rfl

theorem parse_eq (source : String) :
    parse source = ((Program.read (tokens source.toList)).node?.getD [],
      (Program.read (tokens source.toList)).errors) := by
  rw [parse, Parser.ofCursor_eq, Cursor.tokens_ofText]
  rfl

theorem errors_parse (source : String) :
    (parse source).2 = (Program.read (tokens source.toList)).errors := by
  rw [parse_eq]

/-- Requests to a cursor over a text, of either sort and in any order, are answered with the
first words of the text and then with the end again and again; a parser reads the other
words. `advance` always answers. `next` does so until it has itself answered with the end,
and from then on it leaves the cursor as it is. -/
theorem draws_lose_nothing (source : String) (ds : List Draw) :
    let answers := ((Cursor.ofText source).drawAll ds).1
    let c := ((Cursor.ofText source).drawAll ds).2
    answers.length = ds.length ∧
    (∀ d, (Cursor.ofText source).drawAll (ds ++ [d]) =
      (answers ++ [(c.draw d).1], (c.draw d).2)) ∧
    answers.reduceOption <+: lex source ++ List.replicate ds.length .eof ∧
    (∃ t, (c.draw .advance).1 = some t) ∧
    ((c.draw .next).1 = none ↔ (.next, some .eof) ∈ ds.zip answers) ∧
    ((.next, some .eof) ∈ ds.zip answers → c.draw .next = (none, c)) ∧
    Parser.ofCursor c = ⟨(tokens source.toList).drop answers.reduceOption.length, []⟩ ∧
    ∀ rest : String, tokens rest.toList =
        (tokens source.toList).drop answers.reduceOption.length →
      ((Parser.ofCursor c).program.1, (Parser.ofCursor c).program.2.errors) = parse rest := by
  intro answers c
  have hstands : Cursor.Stands source.toList ds answers c := Cursor.stands_drawAll _ ds
  have hnext : (.next, some .eof) ∈ ds.zip answers → c.draw .next = (none, c) := by
    intro hgiven
    obtain ⟨-, -, hdraw⟩ | ⟨t, c', -, -, hunfinished, -⟩ := c.draw_cases .next
    · exact hdraw
    · rw [← hstands.finished_iff, hunfinished rfl] at hgiven
      cases hgiven
  have hparser : Parser.ofCursor c =
      ⟨(tokens source.toList).drop answers.reduceOption.length, []⟩ := by
    rw [Parser.ofCursor_eq, hstands.tokens_eq]
  refine ⟨hstands.length_eq, Cursor.drawAll_concat _ ds, hstands.drawn_prefix, ⟨_, rfl⟩, ?_,
    hnext, hparser, ?_⟩
  · constructor
    · intro hnone
      obtain ⟨-, hfinished, -⟩ | ⟨t, c', hdraw, -⟩ := c.draw_cases .next
      · exact hstands.finished_iff.mp hfinished
      · rw [hdraw] at hnone
        cases hnone
    · intro hgiven
      rw [hnext hgiven]
  · intro rest hrest
    rw [parse_eq, hparser, hrest]
    rfl

/-- The name `a` and the numeral `1`, drawn in different ways, and the end after them; and
the parser that finds the first of the two words drawn already. -/
theorem draws_lose_nothing_after_end :
    let ds : List Draw := [.next, .advance, .next, .advance]
    let c := ((Cursor.ofText "a 1").drawAll ds).2
    let skipped := ((Cursor.ofText "a 1").drawAll [.advance]).2
    (Draw.next, some Token.eof) ∈ ds.zip ((Cursor.ofText "a 1").drawAll ds).1 ∧
      c.draw .next = (none, c) ∧ tokens " 1".toList = (tokens "a 1".toList).drop 1 ∧
      ((Parser.ofCursor skipped).program.1, (Parser.ofCursor skipped).program.2.errors) =
        parse " 1" := by
  intro ds c skipped
  obtain ⟨-, -, -, -, -, hfinished, -⟩ := draws_lose_nothing "a 1" ds
  obtain ⟨-, -, -, -, -, -, -, hparser⟩ := draws_lose_nothing "a 1" [.advance]
  have hgiven : (Draw.next, some Token.eof) ∈ ds.zip ((Cursor.ofText "a 1").drawAll ds).1 := by
    decide
  have hrest : tokens " 1".toList = (tokens "a 1".toList).drop 1 := by decide +kernel
  exact ⟨hgiven, hfinished hgiven, hrest, hparser " 1" hrest⟩

end Monkey
