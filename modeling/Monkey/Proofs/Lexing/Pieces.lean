import Monkey.Proofs.Lexing
import Monkey.Token.Cursor

/-!
How a text falls into tokens. A piece is a token as it is written, with the
blanks before it. A text is cut into pieces if they make it up one after the
other and only blanks come after the last one. Every text can be cut, in exactly
one way, and the tokens of the pieces are the tokens of the text.

The word at the start of a text is found by trying one way to read it after the
other. None of the ways reads every text, but one of them always does.
-/

namespace Monkey

/-- A token as it is written, and the blanks before it. -/
structure Piece where
  blanks : List Char
  token : Token
  word : List Char

/-- The pieces make up the text, and only blanks come after the last one. -/
inductive Cuts : List Char → List Piece → Prop where
  | blank {blanks : List Char} : (∀ c ∈ blanks, isSpace c = true) → Cuts blanks []
  | piece {blanks word rest : List Char} {t : Token} {pieces : List Piece} :
      (∀ c ∈ blanks, isSpace c = true) → t.Written word rest → Cuts rest pieces →
      Cuts (blanks ++ (word ++ rest)) (⟨blanks, t, word⟩ :: pieces)

namespace Cuts

variable {s : List Char} {pieces others : List Piece}

theorem tokens_eq (h : Cuts s pieces) : tokens s = pieces.map Piece.token := by
  induction h with
  | blank hblanks => exact tokens_of_blank hblanks
  | piece hblanks hwritten _ ih =>
    rw [tokens_blanks hblanks, hwritten.tokens_eq, ih]
    rfl

theorem token_ne_eof (h : Cuts s pieces) : ∀ p ∈ pieces, p.token ≠ .eof := by
  induction h with
  | blank _ =>
    intro p hp
    cases hp
  | piece _ hwritten _ ih => exact List.forall_mem_cons.mpr ⟨hwritten.ne_eof, ih⟩

/-- Every text can be cut. -/
theorem exists_pieces (s : List Char) : ∃ pieces, Cuts s pieces := by
  fun_induction tokens s with
  | case1 s next hend =>
    obtain ⟨hblank, _⟩ | ⟨_, _, _, _, hwritten⟩ := scan_written s
    · exact ⟨[], .blank hblank⟩
    · exact absurd hend hwritten.ne_eof
  | case2 s next hword hlt ih =>
    obtain ⟨_, hend⟩ | ⟨blanks, word, hblanks, hs, hwritten⟩ := scan_written s
    · exact absurd hend hword
    · obtain ⟨pieces, hpieces⟩ := ih
      refine ⟨⟨blanks, next.1, word⟩ :: pieces, ?_⟩
      rw [hs]
      exact .piece hblanks hwritten hpieces

/-- What a text is cut into after its first piece. -/
theorem of_cons {p : Piece} (h : Cuts s (p :: pieces)) :
    s = p.blanks ++ (p.word ++ (scan s).2) ∧ p.blanks = s.takeWhile isSpace ∧
      p.token = (scan s).1 ∧ Cuts (scan s).2 pieces := by
  cases h with
  | @piece blanks word rest t _ hblanks hwritten hrest =>
    have hscan : scan (blanks ++ (word ++ rest)) = (t, rest) := by
      rw [scan_blanks hblanks, hwritten.scan_eq]
    have hhead : ∀ c ∈ (word ++ rest).head?, isSpace c = false := by
      intro c hc
      obtain ⟨d, ds, rfl, hd⟩ := hwritten.exists_cons
      obtain rfl : d = c := Option.some.inj hc
      exact hd
    rw [hscan]
    exact ⟨rfl, (takeWhile_run hblanks hhead).symm, rfl, hrest⟩

/-- No text can be cut in two ways. -/
theorem unique (h : Cuts s pieces) (h' : Cuts s others) : pieces = others := by
  have hlength : pieces.length = others.length := by
    rw [← List.length_map Piece.token, ← h.tokens_eq, h'.tokens_eq, List.length_map]
  induction pieces generalizing s others with
  | nil => exact (List.length_eq_zero_iff.mp hlength.symm).symm
  | cons p pieces ih =>
    obtain ⟨q, others, rfl⟩ := List.exists_cons_of_length_eq_add_one hlength.symm
    obtain ⟨hs, hblanks, htoken, hrest⟩ := h.of_cons
    obtain ⟨hs', hblanks', htoken', hrest'⟩ := h'.of_cons
    have hword : p.word = q.word := by
      rw [hblanks] at hs
      rw [hblanks'] at hs'
      exact List.append_cancel_right (List.append_cancel_left (hs.symm.trans hs'))
    obtain ⟨blanks, t, word⟩ := p
    obtain ⟨blanks', t', word'⟩ := q
    obtain rfl : blanks = blanks' := hblanks.trans hblanks'.symm
    obtain rfl : t = t' := htoken.trans htoken'.symm
    obtain rfl : word = word' := hword
    rw [ih hrest hrest' (Nat.succ.inj hlength)]

end Cuts

/-- A way to read a word off the start of a text, which may refuse. -/
abbrev Recogniser := List Char → Option (Token × List Char)

namespace Recogniser

def ending : Recogniser
  | [] => some (.eof, [])
  | _ :: _ => none

def string : Recogniser
  | '"' :: r =>
    some (.str (String.ofList (r.takeWhile (· ≠ '"'))), (r.dropWhile (· ≠ '"')).drop 1)
  | _ => none

/-- A run of characters of a sort, which must not be empty. -/
def run (p : Char → Bool) (make : String → Token) : Recogniser := fun s =>
  match s.takeWhile p with
  | [] => none
  | c :: cs => some (make (String.ofList (c :: cs)), s.dropWhile p)

def symbol : Recogniser := fun s =>
  (Symbol.scan? s).map fun (symbol, rest) => (.symbol symbol, rest)

def stray : Recogniser
  | [] => none
  | c :: r => some (.illegal c, r)

/-- The ways to read a word, in the order in which they are tried. -/
def inOrder : List Recogniser :=
  [ending, string, run Char.isDigit .int, run isLetter .ofWord, symbol, stray]

theorem run_cons_of_pos {p : Char → Bool} {c : Char} (hc : p c = true) (make : String → Token)
    (r : List Char) :
    run p make (c :: r) = some (make (String.ofList (c :: r.takeWhile p)), r.dropWhile p) := by
  rw [run, List.takeWhile_cons_of_pos hc, List.dropWhile_cons_of_pos hc]

theorem run_cons_of_neg {p : Char → Bool} {c : Char} (hc : ¬ p c = true)
    (make : String → Token) (r : List Char) : run p make (c :: r) = none := by
  rw [run, List.takeWhile_cons_of_neg hc]

/-- One of the ways always reads a word, and the first that does reads the word
at the start of the text. -/
theorem findSome?_inOrder (s : List Char) :
    inOrder.findSome? (fun recognise => recognise s) = some (scanWord s) := by
  cases s with
  | nil => rfl
  | cons c r =>
    simp only [inOrder, List.findSome?_cons, ending, scanWord]
    by_cases hquote : c = '"'
    · subst hquote
      simp only [string, if_true]
    · have hstring : string (c :: r) = none := by simp [string, hquote]
      simp only [hstring, if_neg hquote]
      by_cases hdigit : c.isDigit = true
      · simp only [run_cons_of_pos hdigit, if_pos hdigit]
      · simp only [run_cons_of_neg hdigit, if_neg hdigit]
        by_cases hletter : isLetter c = true
        · simp only [run_cons_of_pos hletter, if_pos hletter]
        · simp only [run_cons_of_neg hletter, if_neg hletter, symbol]
          cases Symbol.scan? (c :: r) <;> rfl

end Recogniser

namespace Cursor

theorem next?_unfinished (s : List Char) :
    (⟨s, false⟩ : Cursor).next? = (some (scan s).1, ⟨(scan s).2, (scan s).1 == .eof⟩) := rfl

/-- Asked again and again, a cursor answers with the words of its text and with
the end, and then with nothing. -/
theorem drawAll_next (s : List Char) :
    ((⟨s, false⟩ : Cursor).drawAll (List.replicate ((Monkey.tokens s).length + 2) .next)).1 =
      (Monkey.tokens s).map some ++ [some .eof, none] := by
  fun_induction Monkey.tokens s with
  | case1 s next hend =>
    simp only [List.length_nil, List.replicate, drawAll, draw, next?_unfinished]
    simp only [show (scan s).1 = .eof from hend]
    rfl
  | case2 s next hword hlt ih =>
    have hgoes_on : ((scan s).1 == Token.eof) = false := beq_eq_false_iff_ne.mpr hword
    rw [List.length_cons, Nat.add_right_comm, List.replicate_succ, drawAll, draw,
      next?_unfinished, hgoes_on]
    exact congrArg (some (scan s).1 :: ·) ih

end Cursor

/-- The words of a text, and the end after them, are those of the pieces that it is
cut into, and there is no other way to cut it. A cursor that is asked until it has
nothing to say gives the same words; whatever its text starts with, there is a way
to read it. -/
theorem lex_cuts (source : String) :
    (∃ pieces, Cuts source.toList pieces ∧ (∀ others, Cuts source.toList others → others = pieces) ∧
      lex source = pieces.map Piece.token ++ [.eof] ∧ ∀ p ∈ pieces, p.token ≠ .eof) ∧
    ((Cursor.ofText source).drawAll (List.replicate ((lex source).length + 1) .next)).1 =
      (lex source).map some ++ [none] ∧
    ∀ s, Recogniser.inOrder.findSome? (fun recognise => recognise s) = some (scanWord s) := by
  refine ⟨?_, ?_, Recogniser.findSome?_inOrder⟩
  · obtain ⟨pieces, hpieces⟩ := Cuts.exists_pieces source.toList
    refine ⟨pieces, hpieces, fun others hothers => hothers.unique hpieces, ?_, hpieces.token_ne_eof⟩
    rw [lex, hpieces.tokens_eq]
  · have hdrawn := Cursor.drawAll_next source.toList
    simp only [lex, List.length_append, List.length_singleton, List.map_append, List.append_assoc]
    exact hdrawn

/-- The text `x!= "a` is cut into the name `x`, the symbol `!=`, and a string without its
second quote. -/
theorem lex_cuts_unclosed :
    Cuts "x!= \"a".toList [⟨[], .ident "x", ['x']⟩, ⟨[], .symbol .notEq, ['!', '=']⟩,
        ⟨[' '], .str "a", ['"', 'a']⟩] ∧
      lex "x!= \"a" = [.ident "x", .symbol .notEq, .str "a", .eof] := by
  obtain ⟨pieces, _, hunique, hlex, _⟩ := (lex_cuts "x!= \"a").1
  have hname : (Token.ident "x").Written ['x'] ['!', '=', ' ', '"', 'a'] :=
    .ident (by decide) (by simp [isLetter])
  have hsymbol : (Token.symbol .notEq).Written ['!', '='] [' ', '"', 'a'] :=
    .symbol (by simp)
  have hstring : (Token.str "a").Written ['"', 'a'] [] := .unclosed (by decide)
  have hnone : ∀ c ∈ ([] : List Char), isSpace c = true := by simp
  have hblank : ∀ c ∈ [' '], isSpace c = true := by simp [isSpace]
  have hcuts : Cuts "x!= \"a".toList [⟨[], .ident "x", ['x']⟩,
      ⟨[], .symbol .notEq, ['!', '=']⟩, ⟨[' '], .str "a", ['"', 'a']⟩] :=
    .piece hnone hname (.piece hnone hsymbol (.piece hblank hstring (.blank hnone)))
  rw [← hunique _ hcuts] at hlex
  exact ⟨hcuts, hlex⟩

end Monkey
