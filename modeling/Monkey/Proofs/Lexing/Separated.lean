import Monkey.Proofs.Lexing.Apart

/-!
Texts with blanks between them. The words of two texts that are put together with a
blank in between are those of the one and then those of the other, unless the first one
ends inside a string, which then goes on through the blank. So tokens that are written
one after the other, with a blank between each two, are read back as they are; this
holds of all tokens that any text has.
-/

namespace Monkey

/-- There is a way to write the token that a blank ends. -/
def Token.Writable (t : Token) : Prop :=
  ∃ word, ∀ r, t.Written word (' ' :: r)

/-- Tokens as they are written, with a blank between each two. -/
def spaced : List Token → String
  | [] => ""
  | [t] => t.spelling
  | t :: u :: ts => t.spelling ++ " " ++ spaced (u :: ts)

section Words

variable {t : Token} {word rest : List Char}

theorem Token.IsWord.writable (h : t.IsWord) : t.Writable :=
  ⟨t.spelling.toList, fun _ => h.written (by simp [isSpace])⟩

theorem Token.writable_symbol (s : Symbol) : (Token.symbol s).Writable :=
  Token.IsWord.writable trivial

theorem Token.IsWord.tokens_spelling (h : t.IsWord) : tokens t.spelling.toList = [t] := by
  have hword : t.Written t.spelling.toList [] := h.written (by simp)
  simpa [tokens_nil] using hword.tokens_eq

/-- These are the tokens that texts have. -/
theorem Token.isWord_iff : t.IsWord ↔ ∃ source : String, t ∈ tokens source.toList := by
  constructor
  · intro h
    refine ⟨t.spelling, ?_⟩
    simp [h.tokens_spelling]
  · rintro ⟨source, h⟩
    obtain ⟨word, rest, hwritten⟩ := exists_written_of_mem h
    exact hwritten.isWord

theorem tokens_spaced {ts : List Token} (h : ∀ t ∈ ts, t.IsWord) :
    tokens (spaced ts).toList = ts := by
  fun_induction spaced ts with
  | case1 => exact tokens_nil
  | case2 t => exact (h t (by simp)).tokens_spelling
  | case3 t u ts ih =>
    obtain ⟨ht, hts⟩ := List.forall_mem_cons.mp h
    have hword : t.Written t.spelling.toList (' ' :: (spaced (u :: ts)).toList) :=
      ht.written (by simp [isSpace])
    simpa [tokens_blank, isSpace, ih hts] using hword.tokens_eq

/-- Tokens that can be written are the tokens of some text. -/
theorem exists_text {ts : List Token} (h : ∀ t ∈ ts, t.Writable) :
    ∃ text : String, tokens text.toList = ts := by
  refine ⟨spaced ts, tokens_spaced fun t ht => ?_⟩
  obtain ⟨word, hword⟩ := h t ht
  exact (hword []).isWord

end Words

section Blanks

variable {s w r : List Char} {c : Char} {pieces : List Piece}

theorem tokens_quote (l : List Char) :
    tokens ('"' :: l) = .str (String.ofList (l.takeWhile (· ≠ '"'))) ::
      tokens ((l.dropWhile (· ≠ '"')).drop 1) :=
  tokens_of_scan rfl (by simp)

/-- A string without its second quote goes on through whatever comes behind it. -/
theorem Cuts.tokens_append_of_unclosed (h : Cuts s pieces)
    (hopen : ∃ p ∈ pieces.getLast?, p.Unclosed) (hc : c ≠ '"') (r : List Char) :
    ∃ before text longer after, tokens s = before ++ [.str text] ∧ longer ≠ text ∧
      tokens (s ++ c :: r) = before ++ .str longer :: after := by
  induction h with
  | blank => simp at hopen
  | @piece blanks word rest t pieces hblanks hwritten hrest ih =>
    obtain ⟨-, hclosed⟩ | ⟨-, rfl, text, rfl, rfl⟩ := hwritten.count_quote
    · -- A word without an open quote is not the last one, and stays as it is.
      have hopen' : ∃ p ∈ pieces.getLast?, p.Unclosed := by
        cases pieces with
        | nil =>
          obtain ⟨_, ⟨⟩, text, ht, hword⟩ := hopen
          exact absurd hword (hclosed text ht)
        | cons p pieces => rwa [List.getLast?_cons_cons] at hopen
      obtain ⟨before, text, longer, after, hs, hne, happend⟩ := ih hopen'
      have hword : t.Written word (rest ++ c :: r) := by
        cases rest with
        | nil =>
          rw [hrest.nil_eq] at hopen'
          simp at hopen'
        | cons d rest => exact hwritten.append _
      refine ⟨t :: before, text, longer, after, ?_, hne, ?_⟩
      · rw [tokens_blanks hblanks, hwritten.tokens_eq, hs, List.cons_append]
      · rw [List.append_assoc, List.append_assoc, tokens_blanks hblanks, hword.tokens_eq, happend,
          List.cons_append]
    · -- The open string has at least one more character than it had.
      have hinside := run_of_quote_not_mem (l := text.toList) hwritten.isWord
      have hrun : (text.toList ++ c :: r).takeWhile (· ≠ '"') =
          text.toList ++ c :: r.takeWhile (· ≠ '"') := by
        rw [List.takeWhile_append_of_pos hinside, List.takeWhile_cons_of_pos (by simpa using hc)]
      refine ⟨[], text, String.ofList (text.toList ++ c :: r.takeWhile (· ≠ '"')),
        tokens (((text.toList ++ c :: r).dropWhile (· ≠ '"')).drop 1), ?_, ?_, ?_⟩
      · rw [tokens_blanks hblanks, hwritten.tokens_eq, tokens_nil, List.nil_append]
      · intro heq
        have hlength := congrArg String.length heq
        simp at hlength
      · rw [List.append_assoc, tokens_blanks hblanks, List.append_nil, List.cons_append,
          tokens_quote, hrun, List.nil_append]

/-- Two texts with blanks between them are cut apart, unless the first one ends inside a
string. -/
theorem tokens_append_blanks_iff (hne : w ≠ []) (hw : ∀ c ∈ w, isSpace c = true) :
    tokens (s ++ (w ++ r)) = tokens s ++ tokens r ↔ ¬ EndsInString s := by
  obtain ⟨c, w, rfl⟩ := List.exists_cons_of_ne_nil hne
  obtain ⟨hc, hw⟩ := List.forall_mem_cons.mp hw
  constructor
  · rintro heq ⟨pieces, hpieces, hopen⟩
    have hquote : c ≠ '"' := by
      rintro rfl
      cases hc
    obtain ⟨before, text, longer, after, hs, hlonger, happend⟩ :=
      hpieces.tokens_append_of_unclosed hopen hquote (w ++ r)
    rw [List.cons_append, happend, hs, List.append_assoc] at heq
    simp at heq
    exact hlonger heq.1
  · intro hclosed
    rw [List.cons_append, tokens_append_blank hclosed hc, tokens_blanks hw]

end Blanks

/-- With blanks between two texts, all words of the one come before all words of the other
if and only if the first text does not end inside a string. The tokens that texts have are
the strings without quotes, the names that are no keywords, the numerals, the keywords, the
symbols, and the characters that start none of these. With a blank between each two, however
many of them are read back as they are written. -/
theorem blanks_keep_words_apart :
    (∀ s₁ w s₂ : String, w ≠ "" → (∀ c ∈ w.toList, isSpace c = true) →
      (lex (s₁ ++ w ++ s₂) = (lex s₁).dropLast ++ lex s₂ ↔ ¬ EndsInString s₁.toList)) ∧
    (∀ t : Token, t.IsWord ↔ t ≠ .eof ∧ ∃ source, t ∈ lex source) ∧
    ∀ ts, (∀ t ∈ ts, t.IsWord) → lex (spaced ts) = ts ++ [.eof] := by
  refine ⟨?_, ?_, ?_⟩
  · intro s₁ w s₂ hne hw
    have hne' : w.toList ≠ [] := by simpa using hne
    rw [← tokens_append_blanks_iff hne' hw (r := s₂.toList)]
    simp [lex, ← List.append_assoc]
  · intro t
    rw [Token.isWord_iff]
    constructor
    · rintro ⟨source, h⟩
      obtain ⟨word, rest, hwritten⟩ := exists_written_of_mem h
      exact ⟨hwritten.ne_eof, source, List.mem_append_left _ h⟩
    · rintro ⟨hne, source, h⟩
      refine ⟨source, ?_⟩
      simpa [lex, hne] using h
  · intro ts hts
    rw [lex, tokens_spaced hts]

/-- A string with a blank in it, closed before the blanks; two symbols that would be one
without a blank; and a name that starts with a keyword. -/
theorem blanks_keep_words_apart_not_equal :
    let ts : List Token :=
      [.str "a b", .illegal '@', .ident "iff", .symbol .bang, .symbol .assign, .int "007"]
    ¬ EndsInString "x!= \"a b\"".toList ∧
      lex ("x!= \"a b\"" ++ "\t\n" ++ "= \"c") =
        (lex "x!= \"a b\"").dropLast ++ lex "= \"c" ∧
      (∀ t ∈ ts, t.IsWord) ∧ lex "\"a b\" @ iff ! = 007" = ts ++ [.eof] := by
  intro ts
  obtain ⟨happart, -, hback⟩ := blanks_keep_words_apart
  have hclosed : ¬ EndsInString "x!= \"a b\"".toList := by decide
  have hstring : (Token.str "a b").IsWord := show '"' ∉ "a b".toList by decide
  have hstray : (Token.illegal '@').IsWord :=
    ⟨rfl, rfl, rfl, by decide, fun s => by cases s <;> decide⟩
  have hname : (Token.ident "iff").IsWord := show IsName "iff" by decide
  have hsymbol : ∀ s, (Token.symbol s).IsWord := fun _ => trivial
  have hint : (Token.int "007").IsWord := ⟨by decide, List.all_eq_true.mp rfl⟩
  have hblanks : ∀ c ∈ "\t\n".toList, isSpace c = true := List.all_eq_true.mp rfl
  have hwords : ∀ t ∈ ts, t.IsWord := by
    simp [ts, hstring, hstray, hname, hsymbol, hint]
  exact ⟨hclosed, (happart _ _ _ (by decide) hblanks).mpr hclosed, hwords, hback ts hwords⟩

end Monkey
