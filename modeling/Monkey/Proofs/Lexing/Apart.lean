import Monkey.Proofs.Lexing.Pieces

/-!
Words that are set apart by blanks. No word but a string goes on after a blank, so
a text that does not end inside a string is cut before a blank as it is cut alone.
Quotes stand only at the ends of strings, and whether a text ends inside a string
can be told from their number.
-/

namespace Monkey

/-- A string without its second quote. -/
def Piece.Unclosed (p : Piece) : Prop :=
  ∃ text, p.token = .str text ∧ p.word = '"' :: text.toList

/-- The last word of the text is a string without its second quote. -/
def EndsInString (s : List Char) : Prop :=
  ∃ pieces, Cuts s pieces ∧ ∃ p ∈ pieces.getLast?, p.Unclosed

/-- The tokens that texts have. -/
def Token.IsWord : Token → Prop
  | .illegal c => IsStray c
  | .eof => False
  | .symbol _ | .keyword _ => True
  | .ident name => IsName name
  | .int digits => digits.toList ≠ [] ∧ ∀ c ∈ digits.toList, c.isDigit = true
  | .str text => '"' ∉ text.toList

/-- A token as it is written by itself. -/
def Token.spelling : Token → String
  | .str text => "\"" ++ text ++ "\""
  | t => t.literal

section Words

variable {t : Token} {word rest : List Char}

theorem Token.Written.isWord (h : t.Written word rest) : t.IsWord := by
  cases h with
  | str _ hinside | unclosed hinside => exact hinside
  | int hne hdigits _ => exact ⟨hne, hdigits⟩
  | ident hname _ => exact hname
  | keyword | symbol => exact trivial
  | illegal _ hstray => exact hstray

/-- Each of them can be written before a blank, and at the end of a text. -/
theorem Token.IsWord.written (h : t.IsWord) (hrest : ∀ c ∈ rest.head?, isSpace c = true) :
    t.Written t.spelling.toList rest := by
  have hletter : ∀ c ∈ rest.head?, isLetter c = false := fun c hc =>
    Bool.eq_false_iff.mpr fun hl => not_isSpace_of_isLetter hl (hrest c hc)
  have hdigit : ∀ c ∈ rest.head?, c.isDigit = false := fun c hc =>
    Bool.eq_false_iff.mpr fun hd => not_isSpace_of_isDigit hd (hrest c hc)
  cases t with
  | illegal c => simpa [spelling, literal] using Token.Written.illegal rest h
  | eof => cases h
  | symbol s =>
    apply Token.Written.symbol
    intro _ heq
    cases hrest _ heq
  | keyword k => exact .keyword k hletter
  | ident name => exact .ident h hletter
  | int digits => exact .int h.1 h.2 hdigit
  | str text => simpa [spelling] using Token.Written.str rest h

/-- Only a string can be written in another way, without its second quote. -/
theorem Token.Written.eq_spelling (h : t.Written word rest)
    (hclosed : ∀ text, t = .str text → word ≠ '"' :: text.toList) :
    word = t.spelling.toList := by
  cases h with
  | @unclosed text _ => exact absurd rfl (hclosed text rfl)
  | str | illegal => simp [spelling, literal]
  | int | ident | keyword | symbol => rfl

/-- A blank ends every word but a string. -/
theorem Token.Written.before_blank {c : Char} {r : List Char} (h : t.Written word rest)
    (hclosed : ∀ text, t = .str text → word ≠ '"' :: text.toList) (hc : isSpace c = true) :
    t.Written word (c :: r) := by
  rw [h.eq_spelling hclosed]
  exact h.isWord.written (by simpa using hc)

end Words

section Blanks

variable {s r : List Char} {c : Char} {pieces : List Piece}

theorem Cuts.nil_eq (h : Cuts [] pieces) : pieces = [] :=
  h.unique (.blank fun _ hc => absurd hc List.not_mem_nil)

theorem Cuts.tokens_append_blank (h : Cuts s pieces)
    (hclosed : ∀ p ∈ pieces.getLast?, ¬ p.Unclosed) (hc : isSpace c = true) (r : List Char) :
    tokens (s ++ c :: r) = tokens s ++ tokens r := by
  induction h with
  | blank hblanks => rw [tokens_blanks hblanks, tokens_blank hc, tokens_of_blank hblanks]; rfl
  | @piece blanks word rest t pieces hblanks hwritten hrest ih =>
    have hword : t.Written word (rest ++ c :: r) := by
      cases rest with
      | nil =>
        obtain rfl := hrest.nil_eq
        exact hwritten.before_blank (fun text ht hw => hclosed _ rfl ⟨text, ht, hw⟩) hc
      | cons d rest => exact hwritten.append _
    have hclosed' : ∀ p ∈ pieces.getLast?, ¬ p.Unclosed := by
      intro p hp
      apply hclosed p
      rw [List.getLast?_cons, hp]
      rfl
    rw [List.append_assoc, List.append_assoc, tokens_blanks hblanks, tokens_blanks hblanks,
      hword.tokens_eq, hwritten.tokens_eq, ih hclosed', List.cons_append]

/-- A text that does not end inside a string and what comes behind a blank are cut
apart from each other. -/
theorem tokens_append_blank (h : ¬ EndsInString s) (hc : isSpace c = true) (r : List Char) :
    tokens (s ++ c :: r) = tokens s ++ tokens r := by
  obtain ⟨pieces, hpieces⟩ := Cuts.exists_pieces s
  exact hpieces.tokens_append_blank (fun p hp hp' => h ⟨pieces, hpieces, p, hp, hp'⟩) hc r

end Blanks

section Quotes

variable {s rest word : List Char} {t : Token}

theorem count_quote_of_isSpace {blanks : List Char} (h : ∀ c ∈ blanks, isSpace c = true) :
    blanks.count '"' = 0 := by
  apply List.count_eq_zero_of_not_mem
  intro hmem
  cases h _ hmem

/-- A string has its quotes, and other words have none. -/
theorem Token.Written.count_quote (h : t.Written word rest) :
    (word.count '"' % 2 = 0 ∧ ∀ text, t = .str text → word ≠ '"' :: text.toList) ∨
      (word.count '"' = 1 ∧ rest = [] ∧ ∃ text, t = .str text ∧ word = '"' :: text.toList) := by
  cases h with
  | @str text _ hinside =>
    refine .inl ⟨?_, ?_⟩
    · simp [List.count_eq_zero_of_not_mem hinside]
    · rintro _ ⟨⟩ heq
      have hlength := congrArg List.length heq
      simp at hlength
  | @unclosed text hinside =>
    refine .inr ⟨?_, rfl, text, rfl, rfl⟩
    rw [List.count_cons_self, List.count_eq_zero_of_not_mem hinside]
  | int _ hdigits _ =>
    refine .inl ⟨?_, nofun⟩
    rw [List.count_eq_zero_of_not_mem fun hmem => ne_quote_of_isDigit (hdigits _ hmem) rfl]
  | ident hname _ =>
    refine .inl ⟨?_, nofun⟩
    rw [List.count_eq_zero_of_not_mem fun hmem => ne_quote_of_isLetter (hname.isLetter _ hmem) rfl]
  | keyword k _ => exact .inl ⟨by cases k <;> rfl, nofun⟩
  | @symbol s _ _ => exact .inl ⟨by cases s <;> rfl, nofun⟩
  | illegal _ hstray =>
    refine .inl ⟨?_, nofun⟩
    rw [List.count_singleton, if_neg]
    simpa using hstray.not_quote

theorem Cuts.unclosed_iff_odd {pieces : List Piece} (h : Cuts s pieces) :
    (∃ p ∈ pieces.getLast?, p.Unclosed) ↔ s.count '"' % 2 = 1 := by
  induction h with
  | blank hblanks => simp [count_quote_of_isSpace hblanks]
  | @piece blanks word rest t pieces hblanks hwritten hrest ih =>
    rw [List.count_append, List.count_append, count_quote_of_isSpace hblanks, Nat.zero_add]
    obtain ⟨heven, hclosed⟩ | ⟨hone, rfl, text, ht, hword⟩ := hwritten.count_quote
    · have hparity : (word.count '"' + rest.count '"') % 2 = 1 ↔ rest.count '"' % 2 = 1 := by
        omega
      rw [hparity, ← ih]
      cases pieces with
      | nil =>
        constructor
        · rintro ⟨_, ⟨⟩, text, ht, hword⟩
          exact absurd hword (hclosed text ht)
        · rintro ⟨_, ⟨⟩, _⟩
      | cons p pieces => rw [List.getLast?_cons_cons]
    · obtain rfl := hrest.nil_eq
      rw [hone]
      exact ⟨fun _ => rfl, fun _ => ⟨_, rfl, text, ht, hword⟩⟩

/-- A text ends inside a string if it has an odd number of quotes. -/
theorem endsInString_iff_odd (s : List Char) : EndsInString s ↔ s.count '"' % 2 = 1 := by
  constructor
  · rintro ⟨pieces, hpieces, hlast⟩
    exact hpieces.unclosed_iff_odd.mp hlast
  · intro hodd
    obtain ⟨pieces, hpieces⟩ := Cuts.exists_pieces s
    exact ⟨pieces, hpieces, hpieces.unclosed_iff_odd.mpr hodd⟩

instance : DecidablePred EndsInString := fun s => decidable_of_iff' _ (endsInString_iff_odd s)

end Quotes

end Monkey
