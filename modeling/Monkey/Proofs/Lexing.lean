import Mathlib.Data.List.TakeWhile
import Monkey.Token.Scan

/-!
What a text is cut into. `Token.Written` says, without a lexer, how a token is
written before the rest of a text, and what that rest must not start with for
the token to end where it does. In one direction, what is read at the start of a
text is written there; in particular names are made of letters and are no
keywords, numerals are made of digits, and strings hold no quote. In the other
direction, what is written at the start of a text is read there, and is followed
by the tokens of the rest.
-/

namespace Monkey

/-- A word that names something. -/
structure IsName (word : String) : Prop where
  ne_nil : word.toList ≠ []
  isLetter : ∀ c ∈ word.toList, isLetter c = true
  not_keyword : Keyword.ofText? word = none

theorem isName_iff {word : String} : IsName word ↔
    word.toList ≠ [] ∧ word.toList.all Monkey.isLetter = true ∧ Keyword.ofText? word = none := by
  rw [List.all_eq_true]
  constructor
  · intro h
    exact ⟨h.ne_nil, h.isLetter, h.not_keyword⟩
  · rintro ⟨hne, hletters, hword⟩
    exact ⟨hne, hletters, hword⟩

instance : DecidablePred IsName := fun _ => decidable_of_iff' _ isName_iff

/-- The tokens that can be written. -/
def Token.WellFormed : Token → Prop
  | .ident name => IsName name
  | .int digits => digits.toList ≠ [] ∧ ∀ c ∈ digits.toList, c.isDigit = true
  | .str text => '"' ∉ text.toList
  | _ => True

/-- No name, keyword or numeral runs on into the text. -/
def Splits (r : List Char) : Prop :=
  ∀ c ∈ r.head?, isLetter c = false ∧ c.isDigit = false

theorem splits_nil : Splits [] := by
  intro c hc
  cases hc

theorem splits_cons {c : Char} (h : isLetter c = false ∧ c.isDigit = false) (r : List Char) :
    Splits (c :: r) := by
  intro d hd
  obtain rfl : c = d := Option.some.inj hd
  exact h

section Characters

variable {c : Char}

theorem isDigit_iff : c.isDigit = true ↔ 48 ≤ c.toNat ∧ c.toNat ≤ 57 := by
  simp [Char.isDigit, UInt32.le_iff_toNat_le, ← Char.toNat_val]

theorem isLetter_iff : isLetter c = true ↔
    (65 ≤ c.toNat ∧ c.toNat ≤ 90) ∨ (97 ≤ c.toNat ∧ c.toNat ≤ 122) ∨ c = '_' := by
  have hletter : isLetter c = (c.isUpper || c.isLower || c == '_') := rfl
  have hupper : c.isUpper = decide (c.val ≥ 65 ∧ c.val ≤ 90) := rfl
  have hlower : c.isLower = (decide (c.val ≥ 97) && decide (c.val ≤ 122)) := rfl
  rw [hletter, hupper, hlower]
  simp [UInt32.le_iff_toNat_le, ← Char.toNat_val, or_assoc]

theorem isSpace_iff : isSpace c = true ↔ c = ' ' ∨ c = '\t' ∨ c = '\r' ∨ c = '\n' := by
  simp [isSpace, or_assoc]

theorem not_isDigit_of_isLetter (h : isLetter c = true) : ¬ c.isDigit = true := by
  rw [isDigit_iff]
  rcases isLetter_iff.mp h with h | h | rfl
  · omega
  · omega
  · decide

theorem not_isSpace_of_isLetter (h : isLetter c = true) : ¬ isSpace c = true := by
  intro hspace
  rcases isSpace_iff.mp hspace with rfl | rfl | rfl | rfl <;> cases h

theorem not_isSpace_of_isDigit (h : c.isDigit = true) : ¬ isSpace c = true := by
  intro hspace
  rcases isSpace_iff.mp hspace with rfl | rfl | rfl | rfl <;> cases h

theorem ne_quote_of_isLetter (h : isLetter c = true) : c ≠ '"' := by
  rintro rfl
  cases h

theorem ne_quote_of_isDigit (h : c.isDigit = true) : c ≠ '"' := by
  rintro rfl
  cases h

end Characters

section Runs

variable {p : Char → Bool} {l r : List Char}

theorem takeWhile_run (hl : ∀ c ∈ l, p c = true) (hr : ∀ c ∈ r.head?, p c = false) :
    (l ++ r).takeWhile p = l := by
  rw [List.takeWhile_append_of_pos hl]
  cases r with
  | nil => simp
  | cons c r => simp [hr c rfl]

theorem dropWhile_run (hl : ∀ c ∈ l, p c = true) (hr : ∀ c ∈ r.head?, p c = false) :
    (l ++ r).dropWhile p = r := by
  rw [List.dropWhile_append_of_pos hl]
  cases r with
  | nil => rfl
  | cons c r => simp [hr c rfl]

/-- A text starts with the longest run of characters of a sort. -/
theorem exists_run (p : Char → Bool) (s : List Char) :
    ∃ run rest, s.takeWhile p = run ∧ s.dropWhile p = rest ∧ s = run ++ rest ∧
      (∀ c ∈ run, p c = true) ∧ ∀ c ∈ rest.head?, p c = false := by
  refine ⟨_, _, rfl, rfl, List.takeWhile_append_dropWhile.symm, ?_, ?_⟩
  · intro c hc
    exact List.mem_takeWhile_imp hc
  · intro c hc
    have hnot := List.head?_dropWhile_not p s
    rw [hc] at hnot
    exact hnot

theorem run_of_quote_not_mem (h : '"' ∉ l) : ∀ c ∈ l, decide (c ≠ '"') = true := by
  intro c hc
  apply decide_eq_true
  rintro rfl
  exact h hc

end Runs

/-- The characters that no word can start with. -/
structure IsStray (c : Char) : Prop where
  not_space : isSpace c = false
  not_letter : isLetter c = false
  not_digit : c.isDigit = false
  not_quote : c ≠ '"'
  not_symbol : ∀ s : Symbol, s.text.toList.head? ≠ some c

/-- The word is how the token is written before the rest of a text. -/
inductive Token.Written : Token → (word rest : List Char) → Prop where
  | str {text : String} (rest : List Char) : '"' ∉ text.toList →
      Written (.str text) ('"' :: (text.toList ++ ['"'])) rest
  /-- At the end of a text the second quote may be missing. -/
  | unclosed {text : String} : '"' ∉ text.toList →
      Written (.str text) ('"' :: text.toList) []
  | int {digits : String} {rest : List Char} : digits.toList ≠ [] →
      (∀ c ∈ digits.toList, c.isDigit = true) → (∀ c ∈ rest.head?, c.isDigit = false) →
      Written (.int digits) digits.toList rest
  | ident {name : String} {rest : List Char} : IsName name →
      (∀ c ∈ rest.head?, isLetter c = false) → Written (.ident name) name.toList rest
  | keyword (k : Keyword) {rest : List Char} : (∀ c ∈ rest.head?, isLetter c = false) →
      Written (.keyword k) k.text.toList rest
  | symbol {s : Symbol} {rest : List Char} :
      (s = .assign ∨ s = .bang → rest.head? ≠ some '=') →
      Written (.symbol s) s.text.toList rest
  | illegal {c : Char} (rest : List Char) : IsStray c → Written (.illegal c) [c] rest

section Reading

variable {c : Char} {r rest : List Char}

/-- Whatever a symbol starts with, some symbol is read there. -/
theorem Symbol.isSome_scan? {s : Symbol} (hs : s.text.toList.head? = some c) :
    (Symbol.scan? (c :: r)).isSome := by
  have hstart : s.text.toList.take 1 = [c] := by rw [List.take_one, hs]; rfl
  have hlonger : (Symbol.scan? ('=' :: r)).isSome ∧ (Symbol.scan? ('!' :: r)).isSome := by
    cases r with
    | nil => exact ⟨rfl, rfl⟩
    | cons d r => by_cases hd : d = '=' <;> simp [Symbol.scan?, hd]
  change (Symbol.scan? ([c] ++ r)).isSome
  rw [← hstart]
  cases s with
  | assign | eq => exact hlonger.1
  | bang | notEq => exact hlonger.2
  | _ => rfl

/-- Where a symbol is read, what follows does not make it longer. -/
theorem Symbol.written_of_scan? {s : Symbol} (h : Symbol.scan? r = some (s, rest)) :
    (Token.symbol s).Written s.text.toList rest := by
  apply Token.Written.symbol
  intro hs hhead
  obtain ⟨tail, rfl⟩ := List.head?_eq_some_iff.mp hhead
  rw [Symbol.scan?_eq_append h] at h
  rcases hs with rfl | rfl <;> cases h

/-- A run of letters that ends before something else is a word. -/
theorem written_ofWord {letters : String} (hne : letters.toList ≠ [])
    (hletters : ∀ d ∈ letters.toList, isLetter d = true)
    (hrest : ∀ d ∈ rest.head?, isLetter d = false) :
    (Token.ofWord letters).Written letters.toList rest := by
  unfold Token.ofWord
  cases hword : Keyword.ofText? letters with
  | some k =>
    rw [← Keyword.text_of_ofText? hword]
    exact .keyword k hrest
  | none => exact .ident ⟨hne, hletters, hword⟩ hrest

/-- What is read at the start of a text is written there. -/
theorem scanWord_written (hc : isSpace c = false) (r : List Char) :
    ∃ word, c :: r = word ++ (scanWord (c :: r)).2 ∧
      (scanWord (c :: r)).1.Written word (scanWord (c :: r)).2 := by
  simp only [scanWord]
  split
  · rename_i hquote
    obtain ⟨inside, rest, htake, hdrop, hr, hinside, hrest⟩ := exists_run (· ≠ '"') r
    have hnone : '"' ∉ (String.ofList inside).toList := by
      intro hmem
      rw [String.toList_ofList] at hmem
      simpa using hinside _ hmem
    rw [htake, hdrop, hquote, hr]
    cases rest with
    | nil => exact ⟨_, by simp, .unclosed hnone⟩
    | cons d rest =>
      have hd : d = '"' := by simpa using hrest d rfl
      rw [hd]
      exact ⟨_, by simp, .str rest hnone⟩
  · rename_i hquote
    split
    · rename_i hdigit
      obtain ⟨run, rest, htake, hdrop, hr, hrun, hrest⟩ := exists_run Char.isDigit r
      rw [htake, hdrop, hr]
      refine ⟨_, by simp, .int (by simp) ?_ hrest⟩
      rw [String.toList_ofList]
      exact List.forall_mem_cons.mpr ⟨hdigit, hrun⟩
    · rename_i hdigit
      split
      · rename_i hletter
        obtain ⟨run, rest, htake, hdrop, hr, hrun, hrest⟩ := exists_run isLetter r
        rw [htake, hdrop, hr]
        refine ⟨_, by simp, written_ofWord (by simp) ?_ hrest⟩
        rw [String.toList_ofList]
        exact List.forall_mem_cons.mpr ⟨hletter, hrun⟩
      · rename_i hletter
        split
        · rename_i symbol rest hscan
          exact ⟨_, Symbol.scan?_eq_append hscan, Symbol.written_of_scan? hscan⟩
        · rename_i hscan
          have hsymbol : ∀ s : Symbol, s.text.toList.head? ≠ some c := by
            intro s hs
            have hsome := Symbol.isSome_scan? (r := r) hs
            rw [hscan] at hsome
            cases hsome
          exact ⟨[c], rfl, .illegal r ⟨hc, Bool.eq_false_iff.mpr hletter,
            Bool.eq_false_iff.mpr hdigit, hquote, hsymbol⟩⟩

end Reading

namespace Token.Written

variable {t : Token} {word rest : List Char}

theorem ne_eof (h : t.Written word rest) : t ≠ .eof := by
  cases h <;> simp

theorem wellFormed (h : t.Written word rest) : t.WellFormed := by
  cases h with
  | str _ hinside | unclosed hinside => exact hinside
  | int hne hdigits _ => exact ⟨hne, hdigits⟩
  | ident hname _ => exact hname
  | keyword | symbol | illegal => exact trivial

/-- A token is not written with a blank at the start. -/
theorem exists_cons (h : t.Written word rest) :
    ∃ c cs, word = c :: cs ∧ isSpace c = false := by
  cases h with
  | str | unclosed => exact ⟨_, _, rfl, rfl⟩
  | @int digits _ hne hdigits _ =>
    obtain ⟨c, cs, hcs⟩ := List.exists_cons_of_ne_nil hne
    have hc : c.isDigit = true := hdigits c (hcs ▸ List.mem_cons_self)
    exact ⟨c, cs, hcs, Bool.eq_false_iff.mpr (not_isSpace_of_isDigit hc)⟩
  | @ident name _ hname _ =>
    obtain ⟨c, cs, hcs⟩ := List.exists_cons_of_ne_nil hname.ne_nil
    have hc : Monkey.isLetter c = true := hname.isLetter c (hcs ▸ List.mem_cons_self)
    exact ⟨c, cs, hcs, Bool.eq_false_iff.mpr (not_isSpace_of_isLetter hc)⟩
  | keyword k _ => cases k <;> exact ⟨_, _, rfl, rfl⟩
  | @symbol s _ _ => cases s <;> exact ⟨_, _, rfl, rfl⟩
  | @illegal c _ hc => exact ⟨c, [], rfl, hc.not_space⟩

/-- Of what follows, only the first character matters. -/
theorem append {c : Char} (h : t.Written word (c :: rest)) (r : List Char) :
    t.Written word (c :: rest ++ r) := by
  cases h with
  | str _ hinside => exact .str _ hinside
  | int hne hdigits hrest => exact .int hne hdigits hrest
  | ident hname hrest => exact .ident hname hrest
  | keyword k hrest => exact .keyword k hrest
  | symbol hs => exact .symbol hs
  | illegal _ hc => exact .illegal _ hc

end Token.Written

section Writing

variable {rest : List Char}

private theorem scanWord_quote {inside : List Char} (hinside : '"' ∉ inside)
    (hrest : ∀ c ∈ rest.head?, decide (c ≠ '"') = false) :
    scanWord ('"' :: (inside ++ rest)) = (.str (String.ofList inside), rest.drop 1) := by
  have hrun := run_of_quote_not_mem hinside
  rw [scanWord, if_pos rfl, takeWhile_run hrun hrest, dropWhile_run hrun hrest]

private theorem scanWord_letters {letters : String} (hne : letters.toList ≠ [])
    (hletters : ∀ c ∈ letters.toList, isLetter c = true)
    (hrest : ∀ c ∈ rest.head?, isLetter c = false) :
    scanWord (letters.toList ++ rest) = (.ofWord letters, rest) := by
  obtain ⟨c, cs, hcs⟩ := List.exists_cons_of_ne_nil hne
  rw [hcs] at hletters ⊢
  obtain ⟨hc, hrun⟩ := List.forall_mem_cons.mp hletters
  rw [List.cons_append, scanWord, if_neg (ne_quote_of_isLetter hc),
    if_neg (not_isDigit_of_isLetter hc), if_pos hc, takeWhile_run hrun hrest,
    dropWhile_run hrun hrest, ← hcs, String.ofList_toList]

/-- What is written at the start of a text is read there. -/
theorem Token.Written.scanWord_eq {t : Token} {word : List Char} (h : t.Written word rest) :
    scanWord (word ++ rest) = (t, rest) := by
  cases h with
  | @str text _ hinside =>
    have hquote : scanWord ('"' :: (text.toList ++ '"' :: rest)) =
        (.str (String.ofList text.toList), rest) := scanWord_quote hinside (by simp)
    rw [List.cons_append, List.append_assoc, List.singleton_append, hquote,
      String.ofList_toList]
  | @unclosed text hinside =>
    rw [List.cons_append, scanWord_quote hinside (by simp), String.ofList_toList]
    rfl
  | @int digits _ hne hdigits hrest =>
    obtain ⟨c, cs, hcs⟩ := List.exists_cons_of_ne_nil hne
    rw [hcs] at hdigits ⊢
    obtain ⟨hc, hrun⟩ := List.forall_mem_cons.mp hdigits
    rw [List.cons_append, scanWord, if_neg (ne_quote_of_isDigit hc), if_pos hc,
      takeWhile_run hrun hrest, dropWhile_run hrun hrest, ← hcs, String.ofList_toList]
  | @ident name _ hname hrest =>
    rw [scanWord_letters hname.ne_nil hname.isLetter hrest, ofWord, hname.not_keyword]
  | keyword k hrest =>
    have hne : k.text.toList ≠ [] := by cases k <;> decide
    have hall : k.text.toList.all isLetter = true := by cases k <;> rfl
    rw [scanWord_letters hne (List.all_eq_true.mp hall) hrest, ofWord, Keyword.ofText?_text]
  | @symbol s _ hs =>
    cases s with
    | assign | bang =>
      cases rest with
      | nil => rfl
      | cons c r =>
        have hc : c ≠ '=' := fun hc => hs (by simp) (congrArg some hc)
        simp [scanWord, Symbol.text, Symbol.scan?, isLetter, hc]
    | _ => rfl
  | @illegal c _ hc =>
    have hscan : Symbol.scan? (c :: rest) = none := by
      apply Option.eq_none_iff_forall_not_mem.mpr
      rintro ⟨s, r⟩ hs
      apply hc.not_symbol s
      have happend := Symbol.scan?_eq_append hs
      cases s <;> exact congrArg List.head? happend.symm
    rw [List.singleton_append, scanWord, if_neg hc.not_quote,
      if_neg (Bool.eq_false_iff.mp hc.not_digit), if_neg (Bool.eq_false_iff.mp hc.not_letter),
      hscan]

end Writing

section Tokens

variable {s r : List Char}

theorem tokens_nil : tokens [] = [] := by
  rw [tokens]
  rfl

theorem tokens_of_scan {t : Token} (h : scan s = (t, r)) (ht : t ≠ .eof) :
    tokens s = t :: tokens r := by
  rw [tokens]
  simp only [h]
  rw [dif_neg ht]

theorem tokens_congr {t : List Char} (h : scan s = scan t) : tokens s = tokens t := by
  rw [tokens.eq_def s, tokens.eq_def t]
  simp only [h]

/-- Blanks mean nothing to the word after them. -/
theorem scan_blanks {blanks : List Char} (h : ∀ c ∈ blanks, isSpace c = true) (r : List Char) :
    scan (blanks ++ r) = scan r := by
  unfold scan
  rw [List.dropWhile_append_of_pos h]

theorem tokens_blanks {blanks : List Char} (h : ∀ c ∈ blanks, isSpace c = true)
    (r : List Char) : tokens (blanks ++ r) = tokens r :=
  tokens_congr (scan_blanks h r)

theorem tokens_blank {c : Char} (h : isSpace c = true) (r : List Char) :
    tokens (c :: r) = tokens r :=
  tokens_blanks (List.forall_mem_singleton.mpr h) r

/-- A text of blanks only has no word. -/
theorem tokens_of_blank (h : ∀ c ∈ s, isSpace c = true) : tokens s = [] := by
  have hs := tokens_blanks h []
  rwa [List.append_nil, tokens_nil] at hs

/-- What is written at the start of a text is its first word. -/
theorem Token.Written.scan_eq {t : Token} {word : List Char} (h : t.Written word r) :
    scan (word ++ r) = (t, r) := by
  obtain ⟨c, cs, hword, hc⟩ := h.exists_cons
  have hscan : scan (word ++ r) = scanWord (word ++ r) := by
    rw [hword, List.cons_append, scan, List.dropWhile_cons_of_neg (Bool.eq_false_iff.mp hc)]
  rw [hscan, h.scanWord_eq]

theorem Token.Written.tokens_eq {t : Token} {word : List Char} (h : t.Written word r) :
    tokens (word ++ r) = t :: tokens r :=
  tokens_of_scan h.scan_eq h.ne_eof

/-- The first word of a text comes after blanks, and is written there. At the
end of a text there are only blanks. -/
theorem scan_written (s : List Char) :
    (∀ c ∈ s, isSpace c = true) ∧ (scan s).1 = .eof ∨
      ∃ blanks word, (∀ c ∈ blanks, isSpace c = true) ∧ s = blanks ++ (word ++ (scan s).2) ∧
        (scan s).1.Written word (scan s).2 := by
  obtain ⟨blanks, rest, _, hdrop, hs, hblanks, hrest⟩ := exists_run isSpace s
  have hscan : scan s = scanWord rest := by rw [scan, hdrop]
  cases rest with
  | nil =>
    rw [List.append_nil] at hs
    rw [hscan]
    exact .inl ⟨hs ▸ hblanks, rfl⟩
  | cons c r =>
    obtain ⟨word, hword, hwritten⟩ := scanWord_written (hrest c rfl) r
    rw [hscan]
    exact .inr ⟨blanks, word, hblanks, hword ▸ hs, hwritten⟩

/-- A text that is followed by another one is cut as it is alone, if its last word
still ends there. -/
theorem tokens_append
    (h : ∀ t word, (tokens s).getLast? = some t → t.Written word [] → t.Written word r) :
    tokens (s ++ r) = tokens s ++ tokens r := by
  fun_induction tokens s with
  | case1 s next hnext =>
    obtain ⟨hblank, -⟩ | ⟨_, _, _, _, hwritten⟩ := scan_written s
    · exact tokens_blanks hblank r
    · exact absurd hnext hwritten.ne_eof
  | case2 s next hnext hlt ih =>
    obtain ⟨-, hend⟩ | ⟨blanks, word, hblanks, hs, hwritten⟩ := scan_written s
    · exact absurd hend hnext
    · have hword : next.1.Written word (next.2 ++ r) := by
        change next.1.Written word next.2 at hwritten
        cases hrest : next.2 with
        | nil =>
          rw [hrest] at hwritten
          apply h _ _ _ hwritten
          rw [hrest, tokens_nil]
          rfl
        | cons c rest =>
          rw [hrest] at hwritten
          exact hwritten.append r
      have hlast : ∀ t word, (tokens next.2).getLast? = some t → t.Written word [] →
          t.Written word r := by
        intro t w ht
        apply h t w
        rw [List.getLast?_cons, ht]
        rfl
      calc tokens (s ++ r)
          = tokens (word ++ (next.2 ++ r)) := by
            rw [hs, List.append_assoc, tokens_blanks hblanks, List.append_assoc]
        _ = next.1 :: tokens (next.2 ++ r) := hword.tokens_eq
        _ = next.1 :: tokens next.2 ++ tokens r := by rw [ih hlast, List.cons_append]

/-- Nothing that comes behind a semicolon belongs to it. -/
theorem tokens_append_of_semicolon (h : (tokens s).getLast? = some (.symbol .semicolon)) :
    tokens (s ++ r) = tokens s ++ tokens r := by
  apply tokens_append
  intro t word ht hword
  rw [h] at ht
  cases ht
  cases hword
  exact .symbol (by simp)

/-- A text that has no words shows nothing. -/
theorem isSpace_of_tokens_eq_nil (h : tokens s = []) : ∀ c ∈ s, isSpace c = true := by
  obtain ⟨hblank, -⟩ | ⟨blanks, word, hblanks, hs, hwritten⟩ := scan_written s
  · exact hblank
  · rw [hs, tokens_blanks hblanks, hwritten.tokens_eq] at h
    cases h

/-- Every token of a text is written in it. -/
theorem exists_written_of_mem {t : Token} (h : t ∈ tokens s) :
    ∃ word rest, t.Written word rest := by
  fun_induction tokens s with
  | case1 s next hnext => cases h
  | case2 s next hnext hlt ih =>
    rcases List.mem_cons.mp h with rfl | h
    · obtain ⟨_, hend⟩ | ⟨_, word, _, _, hwritten⟩ := scan_written s
      · exact absurd hend hnext
      · exact ⟨word, _, hwritten⟩
    · exact ih h

theorem tokens_wellFormed (s : List Char) : ∀ t ∈ tokens s, t.WellFormed := by
  intro t ht
  obtain ⟨word, rest, hwritten⟩ := exists_written_of_mem ht
  exact hwritten.wellFormed

theorem tokens_name {name : String} (h : IsName name) (hr : Splits r) :
    tokens (name.toList ++ r) = .ident name :: tokens r :=
  (Token.Written.ident h fun c hc => (hr c hc).1).tokens_eq

theorem tokens_keyword (k : Keyword) (hr : Splits r) :
    tokens (k.text.toList ++ r) = .keyword k :: tokens r :=
  (Token.Written.keyword k fun c hc => (hr c hc).1).tokens_eq

theorem tokens_digits {digits : String} (hne : digits.toList ≠ [])
    (hdigits : ∀ c ∈ digits.toList, c.isDigit = true) (hr : Splits r) :
    tokens (digits.toList ++ r) = .int digits :: tokens r :=
  (Token.Written.int hne hdigits fun c hc => (hr c hc).2).tokens_eq

theorem tokens_str {text : String} (h : '"' ∉ text.toList) (r : List Char) :
    tokens ('"' :: (text.toList ++ '"' :: r)) = .str text :: tokens r := by
  have heq := (Token.Written.str r h).tokens_eq
  rwa [List.cons_append, List.append_assoc, List.singleton_append] at heq

/-- Only `=` and `!` could make a longer symbol with what follows. -/
theorem tokens_symbol (s : Symbol)
    (h : s = .assign ∨ s = .bang → r.head? ≠ some '=') :
    tokens (s.text.toList ++ r) = .symbol s :: tokens r :=
  (Token.Written.symbol h).tokens_eq

end Tokens

end Monkey
