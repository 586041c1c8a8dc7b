import Monkey.Text.Lines

/-!
Lines of text and lines of bytes. In UTF-8 the byte of a line feed stands for a
line feed wherever it occurs, so the bytes of a text are cut where the text is, and
every line of them has its text.
-/

namespace Monkey.Text

section Lists

variable {α β : Type}

/-- A line that does not end goes on with what comes next. -/
theorem linesOf_append {endsLine : α → Bool} {line : List α} (hne : line ≠ [])
    (hline : ∀ a ∈ line, endsLine a = false) (rest : List α) :
    linesOf endsLine (line ++ rest) =
      match linesOf endsLine rest with
      | [] => [line]
      | next :: lines => (line ++ next) :: lines := by
  induction line with
  | nil => exact absurd rfl hne
  | cons a line ih =>
    obtain ⟨ha, hline⟩ := List.forall_mem_cons.mp hline
    rw [List.cons_append, linesOf, ha]
    cases line with
    | nil => rfl
    | cons b line =>
      rw [ih (by simp) hline]
      cases linesOf endsLine rest <;> rfl

/-- A line with its end stands for itself. -/
theorem linesOf_line {endsLine : α → Bool} {line : List α} {a : α}
    (hline : ∀ b ∈ line, endsLine b = false) (ha : endsLine a = true) (rest : List α) :
    linesOf endsLine (line ++ a :: rest) = (line ++ [a]) :: linesOf endsLine rest := by
  have hrest : linesOf endsLine (a :: rest) = [a] :: linesOf endsLine rest := by
    rw [linesOf, if_pos ha]
  cases line with
  | nil => exact hrest
  | cons b line => rw [linesOf_append (by simp) hline, hrest]

/-- Items may be written as other items, if that leaves alone where lines end. -/
theorem linesOf_flatMap {endsLine : α → Bool} {ends : β → Bool} {f : α → List β}
    (hends : ∀ a, endsLine a = true → ∃ b, f a = [b] ∧ ends b = true)
    (hinside : ∀ a, endsLine a = false → f a ≠ [] ∧ ∀ b ∈ f a, ends b = false) (as : List α) :
    linesOf ends (as.flatMap f) = (linesOf endsLine as).map (·.flatMap f) := by
  induction as with
  | nil => rfl
  | cons a as ih =>
    rw [List.flatMap_cons, linesOf]
    cases ha : endsLine a with
    | true =>
      obtain ⟨b, hb, hend⟩ := hends a ha
      rw [hb, List.singleton_append, linesOf, if_pos hend, if_pos rfl, ih, List.map_cons,
        List.flatMap_cons, hb]
      rfl
    | false =>
      obtain ⟨hne, hnone⟩ := hinside a ha
      rw [linesOf_append hne hnone, ih]
      cases linesOf endsLine as with
      | nil => simp
      | cons line lines => simp

/-- A line with its end. -/
def Complete (endsLine : α → Bool) (line : List α) : Prop :=
  ∃ body a, line = body ++ [a] ∧ (∀ b ∈ body, endsLine b = false) ∧ endsLine a = true

/-- A line that is not empty and has no end. -/
def Unfinished (endsLine : α → Bool) (line : List α) : Prop :=
  line ≠ [] ∧ ∀ b ∈ line, endsLine b = false

/-- Lines as they come out of a list: only the last one may have no end. -/
structure AreLines (endsLine : α → Bool) (lines : List (List α)) : Prop where
  complete : lines.Pairwise fun line _ => Complete endsLine line
  each : ∀ line ∈ lines, Complete endsLine line ∨ Unfinished endsLine line

variable {endsLine : α → Bool} {lines : List (List α)}

theorem areLines_of_complete (h : ∀ line ∈ lines, Complete endsLine line) :
    AreLines endsLine lines :=
  ⟨List.pairwise_of_forall_mem_list fun line hline _ _ => h line hline,
    fun line hline => .inl (h line hline)⟩

theorem AreLines.sublist {kept : List (List α)} (h : AreLines endsLine lines)
    (hkept : kept.Sublist lines) : AreLines endsLine kept :=
  ⟨h.complete.sublist hkept, fun line hline => h.each line (hkept.subset hline)⟩

theorem Complete.cons {line : List α} (h : Complete endsLine line) {a : α}
    (ha : endsLine a = false) : Complete endsLine (a :: line) := by
  obtain ⟨body, b, rfl, hbody, hb⟩ := h
  exact ⟨a :: body, b, rfl, List.forall_mem_cons.mpr ⟨ha, hbody⟩, hb⟩

theorem Unfinished.cons {line : List α} (h : Unfinished endsLine line) {a : α}
    (ha : endsLine a = false) : Unfinished endsLine (a :: line) :=
  ⟨List.cons_ne_nil a line, List.forall_mem_cons.mpr ⟨ha, h.2⟩⟩

theorem areLines_linesOf (as : List α) : AreLines endsLine (linesOf endsLine as) := by
  induction as with
  | nil => exact ⟨.nil, fun line hline => absurd hline List.not_mem_nil⟩
  | cons a as ih =>
    unfold linesOf
    cases ha : endsLine a with
    | true =>
      have hline : Complete endsLine [a] := ⟨[], a, rfl, List.forall_mem_nil _, ha⟩
      exact ⟨ih.complete.cons fun _ _ => hline, List.forall_mem_cons.mpr ⟨.inl hline, ih.each⟩⟩
    | false =>
      cases hlines : linesOf endsLine as with
      | nil =>
        have hline : Unfinished endsLine [a] :=
          ⟨List.cons_ne_nil a [], List.forall_mem_singleton.mpr ha⟩
        exact ⟨List.pairwise_singleton _ _, List.forall_mem_singleton.mpr (.inr hline)⟩
      | cons line lines =>
        rw [hlines] at ih
        obtain ⟨hfirst, hcomplete⟩ := List.pairwise_cons.mp ih.complete
        obtain ⟨hline, heach⟩ := List.forall_mem_cons.mp ih.each
        constructor
        · exact hcomplete.cons fun next hnext => (hfirst next hnext).cons ha
        · exact List.forall_mem_cons.mpr ⟨hline.imp (·.cons ha) (·.cons ha), heach⟩

/-- Lines put together are cut into the same lines again. -/
theorem linesOf_flatten (h : AreLines endsLine lines) :
    linesOf endsLine lines.flatten = lines := by
  induction lines with
  | nil => rfl
  | cons line lines ih =>
    obtain ⟨hfirst, hcomplete⟩ := List.pairwise_cons.mp h.complete
    obtain ⟨hline, heach⟩ := List.forall_mem_cons.mp h.each
    have hrest := ih ⟨hcomplete, heach⟩
    have hcut : Complete endsLine line → linesOf endsLine (line :: lines).flatten =
        line :: lines := by
      rintro ⟨body, a, rfl, hbody, ha⟩
      rw [List.flatten_cons, List.append_assoc, List.singleton_append,
        linesOf_line hbody ha, hrest]
    cases lines with
    | nil =>
      rcases hline with hline | ⟨hne, hline⟩
      · exact hcut hline
      · exact linesOf_append hne hline []
    | cons next lines => exact hcut (hfirst next List.mem_cons_self)

end Lists

section Bytes

/-- In UTF-8 no other character has the byte of a line feed. -/
theorem eq_lineFeed_of_mem {c : Char} {b : UInt8} (hb : b ∈ String.utf8EncodeChar c)
    (heq : b = '\n'.toUInt8) : c = '\n' := by
  have hn : b.toNat = 10 := congrArg UInt8.toNat heq
  have hc : c.val.toNat = 10 := by
    unfold String.utf8EncodeChar at hb
    simp only at hb
    split at hb
    · rw [List.mem_singleton.mp hb, UInt8.toNat_ofNat'] at hn
      omega
    · -- The bytes of a longer encoding are not below 128.
      split at hb
      · simp only [List.mem_cons, List.not_mem_nil, or_false] at hb
        rcases hb with rfl | rfl <;> rw [UInt8.toNat_ofNat'] at hn <;> omega
      · split at hb
        · simp only [List.mem_cons, List.not_mem_nil, or_false] at hb
          rcases hb with rfl | rfl | rfl <;> rw [UInt8.toNat_ofNat'] at hn <;> omega
        · simp only [List.mem_cons, List.not_mem_nil, or_false] at hb
          rcases hb with rfl | rfl | rfl | rfl <;> rw [UInt8.toNat_ofNat'] at hn <;> omega
  exact Char.ext (UInt32.toNat.inj hc)

theorem bytes_toUTF8 (text : String) :
    text.toUTF8.data.toList = text.toList.flatMap String.utf8EncodeChar := by
  have htext : text.toUTF8 = text.toList.utf8Encode := String.utf8Encode_toList.symm
  rw [htext]
  exact List.toList_data_toByteArray

theorem decode_bytes (chars : List Char) :
    decode (chars.flatMap String.utf8EncodeChar) = some (String.ofList chars) := by
  have hbytes : (⟨(chars.flatMap String.utf8EncodeChar).toArray⟩ : ByteArray) =
      (String.ofList chars).toUTF8 := by
    apply ByteArray.ext
    rw [String.toUTF8_eq_toByteArray, String.toByteArray_ofList]
    exact List.data_toByteArray.symm
  unfold decode
  rw [hbytes]
  exact dif_pos (String.ofList chars).isValidUTF8

/-- The lines of the bytes of a text are the lines of the text. -/
theorem inputLines_toUTF8 (text : String) :
    inputLines text.toUTF8 =
      (linesOf (· == '\n') text.toList).map fun line => some (String.ofList line) := by
  have hlines : linesOf (· == '\n'.toUInt8) (text.toList.flatMap String.utf8EncodeChar) =
      (linesOf (· == '\n') text.toList).map (·.flatMap String.utf8EncodeChar) := by
    apply linesOf_flatMap
    · intro c hc
      rw [beq_iff_eq.mp hc]
      exact ⟨_, rfl, rfl⟩
    · intro c hc
      refine ⟨String.utf8EncodeChar_ne_nil, ?_⟩
      intro b hb
      apply beq_false_of_ne
      intro heq
      rw [eq_lineFeed_of_mem hb heq] at hc
      cases hc
  unfold inputLines
  rw [bytes_toUTF8, hlines, List.map_map]
  exact List.map_congr_left fun line _ => decode_bytes line

/-- The lines of a text. -/
def lines (text : String) : List String :=
  (linesOf (· == '\n') text.toList).map String.ofList

theorem inputLines_eq_lines (text : String) : inputLines text.toUTF8 = (lines text).map some := by
  rw [inputLines_toUTF8, lines, List.map_map]
  rfl

/-- Lines are the lines of the text that they make together. -/
theorem lines_join {lines : List String}
    (h : AreLines (· == '\n') (lines.map String.toList)) :
    Text.lines (String.join lines) = lines := by
  have htext : String.ofList ∘ String.toList = id := funext fun line => String.ofList_toList
  rw [Text.lines, String.toList_join, List.flatMap_def, linesOf_flatten h, List.map_map, htext,
    List.map_id]

/-- What is left of a text when lines are deleted has the lines that were kept. -/
theorem lines_join_of_sublist {text : String} {kept : List String}
    (h : kept.Sublist (lines text)) : lines (String.join kept) = kept := by
  have hkept : (kept.map String.toList).Sublist (linesOf (· == '\n') text.toList) := by
    have hchars : String.toList ∘ String.ofList = id :=
      funext fun chars => String.toList_ofList
    have hmap := h.map String.toList
    rwa [lines, List.map_map, hchars, List.map_id] at hmap
  exact lines_join ((areLines_linesOf text.toList).sublist hkept)

end Bytes

end Monkey.Text
