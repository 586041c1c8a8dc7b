import Monkey.Output

/-!
What is written. Work is done piece by piece, and a sink that takes everything has
the texts of all pieces one behind the other. A sink with room for a part of them only
has exactly the bytes that fit, wherever they end, and then the work fails for want of
room, whatever else it would have come to.
-/

namespace Monkey

/-- A sink that takes everything, and has taken a text. -/
def Sink.holding (text : String) : Sink := ⟨none, text.toUTF8⟩

theorem Sink.unlimited_eq : Sink.unlimited = Sink.holding "" := rfl

namespace Output

variable {α β : Type} {s s' : Sink}

/-- Work goes on from where the work before it has come to. -/
theorem run_bind_of_ok {o : Output α} {a : α} (h : o.run s = some (.ok a, s'))
    (next : α → Output β) : (o >>= next).run s = (next a).run s' := by
  have ho : o s = some (.ok a, s') := h
  change Option.bind (o s) _ = _
  rw [ho]
  rfl

/-- After a failure there is no more work. -/
theorem run_bind_of_error {o : Output α} {e : Failure} (h : o.run s = some (.error e, s'))
    (next : α → Output β) : (o >>= next).run s = some (.error e, s') := by
  have ho : o s = some (.error e, s') := h
  change Option.bind (o s) _ = _
  rw [ho]
  rfl

theorem run_bind_cases {o : Output α} {next : α → Output β} {r : Except Failure β}
    (h : (o >>= next).run s = some (r, s')) :
    (∃ e, o.run s = some (.error e, s') ∧ r = .error e) ∨
      ∃ a mid, o.run s = some (.ok a, mid) ∧ (next a).run mid = some (r, s') := by
  cases ho : o.run s with
  | none =>
    have hnone : o s = none := ho
    change Option.bind (o s) _ = _ at h
    rw [hnone] at h
    cases h
  | some end' =>
    obtain ⟨e | a, mid⟩ := end'
    · rw [run_bind_of_error ho] at h
      cases h
      exact .inl ⟨e, rfl, rfl⟩
    · rw [run_bind_of_ok ho] at h
      exact .inr ⟨a, mid, rfl, h⟩

/-- Comes to all that the other work comes to. -/
def Extends (p o : Output α) : Prop :=
  ∀ s r, o.run s = some r → p.run s = some r

theorem extends_refl (o : Output α) : o.Extends o := fun _ _ h => h

theorem extends_ofOption {a? b? : Option α} (h : ∀ a, a? = some a → b? = some a) :
    (ofOption b?).Extends (ofOption a?) := by
  cases a? with
  | none =>
    intro s r hrun
    cases hrun
  | some a =>
    rw [h a rfl]
    exact extends_refl _

theorem extends_bind {o p : Output α} {next next' : α → Output β} (hop : p.Extends o)
    (hnext : ∀ a, (next' a).Extends (next a)) : (p >>= next').Extends (o >>= next) := by
  rintro s ⟨r, s'⟩ h
  obtain ⟨e, he, rfl⟩ | ⟨a, mid, ha, hrest⟩ := run_bind_cases h
  · exact run_bind_of_error (hop _ _ he) next'
  · rw [run_bind_of_ok (hop _ _ ha)]
    exact hnext a _ _ hrest

theorem run_ofOption (a : α) (s : Sink) : (ofOption (some a)).run s = some (.ok a, s) := rfl

theorem run_write (written text : String) :
    (write text).run (.holding written) = some (.ok (), .holding (written ++ text)) := rfl

/-- A write is handed to the sink, and the work goes on if it was all taken. -/
theorem run_write_of_put {text : String} {fits : Bool} (h : s.put text = (fits, s')) :
    (write text).run s = some (if fits then .ok () else .error .full, s') := by
  have hput : (modifyGet (·.put text) : Output Bool).run s = some (.ok fits, s') := by
    change some (Except.ok (s.put text).1, (s.put text).2) = _
    rw [h]
  refine (run_bind_of_ok hput _).trans ?_
  cases fits <;> rfl

theorem run_writeAll (written : String) (texts : List String) :
    (writeAll texts).run (.holding written) =
      some (.ok (), .holding (written ++ String.join texts)) := by
  induction texts generalizing written with
  | nil => rw [String.join_nil, String.append_empty]; rfl
  | cons text texts ih =>
    rw [writeAll, run_bind_of_ok (run_write written text), ih, String.join_cons,
      String.append_assoc]

section Room

variable {room : Nat} {written text more : String}

theorem extract_of_le (h : text.utf8ByteSize ≤ room) :
    text.toUTF8.extract 0 room = text.toUTF8 := by
  have hbeyond : text.toUTF8.extract text.toUTF8.size room = ByteArray.empty :=
    ByteArray.extract_eq_empty_iff.mpr (Nat.min_le_right _ _)
  rw [ByteArray.extract_eq_extract_append_extract text.toUTF8.size (Nat.zero_le _) h, hbeyond,
    ByteArray.extract_zero_size, ByteArray.append_empty]

theorem extract_append_of_lt (h : room < text.utf8ByteSize) (more : String) :
    (text ++ more).toUTF8.extract 0 room = text.toUTF8.extract 0 room := by
  have hbytes : (text ++ more).toUTF8 = text.toUTF8 ++ more.toUTF8 := String.toByteArray_append
  have hnone : more.toUTF8.extract 0 (room - text.toUTF8.size) = ByteArray.empty := by
    apply ByteArray.extract_eq_empty_iff.mpr
    have hzero : room - text.toUTF8.size = 0 := Nat.sub_eq_zero_of_le (Nat.le_of_lt h)
    rw [hzero]
    exact Nat.min_le_left _ _
  rw [hbytes, ByteArray.extract_append, Nat.zero_sub, hnone, ByteArray.append_empty]

theorem extract_append_of_le (h : text.utf8ByteSize ≤ room) (more : String) :
    (text ++ more).toUTF8.extract 0 room =
      text.toUTF8 ++ more.toUTF8.extract 0 (room - text.utf8ByteSize) := by
  have hbytes : (text ++ more).toUTF8 = text.toUTF8 ++ more.toUTF8 := String.toByteArray_append
  rw [hbytes, ByteArray.extract_append, Nat.zero_sub, extract_of_le h]
  rfl

/-- What work comes to with room for so many bytes, if without a limit it comes to `r` and
writes the text behind what was written before. -/
def cut (room : Nat) (written text : String) (r : Except Failure α) :
    Except Failure α × Sink :=
  if text.utf8ByteSize ≤ room then
    (r, ⟨some (room - text.utf8ByteSize), (written ++ text).toUTF8⟩)
  else (.error .full, ⟨some 0, written.toUTF8 ++ text.toUTF8.extract 0 room⟩)

variable {r : Except Failure α}

theorem cut_of_le (h : text.utf8ByteSize ≤ room) :
    cut room written text r =
      (r, ⟨some (room - text.utf8ByteSize), (written ++ text).toUTF8⟩) := if_pos h

theorem cut_of_lt (h : room < text.utf8ByteSize) :
    cut room written text r =
      (.error .full, ⟨some 0, written.toUTF8 ++ text.toUTF8.extract 0 room⟩) :=
  if_neg (Nat.not_le.mpr h)

/-- Where a text fits, what comes behind it is cut as if there were so much less room. -/
theorem cut_append_of_le (h : text.utf8ByteSize ≤ room) :
    cut room written (text ++ more) r =
      cut (room - text.utf8ByteSize) (written ++ text) more r := by
  have hsize : (text ++ more).utf8ByteSize = text.utf8ByteSize + more.utf8ByteSize :=
    String.utf8ByteSize_append
  rcases Nat.lt_or_ge (room - text.utf8ByteSize) more.utf8ByteSize with hmore | hmore
  · have hall : room < (text ++ more).utf8ByteSize := by omega
    have hbytes : (written ++ text).toUTF8 = written.toUTF8 ++ text.toUTF8 :=
      String.toByteArray_append
    rw [cut_of_lt hall, cut_of_lt hmore, extract_append_of_le h, hbytes, ByteArray.append_assoc]
  · have hall : (text ++ more).utf8ByteSize ≤ room := by omega
    rw [cut_of_le hall, cut_of_le hmore, String.append_assoc, hsize, Nat.sub_add_eq]

/-- Where a text does not fit, nothing that comes behind it matters. -/
theorem cut_append_of_lt (h : room < text.utf8ByteSize) (e : Except Failure β) :
    cut room written (text ++ more) r = (.error .full, (cut room written text e).2) := by
  have hall : room < (text ++ more).utf8ByteSize := by
    rw [String.utf8ByteSize_append]
    exact Nat.lt_add_right _ h
  rw [cut_of_lt hall, cut_of_lt h, extract_append_of_lt h]

/-- If the work comes to an end without a limit, it has written a text, and a limit cuts it. -/
def Metered (o : Output α) : Prop :=
  ∀ written r s', o.run (.holding written) = some (r, s') →
    ∃ text, s' = .holding (written ++ text) ∧
      ∀ room, o.run ⟨some room, written.toUTF8⟩ = some (cut room written text r)

/-- Work that writes nothing. -/
theorem metered_of_silent {o : Output α}
    (h : ∀ s r s', o.run s = some (r, s') → s' = s ∧ ∀ s, o.run s = some (r, s)) :
    o.Metered := by
  intro written r s' hrun
  obtain ⟨rfl, hsilent⟩ := h _ _ _ hrun
  refine ⟨"", by rw [String.append_empty], fun room => ?_⟩
  rw [hsilent, cut_of_le (Nat.zero_le room), String.append_empty]
  rfl

theorem metered_pure (a : α) : (pure a : Output α).Metered :=
  metered_of_silent fun _ _ _ h => by
    cases h
    exact ⟨rfl, fun _ => rfl⟩

theorem metered_throw (e : Failure) : (throw e : Output α).Metered :=
  metered_of_silent fun _ _ _ h => by
    cases h
    exact ⟨rfl, fun _ => rfl⟩

theorem metered_ofOption (a? : Option α) : (ofOption a?).Metered := by
  cases a? with
  | none =>
    intro written r s' h
    cases h
  | some a => exact metered_pure a

theorem metered_write (text : String) : (write text).Metered := by
  intro written r s' h
  cases h
  refine ⟨text, rfl, fun room => ?_⟩
  rcases Nat.lt_or_ge room text.utf8ByteSize with hlt | hle
  · have hput : Sink.put ⟨some room, written.toUTF8⟩ text =
        (false, ⟨some 0, written.toUTF8 ++ text.toUTF8.extract 0 room⟩) :=
      if_neg (Nat.not_le.mpr hlt)
    rw [run_write_of_put hput, cut_of_lt hlt]
    rfl
  · have hput : Sink.put ⟨some room, written.toUTF8⟩ text =
        (true, ⟨some (room - text.utf8ByteSize), (written ++ text).toUTF8⟩) := if_pos hle
    rw [run_write_of_put hput, cut_of_le hle]
    rfl

theorem metered_bind {o : Output α} {next : α → Output β} (ho : o.Metered)
    (hnext : ∀ a, (next a).Metered) : (o >>= next).Metered := by
  intro written r s' h
  obtain ⟨e, he, rfl⟩ | ⟨a, mid, ha, hrest⟩ := run_bind_cases h
  · obtain ⟨text, rfl, hcut⟩ := ho written _ _ he
    refine ⟨text, rfl, fun room => ?_⟩
    rcases Nat.lt_or_ge room text.utf8ByteSize with hlt | hle
    · have hfull := hcut room
      rw [cut_of_lt hlt] at hfull
      rw [run_bind_of_error hfull, cut_of_lt hlt]
    · have hfits := hcut room
      rw [cut_of_le hle] at hfits
      rw [run_bind_of_error hfits, cut_of_le hle]
  · obtain ⟨text, rfl, hcut⟩ := ho written _ _ ha
    obtain ⟨more, rfl, hcut'⟩ := hnext a _ _ _ hrest
    refine ⟨text ++ more, by rw [String.append_assoc], fun room => ?_⟩
    have hfirst := hcut room
    rcases Nat.lt_or_ge room text.utf8ByteSize with hlt | hle
    · rw [cut_of_lt hlt] at hfirst
      rw [run_bind_of_error hfirst, cut_append_of_lt hlt r, cut_of_lt hlt]
    · rw [cut_of_le hle] at hfirst
      rw [run_bind_of_ok hfirst, hcut', cut_append_of_le hle]

theorem metered_writeAll (texts : List String) : (writeAll texts).Metered := by
  induction texts with
  | nil => exact metered_pure ()
  | cons text texts ih => exact metered_bind (metered_write text) fun _ => ih

end Room

end Output

end Monkey
