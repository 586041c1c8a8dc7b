import Monkey.Proofs.Transcript

/-!
Conversations and scripts on a sink that fills up. A limit changes nothing if all that is
written fits. Otherwise exactly the bytes that fit are written, and the outcome is that
there was no room: whatever would have gone wrong later, a line that is not text or the
report of a script that is not a program, does not come up any more.
-/

namespace Monkey

open Output

namespace Session

variable {depth depth' : Nat} {line : String} {r : List String × Session}

theorem respond_mono {s : Session} (h : s.respond depth line = some r) (hle : depth ≤ depth') :
    s.respond depth' line = some r := by
  unfold respond at h ⊢
  split
  · rename_i hblank
    rwa [if_pos hblank] at h
  · rename_i hblank
    rw [if_neg hblank] at h
    simp only at h ⊢
    split
    · rename_i herrors
      rw [if_pos herrors] at h
      cases heval : s.eval depth (parse line).1 with
      | none =>
        rw [heval] at h
        cases h
      | some end' =>
        rw [heval] at h
        rwa [eval_mono heval hle]
    · rename_i herrors
      rwa [if_neg herrors] at h

theorem converse_extends (hle : depth ≤ depth') (s : Session) (inputs : List (Option String)) :
    (s.converse depth' inputs).Extends (s.converse depth inputs) := by
  induction inputs generalizing s with
  | nil => exact extends_refl _
  | cons input inputs ih =>
    cases input with
    | none => exact extends_refl _
    | some line =>
      apply extends_bind (extends_refl _)
      intro _
      apply extends_bind (extends_ofOption fun r hr => respond_mono hr hle)
      rintro ⟨answer, s'⟩
      exact extends_bind (extends_refl _) fun _ => ih s'

theorem converse_metered (depth : Nat) (s : Session) (inputs : List (Option String)) :
    (s.converse depth inputs).Metered := by
  induction inputs generalizing s with
  | nil => exact metered_bind (metered_write _) fun _ => metered_write _
  | cons input inputs ih =>
    cases input with
    | none => exact metered_bind (metered_write _) fun _ => metered_throw _
    | some line =>
      apply metered_bind (metered_write _)
      intro _
      apply metered_bind (metered_ofOption _)
      rintro ⟨answer, s'⟩
      exact metered_bind (metered_writeAll _) fun _ => ih s'

end Session

variable {depth depth' : Nat} {source : String}

theorem runScript_extends (hle : depth ≤ depth') (source : String) :
    (runScript depth' source).Extends (runScript depth source) := by
  unfold runScript
  simp only
  split
  · apply extends_bind (extends_ofOption fun r hr => Session.eval_mono hr hle)
    intro _
    exact extends_refl _
  · exact extends_refl _

theorem runScript_metered (depth : Nat) (source : String) : (runScript depth source).Metered := by
  unfold runScript
  simp only
  split
  · apply metered_bind (metered_ofOption _)
    intro r
    exact metered_bind (metered_write _) fun _ => metered_pure _
  · exact metered_bind (metered_writeAll _) fun _ => metered_throw _

/-- A text that is not a program is reported on, and all of its errors are the outcome. -/
theorem runScript_of_errors (depth : Nat) (herrors : (parse source).2 ≠ []) :
    (runScript depth source).run .unlimited =
      some (.error (.rejected (parse source).2),
        .holding (String.join (report (parse source).2))) := by
  have hsome : (parse source).2.isEmpty = false := List.isEmpty_eq_false_iff.mpr herrors
  unfold runScript
  simp only [hsome]
  have hreport := run_writeAll "" (report (parse source).2)
  rw [String.empty_append] at hreport
  exact run_bind_of_ok hreport _

/-- A program comes to its value, of which the text is written. -/
theorem runScript_eq_some_iff (depth : Nat) (herrors : (parse source).2 = [])
    (r : Except Failure Value × Sink) :
    (runScript depth source).run .unlimited = some r ↔
      ∃ v s, Session.fresh.eval depth (parse source).1 = some (v, s) ∧
        r = (.ok v, .holding (v.inspect ++ "\n")) := by
  unfold runScript
  simp only [herrors, List.isEmpty_nil, if_true]
  cases heval : Session.fresh.eval depth (parse source).1 with
  | none =>
    constructor
    · intro h
      cases h
    · rintro ⟨v, s, h, -⟩
      cases h
  | some end' =>
    obtain ⟨v, s⟩ := end'
    have hwrite : (write (v.inspect ++ "\n")).run .unlimited =
        some (.ok (), .holding (v.inspect ++ "\n")) := by
      rw [Sink.unlimited_eq, run_write, String.empty_append]
    rw [run_bind_of_ok (run_ofOption _ _), run_bind_of_ok hwrite]
    constructor
    · intro h
      cases h
      exact ⟨v, s, rfl, rfl⟩
    · rintro ⟨_, _, h, rfl⟩
      cases h
      rfl

/-- Without a limit the work comes to `r` and writes these bytes. With room for so many
bytes it does the same if there are no more of them; otherwise it fails for want of room, and
those that fit have been written. -/
structure Output.ComesTo {α : Type} (o : Output α) (r : Except Failure α)
    (bytes : ByteArray) : Prop where
  unlimited : o.run .unlimited = some (r, ⟨none, bytes⟩)
  of_le : ∀ room, bytes.size ≤ room →
    o.run (.limited room) = some (r, ⟨some (room - bytes.size), bytes⟩)
  of_lt : ∀ room, room < bytes.size →
    o.run (.limited room) = some (.error .full, ⟨some 0, bytes.extract 0 room⟩)

theorem Output.Metered.comesTo {α : Type} {o : Output α} (ho : o.Metered)
    {r : Except Failure α} {s : Sink} (h : o.run .unlimited = some (r, s)) :
    o.ComesTo r s.taken := by
  obtain ⟨text, rfl, hcut⟩ := ho "" r s h
  rw [String.empty_append] at h ⊢
  refine ⟨h, fun room hle => ?_, fun room hlt => ?_⟩
  · have hfits := hcut room
    rw [cut_of_le hle, String.empty_append] at hfits
    exact hfits
  · have hfull := hcut room
    have hempty : "".toUTF8 ++ text.toUTF8.extract 0 room = text.toUTF8.extract 0 room :=
      ByteArray.empty_append
    rw [cut_of_lt hlt, hempty] at hfull
    exact hfull

/-- What has an outcome without a limit has the same one at every greater depth, and also on a
sink that has room for all bytes that were written. If there is less room, the sink has taken
as many of the bytes as it can and the outcome is that there was no room. Without a limit, a
script comes to its errors or, if it is a program, to the value whose text it has written. -/
theorem limit_cuts_output :
    (∀ input depth r s, (repl depth input).run .unlimited = some (r, s) →
      ∀ depth' ≥ depth, (repl depth' input).ComesTo r s.taken) ∧
    (∀ source depth r s, (runScript depth source).run .unlimited = some (r, s) →
      ∀ depth' ≥ depth, (runScript depth' source).ComesTo r s.taken) ∧
    (∀ source depth, (parse source).2 ≠ [] →
      (runScript depth source).run .unlimited = some (.error (.rejected (parse source).2),
        .holding (String.join (report (parse source).2)))) ∧
    ∀ source depth r, (parse source).2 = [] →
      ((runScript depth source).run .unlimited = some r ↔
        ∃ v s, Session.fresh.eval depth (parse source).1 = some (v, s) ∧
          r = (.ok v, .holding (v.inspect ++ "\n"))) := by
  refine ⟨?_, ?_, fun _ depth => runScript_of_errors depth,
    fun _ depth r herrors => runScript_eq_some_iff depth herrors r⟩
  · intro input depth r s h depth' hle
    have hdeeper := Session.converse_extends hle _ _ _ _ h
    exact (Session.converse_metered depth' _ _).comesTo hdeeper
  · intro source depth r s h depth' hle
    have hdeeper := runScript_extends hle _ _ _ h
    exact (runScript_metered depth' source).comesTo hdeeper

/-- A conversation over one byte that is no text, where its prompt fits and where it does
not, and the script `;`. -/
theorem limit_cuts_output_semicolon :
    (repl 0 ⟨#[0xff]⟩).run (.limited 3) = some (.error .notUtf8, ⟨some 0, ">> ".toUTF8⟩) ∧
      (repl 0 ⟨#[0xff]⟩).run (.limited 2) = some (.error .full, ⟨some 0, ">>".toUTF8⟩) ∧
      (runScript 0 ";").run (.limited 10) =
        some (.error .full, ⟨some 0, "parser err".toUTF8⟩) := by
  have hinput : Text.inputLines ⟨#[0xff]⟩ = [none] := by decide
  have hrun : (repl 0 ⟨#[0xff]⟩).run .unlimited = some (.error .notUtf8, .holding ">> ") := by
    rw [repl, hinput]
    rfl
  have hscript : parse ";" = ([], [.noExpression (.symbol .semicolon)]) := by
    have htext : ";".toList = Symbol.semicolon.text.toList ++ [] := by decide
    have hstatement := Statement.read_of_not_starts [] (t := .symbol .semicolon) rfl
    rw [parse_eq, htext, tokens_symbol _ (by simp), tokens_nil, Program.read, hstatement,
      Program.read]
    rfl
  have herrors : (parse ";").2 ≠ [] := by
    rw [hscript]
    exact List.cons_ne_nil _ _
  have hreport := limit_cuts_output.2.2.1 ";" 0 herrors
  have hcomes := limit_cuts_output.1 _ _ _ _ hrun 0 (Nat.le_refl 0)
  have hcomes' := limit_cuts_output.2.1 _ _ _ _ hreport 0 (Nat.le_refl 0)
  rw [hscript] at hcomes'
  exact ⟨hcomes.of_le 3 (by decide), hcomes.of_lt 2 (by decide), hcomes'.of_lt 10 (by decide)⟩

end Monkey
