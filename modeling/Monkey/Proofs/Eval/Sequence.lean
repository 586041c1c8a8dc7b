import Monkey.Eval.Depth
import Monkey.Proofs.Eval.Action
import Monkey.Session

/-!
Statements one after the other. A list of statements may be evaluated in pieces: as
long as no piece ends early, the next one goes on from the store that it has come
to. Programs that are run in one session are such pieces of one program.
-/

open Monkey.Action

namespace Monkey

theorem inSequence_append {run : Statement → Action} {last v : Value} {ss : List Statement}
    {st mid : Store} (h : inSequence run last ss st = some (v, mid))
    (hproceeds : v.isAbrupt = false) (more : List Statement) :
    inSequence run last (ss ++ more) st = inSequence run v more mid := by
  induction ss generalizing last st with
  | nil =>
    cases h
    rfl
  | cons s ss ih =>
    obtain ⟨-, habrupt⟩ | ⟨w, st', hs, hw, hss⟩ := andThen_cases h
    · rw [hproceeds] at habrupt
      cases habrupt
    · exact (andThen_of_some hs hw).trans (ih hss)

/-- A value before the first statement is of no use. -/
theorem inSequence_of_ne_nil {run : Statement → Action} {ss : List Statement} (hne : ss ≠ [])
    (v w : Value) : inSequence run v ss = inSequence run w ss := by
  obtain ⟨s, ss, rfl⟩ := List.exists_cons_of_ne_nil hne
  rfl

theorem eval_program_append {depth : Nat} {b more : Block} {scope : ScopeId} {st mid : Store}
    {v : Value} (h : eval depth (.block b) scope st = some (v, mid))
    (hproceeds : v.isAbrupt = false) (hne : more ≠ []) :
    eval depth (.program (b ++ more)) scope st = eval depth (.program more) scope mid := by
  cases depth with
  | zero => cases h
  | succ depth =>
    have hb : inSequence (fun s => eval depth (.statement s) scope) .null b st =
      some (v, mid) := h
    change Action.unwrapped _ st = Action.unwrapped _ mid
    unfold Action.unwrapped
    rw [inSequence_append hb hproceeds, inSequence_of_ne_nil hne v .null]

/-- A program that does not end early is no more than its statements. -/
theorem eval_program_of_block {depth : Nat} {b : Block} {scope : ScopeId} {st mid : Store}
    {v : Value} (h : eval depth (.block b) scope st = some (v, mid))
    (hproceeds : v.isAbrupt = false) :
    eval depth (.program b) scope st = some (v, mid) := by
  cases depth with
  | zero => cases h
  | succ depth =>
    have hb : inSequence (fun s => eval depth (.statement s) scope) .null b st =
      some (v, mid) := h
    have hunwrap : v.unwrap = v := by
      cases v with
      | returned w => cases hproceeds
      | _ => rfl
    exact hunwrap ▸ unwrapped_of_some hb

namespace Session

/-- A program that comes to an end at some depth does so at every greater one. -/
theorem eval_mono {s : Session} {depth depth' : Nat} {p : Program} {r : Value × Session}
    (h : s.eval depth p = some r) (hle : depth ≤ depth') : s.eval depth' p = some r := by
  unfold Session.eval at h ⊢
  cases heval : Monkey.eval depth (.program p) s.root s.store with
  | none =>
    rw [heval] at h
    cases h
  | some end' =>
    rw [eval_extends hle _ _ _ _ heval]
    rwa [heval] at h

/-- Statement lists are evaluated in a session one after the other. Each comes to an
end at some depth, none of them early, and each has a value. -/
inductive Runs : Session → List Block → List Value → Session → Prop where
  | done (s : Session) : Runs s [] [] s
  | more {s s' : Session} {b : Block} {bs : List Block} {v : Value} {vs : List Value}
      {store : Store} {depth : Nat} :
      Monkey.eval depth (.block b) s.root s.store = some (v, store) → v.isAbrupt = false →
      Runs { s with store } bs vs s' → Runs s (b :: bs) (v :: vs) s'

/-- What comes after statement lists comes to the same in one program with them. -/
theorem Runs.eval_append {s s' : Session} {bs : List Block} {vs : List Value}
    (h : s.Runs bs vs s') {depth : Nat} {p : Program} {r : Value × Session} (hne : p ≠ [])
    (hp : s'.eval depth p = some r) :
    ∃ enough, ∀ depth ≥ enough, s.eval depth (bs.flatten ++ p) = some r := by
  induction h with
  | done s => exact ⟨depth, fun _ hle => eval_mono hp hle⟩
  | @more s s' b bs v vs store depth' hb hproceeds _ ih =>
    obtain ⟨enough, hmore⟩ := ih hp
    refine ⟨max depth' enough, fun depth hle => ?_⟩
    have hb' := eval_extends (Nat.le_trans (Nat.le_max_left _ _) hle) _ _ _ _ hb
    have hrest : bs.flatten ++ p ≠ [] := by simp [hne]
    rw [← hmore depth (Nat.le_trans (Nat.le_max_right _ _) hle), List.flatten_cons,
      List.append_assoc]
    unfold Session.eval
    rw [eval_program_append hb' hproceeds hrest]

end Session

end Monkey
