import Monkey.Eval

/-!
More depth changes no outcome. `Extends` orders actions by what they settle:
an action that extends another one has every outcome that the other has. All
ways to put actions together respect this order, and so does `step`; what is
evaluated to some depth is therefore evaluated to every greater one, with the
same value and the same store.
-/

open Monkey.Action

namespace Monkey

namespace Action

/-- Has an outcome wherever the other action has one, and the same one. -/
def Extends (b a : Action) : Prop :=
  ∀ st r, a st = some r → b st = some r

theorem Extends.refl (a : Action) : a.Extends a := fun _ _ h => h

theorem Extends.trans {a b c : Action} (hcb : c.Extends b) (hba : b.Extends a) : c.Extends a :=
  fun st r h => hcb st r (hba st r h)

theorem extends_stuck (a : Action) : a.Extends stuck := by
  intro st r h
  cases h

theorem Extends.andThen {a b : Action} {f g : Value → Action} (hab : b.Extends a)
    (hfg : ∀ v, (g v).Extends (f v)) : (b.andThen g).Extends (a.andThen f) := by
  intro st r h
  unfold Action.andThen at h ⊢
  cases ha : a st with
  | none => simp [ha] at h
  | some p =>
    obtain ⟨v, st'⟩ := p
    rw [hab st _ ha]
    simp only [ha] at h ⊢
    split at h
    · rename_i habrupt
      rw [if_pos habrupt]
      exact h
    · rename_i habrupt
      rw [if_neg habrupt]
      exact hfg v st' r h

theorem Extends.unwrapped {a b : Action} (hab : b.Extends a) :
    b.unwrapped.Extends a.unwrapped := by
  intro st r h
  unfold Action.unwrapped at h ⊢
  cases ha : a st with
  | none => simp [ha] at h
  | some p =>
    rw [hab st _ ha]
    simpa [ha] using h

theorem Extends.inSequence {f g : Statement → Action} (hfg : ∀ s, (g s).Extends (f s))
    (last : Value) (ss : List Statement) :
    (inSequence g last ss).Extends (inSequence f last ss) := by
  induction ss generalizing last with
  | nil => exact Extends.refl _
  | cons s ss ih => exact Extends.andThen (hfg s) fun v => ih v

theorem Extends.gather {f g : Expr → Action} (hfg : ∀ e, (g e).Extends (f e))
    (es : List Expr) {j k : List Value → Action} (hjk : ∀ vs, (k vs).Extends (j vs)) :
    (gather g es k).Extends (gather f es j) := by
  induction es generalizing j k with
  | nil => exact hjk []
  | cons e es ih =>
    exact Extends.andThen (hfg e) fun v => ih fun vs => hjk (v :: vs)

theorem Extends.gatherPairs {f g : Expr → Action} (hfg : ∀ e, (g e).Extends (f e))
    (ps : List (Expr × Expr)) {j k : List (Key × Value) → Action}
    (hjk : ∀ es, (k es).Extends (j es)) :
    (gatherPairs g ps k).Extends (gatherPairs f ps j) := by
  induction ps generalizing j k with
  | nil => exact hjk []
  | cons p ps ih =>
    obtain ⟨key, e⟩ := p
    refine Extends.andThen (hfg key) fun v => ?_
    cases v.key? with
    | none => exact Extends.refl _
    | some key => exact Extends.andThen (hfg e) fun w => ih fun es => hjk ((key, w) :: es)

end Action

/-- One evaluator settles at least what another one does. -/
abbrev RunsExtend (run' run : Node → ScopeId → Action) : Prop :=
  ∀ node scope, (run' node scope).Extends (run node scope)

theorem apply_extends {run' run : Node → ScopeId → Action} (hrun : RunsExtend run' run)
    (callee : Value) (args : List Value) :
    (apply run' callee args).Extends (apply run callee args) := by
  cases callee with
  | function id params body scope =>
    by_cases harity : params.length = args.length
    · simp only [apply, if_pos harity]
      intro st r h
      exact Extends.unwrapped (hrun _ _) _ r h
    · simp only [apply, if_neg harity]
      exact Extends.refl _
  | _ => exact Extends.refl _

theorem step_extends {run' run : Node → ScopeId → Action} (hrun : RunsExtend run' run)
    (scope : ScopeId) (node : Node) :
    (step run' scope node).Extends (step run scope node) := by
  match node with
  | .program p => exact Extends.unwrapped (Extends.inSequence (fun _ => hrun _ _) _ _)
  | .block b => exact Extends.inSequence (fun _ => hrun _ _) _ _
  | .statement (.let _ e) => exact Extends.andThen (hrun _ _) fun _ => Extends.refl _
  | .statement (.return e) => exact Extends.andThen (hrun _ _) fun _ => Extends.refl _
  | .statement (.expr e) => exact hrun _ _
  | .expr (.ident _) | .expr (.int _) | .expr (.str _) | .expr (.bool _) => exact Extends.refl _
  | .expr (.unary _ a) => exact Extends.andThen (hrun _ _) fun _ => Extends.refl _
  | .expr (.binary _ a b) =>
    exact Extends.andThen (hrun _ _) fun _ => Extends.andThen (hrun _ _) fun _ => Extends.refl _
  | .expr (.cond c t e) =>
    refine Extends.andThen (hrun _ _) fun v => ?_
    cases v.isTruthy with
    | true => exact hrun _ _
    | false =>
      cases e with
      | none => exact Extends.refl _
      | some e => exact hrun _ _
  | .expr (.function _ _) => exact Extends.refl _
  | .expr (.call f args) =>
    exact Extends.andThen (hrun _ _) fun _ =>
      Extends.gather (fun _ => hrun _ _) _ fun _ => apply_extends hrun _ _
  | .expr (.vector es) => exact Extends.gather (fun _ => hrun _ _) _ fun _ => Extends.refl _
  | .expr (.dict ps) => exact Extends.gatherPairs (fun _ => hrun _ _) _ fun _ => Extends.refl _
  | .expr (.index a i) =>
    exact Extends.andThen (hrun _ _) fun _ => Extends.andThen (hrun _ _) fun _ => Extends.refl _

theorem eval_succ_extends (depth : Nat) : RunsExtend (eval (depth + 1)) (eval depth) := by
  induction depth with
  | zero => exact fun node scope => extends_stuck _
  | succ depth ih =>
    intro node scope st r h
    exact step_extends ih scope node _ r h

/-- What comes to an end at some depth does so at every greater depth, with the
same outcome. -/
theorem eval_extends {depth depth' : Nat} (h : depth ≤ depth') :
    RunsExtend (eval depth') (eval depth) := by
  induction h with
  | refl => exact fun _ _ => Extends.refl _
  | step _ ih => exact fun node scope => (eval_succ_extends _ node scope).trans (ih node scope)

end Monkey
