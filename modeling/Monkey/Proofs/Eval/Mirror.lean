import Monkey.Proofs.Eval.MirrorOver

/-!
Two evaluations side by side. If one store mirrors another one along a renaming,
then the same node is evaluated in both in the same way: either both evaluations
come to an end at a given depth or neither does, the value of the one is the
renamed value of the other, and the stores still mirror each other.

What it takes for stores to mirror each other is left open. `Mirror` says what is
asked of such a relation: identities and scopes that come to be at the same time
correspond, and so do what names mean and what they get bound to.
-/

open Monkey.Action

namespace Monkey

structure Mirror (ρ : Renaming) (R : Store → Store → Prop) : Prop where
  clock_eq {st st' : Store} : R st st' → st'.clock = ρ.object st.clock
  size_eq {st st' : Store} : R st st' → st'.scopes.size = ρ.scope st.scopes.size
  lookup_eq {st st' : Store} : R st st' → ∀ scope name,
    st'.lookup (ρ.scope scope) name = (st.lookup scope name).map (Value.rename ρ)
  tick {st st' : Store} : R st st' → R st.tick st'.tick
  fail {st st' : Store} : R st st' → ∀ message, R (st.fail message) (st'.fail message)
  bind {st st' : Store} : R st st' → ∀ scope name v,
    R (st.bind scope name v) (st'.bind (ρ.scope scope) name (v.rename ρ))
  openScope {st st' : Store} : R st st' → ∀ outer,
    R (st.openScope (some outer)).2 (st'.openScope (some (ρ.scope outer))).2

/-- Stores that mirror each other do so over all names. -/
theorem Mirror.over {ρ : Renaming} {R : Store → Store → Prop} (hR : Mirror ρ R) :
    MirrorOver (fun _ => True) ρ R where
  clock_eq := hR.clock_eq
  size_eq := hR.size_eq
  lookup_eq hst scope name _ := hR.lookup_eq hst scope name
  lookup_over _ _ _ _ _ _ _ _ := trivial
  tick := hR.tick
  fail := hR.fail
  bind hst scope name v _ _ := hR.bind hst scope name v
  openScope := hR.openScope

namespace Action

/-- From stores that mirror each other, two actions come to outcomes that do, if
they come to any. -/
def Mirrored (ρ : Renaming) (R : Store → Store → Prop) (a b : Action) : Prop :=
  ∀ st st', R st st' →
    Option.Rel (fun r r' => r'.1 = r.1.rename ρ ∧ R r.2 r'.2) (a st) (b st')

variable {ρ : Renaming} {R : Store → Store → Prop}

theorem Mirrored.exists_of_some {a b : Action} {st st' mid : Store} {v : Value}
    (hab : Mirrored ρ R a b) (hst : R st st') (h : a st = some (v, mid)) :
    ∃ mid', b st' = some (v.rename ρ, mid') ∧ R mid mid' := by
  have hrel := hab st st' hst
  rw [h] at hrel
  cases hb : b st' with
  | none =>
    rw [hb] at hrel
    cases hrel
  | some r =>
    obtain ⟨w, mid'⟩ := r
    rw [hb] at hrel
    cases hrel with
    | some hr =>
      obtain ⟨rfl, hmid⟩ := hr
      exact ⟨mid', rfl, hmid⟩

theorem MirroredOver.mirrored {N : String → Prop} {a b : Action}
    (hab : MirroredOver N ρ R a b) : Mirrored ρ R a b := by
  intro st st' hst
  obtain ⟨ha, hb⟩ | ⟨v, mid, mid', ha, hb, -, hmid⟩ := hab.cases hst
  · rw [ha, hb]
    exact .none
  · rw [ha, hb]
    exact .some ⟨rfl, hmid⟩

theorem mirrored_unwrapped {a b : Action} (hab : Mirrored ρ R a b) :
    Mirrored ρ R a.unwrapped b.unwrapped := by
  intro st st' hst
  have hrel := hab st st' hst
  unfold unwrapped
  cases ha : a st <;> cases hb : b st' <;> rw [ha, hb] at hrel
  · exact .none
  · cases hrel
  · cases hrel
  · cases hrel with
    | some hr => exact .some ⟨by rw [hr.1, Value.unwrap_rename], hr.2⟩

end Action

/-- Evaluators of the parts of nodes that do the same, the one in a scope and the
other one in the scope that corresponds to it. -/
abbrev RunsMirrored (ρ : Renaming) (R : Store → Store → Prop)
    (run run' : Node → ScopeId → Action) : Prop :=
  ∀ node scope, Mirrored ρ R (run node scope) (run' node (ρ.scope scope))

section Run

variable {ρ : Renaming} {R : Store → Store → Prop} (hR : Mirror ρ R)
include hR

/-- At every depth, a node is evaluated alike in stores that mirror each other. -/
theorem eval_mirrored (depth : Nat) : RunsMirrored ρ R (eval depth) (eval depth) :=
  fun node scope => (eval_mirroredOver hR.over depth node (fun _ _ => trivial) scope).mirrored

theorem call_mirrored (depth : Nat) (callee : Value) (args : List Value) :
    Mirrored ρ R (call depth callee args)
      (call depth (callee.rename ρ) (args.map (Value.rename ρ))) :=
  (call_mirroredOver hR.over depth (fun _ _ => trivial) fun _ _ _ _ => trivial).mirrored

end Run

/-- A way to make one scope of another, for stores that mirror each other scope by
scope: each scope of the one, in its new place and made so, is a scope of the other. -/
structure Renaming.Carries (ρ : Renaming) (f : Scope → Scope) : Prop where
  scope_lt : ∀ i j, ρ.scope i < ρ.scope j ↔ i < j
  get?_eq : ∀ sc name, (f sc).get? name = (sc.get? name).map (Value.rename ρ)
  bind_eq : ∀ sc name v, f (sc.bind name v) = (f sc).bind name (v.rename ρ)
  outer_eq : ∀ sc outer, sc.outer = some outer → (f sc).outer = some (ρ.scope outer)
  opened_eq : ∀ outer, f ⟨some outer, []⟩ = ⟨some (ρ.scope outer), []⟩

namespace Renaming.Carries

variable {ρ : Renaming} {f : Scope → Scope} {st st' : Store}

/-- Around a scope that has nothing around it, there may be scopes in the other store
if nothing is to be found in them. -/
theorem lookup_eq (hf : ρ.Carries f)
    (hscopes : ∀ i, st'.scopes[ρ.scope i]? = st.scopes[i]?.map f) {name : String}
    (hnone : ∀ sc root, sc.outer = none → (f sc).outer = some root →
      st'.lookup root name = none) (scope : ScopeId) :
    st'.lookup (ρ.scope scope) name = (st.lookup scope name).map (Value.rename ρ) := by
  induction scope using Nat.strongRecOn with
  | ind scope ih =>
    rw [Store.lookup, Store.lookup, hscopes]
    cases st.scopes[scope]? with
    | none => rfl
    | some sc =>
      simp only [Option.map_some, hf.get?_eq]
      cases sc.get? name with
      | some v => rfl
      | none =>
        cases houter : sc.outer with
        | none =>
          cases hroot : (f sc).outer with
          | none => rfl
          | some root => simp [hnone sc root houter hroot]
        | some outer =>
          simp only [hf.outer_eq sc outer houter, Option.map_none, hf.scope_lt]
          split
          · rename_i hout
            exact ih outer hout
          · rfl

theorem scopes_bind (hf : ρ.Carries f)
    (hscopes : ∀ i, st'.scopes[ρ.scope i]? = st.scopes[i]?.map f) (scope : ScopeId)
    (name : String) (v : Value) (i : ScopeId) :
    (st'.bind (ρ.scope scope) name (v.rename ρ)).scopes[ρ.scope i]? =
      (st.bind scope name v).scopes[i]?.map f := by
  simp only [Store.scopes_bind, hscopes, ρ.scope_injective.eq_iff]
  split
  · cases st.scopes[i]? with
    | none => rfl
    | some sc => simp only [Option.map_some, hf.bind_eq]
  · rfl

theorem scopes_openScope (hf : ρ.Carries f)
    (hscopes : ∀ i, st'.scopes[ρ.scope i]? = st.scopes[i]?.map f)
    (hsize : st'.scopes.size = ρ.scope st.scopes.size) (outer i : ScopeId) :
    (st'.openScope (some (ρ.scope outer))).2.scopes[ρ.scope i]? =
      (st.openScope (some outer)).2.scopes[i]?.map f := by
  simp only [Store.openScope, Array.getElem?_push, hsize, ρ.scope_injective.eq_iff, hscopes]
  split
  · rw [Option.map_some, hf.opened_eq]
  · rfl

end Renaming.Carries

end Monkey
