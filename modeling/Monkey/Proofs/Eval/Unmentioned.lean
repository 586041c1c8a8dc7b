import Monkey.Proofs.Eval.Action
import Monkey.Proofs.Eval.MirrorOver
import Monkey.Session

/-!
A name that a program does not mention has no part in what it does. Neither the node that
is evaluated nor any function that it may come upon has the name in it, so nothing looks it
up, binds it or hides it, and whatever it is bound to, the same things happen.

Two stores that are the same but for one binding mirror each other over all names but that
one, with everything keeping its identity.
-/

namespace Monkey

namespace Store

/-- The second store is like the first one, but for what one scope binds one name to. -/
structure SameBut (scope : ScopeId) (name : String) (st st' : Store) : Prop where
  clock_eq : st'.clock = st.clock
  faults_eq : st'.faults = st.faults
  size_eq : st'.scopes.size = st.scopes.size
  around_eq : ∀ i, st'.around? i = st.around? i
  own_eq : ∀ i x, ¬(i = scope ∧ x = name) → st'.own? i x = st.own? i x

variable {target : ScopeId} {z : String} {st st' : Store}

theorem sameBut_bind (st : Store) (target : ScopeId) (z : String) (w : Value) :
    st.SameBut target z (st.bind target z w) where
  clock_eq := rfl
  faults_eq := rfl
  size_eq := size_bind st target z w
  around_eq i := around?_bind target i z w
  own_eq i x hother := by
    rw [own?_bind, if_neg]
    rintro ⟨rfl, rfl, -⟩
    exact hother ⟨rfl, rfl⟩

namespace SameBut

/-- Another name means the same in both stores, wherever it is looked up. -/
theorem lookup_eq (h : st.SameBut target z st') {name : String} (hname : name ≠ z)
    (scope : ScopeId) : st'.lookup scope name = st.lookup scope name :=
  lookup_congr_own (fun i _ => h.own_eq i name fun hz => hname hz.2) fun i _ => h.around_eq i

theorem tick (h : st.SameBut target z st') : st.tick.SameBut target z st'.tick where
  clock_eq := congrArg (· + 1) h.clock_eq
  faults_eq := h.faults_eq
  size_eq := h.size_eq
  around_eq := h.around_eq
  own_eq := h.own_eq

theorem fail (h : st.SameBut target z st') (message : String) :
    (st.fail message).SameBut target z (st'.fail message) where
  clock_eq := h.clock_eq
  faults_eq := by rw [Store.fail, Store.fail, h.clock_eq, h.faults_eq]
  size_eq := h.size_eq
  around_eq := h.around_eq
  own_eq := h.own_eq

theorem bind (h : st.SameBut target z st') (scope : ScopeId) (name : String) (v : Value) :
    (st.bind scope name v).SameBut target z (st'.bind scope name v) where
  clock_eq := h.clock_eq
  faults_eq := h.faults_eq
  size_eq := by rw [size_bind, size_bind, h.size_eq]
  around_eq i := by rw [around?_bind, around?_bind, h.around_eq]
  own_eq i x hother := by rw [own?_bind, own?_bind, h.size_eq, h.own_eq i x hother]

theorem openScope (h : st.SameBut target z st') (outer : Option ScopeId) :
    (st.openScope outer).2.SameBut target z (st'.openScope outer).2 where
  clock_eq := h.clock_eq
  faults_eq := h.faults_eq
  size_eq := by simp [Store.openScope, h.size_eq]
  around_eq i := by rw [around?_openScope, around?_openScope, h.size_eq, h.around_eq]
  own_eq i x hother := by rw [own?_openScope, own?_openScope, h.own_eq i x hother]

end SameBut

/-- The name occurs in no function that another name is bound to. What it is bound to itself
is left open. -/
def Avoids (z : String) (st : Store) : Prop :=
  ∀ i x v, st.own? i x = some v → x ≠ z → z ∉ v.names

namespace Avoids

theorem of_lookup (hst : st.Avoids z) {scope : ScopeId} {name : String} {v : Value}
    (hname : name ≠ z) (h : st.lookup scope name = some v) : z ∉ v.names := by
  induction scope using Nat.strongRecOn with
  | ind scope ih =>
    rw [lookup_eq_own?_or, Option.or_eq_some_iff] at h
    obtain hown | ⟨-, h⟩ := h
    · exact hst scope name v hown hname
    · obtain ⟨outer, -, h⟩ := Option.bind_eq_some_iff.mp h
      split at h
      · rename_i houter
        exact ih outer houter h
      · cases h

theorem bind (hst : st.Avoids z) (scope : ScopeId) (name : String) {v : Value}
    (hv : z ∉ v.names) : (st.bind scope name v).Avoids z := by
  intro i x u hown hx
  rw [own?_bind] at hown
  split at hown
  · cases hown
    exact hv
  · exact hst i x u hown hx

theorem openScope (hst : st.Avoids z) (outer : Option ScopeId) :
    (st.openScope outer).2.Avoids z := by
  intro i x v hown
  rw [own?_openScope] at hown
  exact hst i x v hown

end Avoids

end Store

theorem Value.over_ne_iff {z : String} {v : Value} : v.Over (· ≠ z) ↔ z ∉ v.names :=
  ⟨fun h hz => h z hz rfl, fun h _ hx hz => h (hz ▸ hx)⟩

theorem mirrorOver_sameBut (target : ScopeId) (z : String) :
    MirrorOver (· ≠ z) .refl fun st st' => st.SameBut target z st' ∧ st.Avoids z where
  clock_eq h := h.1.clock_eq
  size_eq h := h.1.size_eq
  lookup_eq h scope name hname := by
    have hrefl : Value.rename .refl = id := funext Value.rename_refl
    rw [hrefl, Option.map_id]
    exact h.1.lookup_eq hname scope
  lookup_over h scope name v hname hv := Value.over_ne_iff.mpr (h.2.of_lookup hname hv)
  tick h := ⟨h.1.tick, h.2⟩
  fail h message := ⟨h.1.fail message, h.2⟩
  bind h scope name v _ hv := by
    rw [Value.rename_refl]
    exact ⟨h.1.bind scope name v, h.2.bind scope name (Value.over_ne_iff.mp hv)⟩
  openScope h outer := ⟨h.1.openScope (some outer), h.2.openScope (some outer)⟩

/-- A name that occurs neither in a node nor in the functions that other names are bound to
has no influence on the node. Whatever it gets bound to in whichever scope, the node comes to
an end with the binding at the depths at which it does without, the value is the same, and so
is the store afterwards, but for this one binding. -/
theorem unmentioned_name_ignored {z : String} {node : Node} (hnode : z ∉ node.names)
    {st : Store} (hst : st.Avoids z) (target : ScopeId) (w : Value) (scope : ScopeId)
    (depth : Nat) :
    (eval depth node scope st = none ∧ eval depth node scope (st.bind target z w) = none) ∨
    ∃ v after after', eval depth node scope st = some (v, after) ∧
      eval depth node scope (st.bind target z w) = some (v, after') ∧
      after.SameBut target z after' := by
  have hover : node.Over (· ≠ z) := fun x hx hz => hnode (hz ▸ hx)
  have hboth := eval_mirroredOver (mirrorOver_sameBut target z) depth node hover scope
  obtain hnone | ⟨v, after, after', hrun, hrun', -, hafter⟩ :=
    hboth.cases ⟨st.sameBut_bind target z w, hst⟩
  · exact .inl hnone
  · rw [Value.rename_refl] at hrun'
    exact .inr ⟨v, after, after', hrun, hrun', hafter.1⟩

/-- The call `f()`, where `f` is `fn() { x }` and `x` is 1, with and without a `z` around. -/
theorem unmentioned_name_ignored_call :
    let st := (Session.fresh.store.bind 0 "x" (.int 1)).bind 0 "f"
      (.function 0 [] [.expr (.ident "x")] 0)
    "z" ∉ (Node.expr (.call (.ident "f") [])).names ∧ st.Avoids "z" ∧
      ∃ after after', eval 4 (.expr (.call (.ident "f") [])) 0 st = some (.int 1, after) ∧
        eval 4 (.expr (.call (.ident "f") [])) 0 (st.bind 0 "z" (.str "z")) =
          some (.int 1, after') ∧
        after.SameBut 0 "z" after' := by
  intro st
  have hnode : "z" ∉ (Node.expr (.call (.ident "f") [])).names := by decide
  have hfresh : Session.fresh.store.Avoids "z" := by
    intro i x v hown
    rw [Session.fresh, Store.own?_openScope, Store.own?_of_size_le (Nat.zero_le i)] at hown
    cases hown
  have hst : st.Avoids "z" := (hfresh.bind 0 "x" (by decide)).bind 0 "f" (by decide)
  let entered := (st.tick.tick.tick.openScope (some 0)).2
  have hf : st.tick.tick.lookup 0 "f" = some (.function 0 [] [.expr (.ident "x")] 0) := by
    rw [Store.lookup_eq_own?_or]
    rfl
  have hx : entered.tick.tick.lookup 1 "x" = some (.int 1) := by
    have hroot : st.tick.tick.tick.lookup 0 "x" = some (.int 1) := by
      rw [Store.lookup_eq_own?_or]
      rfl
    rw [Store.lookup_tick, Store.lookup_tick]
    exact (Store.lookup_openScope_self Nat.one_pos "x").trans hroot
  have hcallee : eval 3 (.expr (.ident "f")) 0 st.tick =
      some (.function 0 [] [.expr (.ident "x")] 0, st.tick.tick) :=
    Action.resolve_of_lookup hf
  have hbody : eval 3 (.block [.expr (.ident "x")]) 1 entered =
      some (.int 1, entered.tick.tick) :=
    Action.andThen_of_some (Action.resolve_of_lookup hx) rfl
  have hvalue : eval 4 (.expr (.call (.ident "f") [])) 0 st = some (.int 1, entered.tick.tick) :=
    (Action.andThen_of_some hcallee rfl).trans (Action.unwrapped_of_some hbody)
  refine ⟨hnode, hst, ?_⟩
  obtain ⟨hnone, -⟩ | ⟨v, after, after', hrun, hrun', hafter⟩ :=
    unmentioned_name_ignored hnode hst 0 (.str "z") 0 4
  · rw [hnone] at hvalue
    cases hvalue
  · rw [hrun] at hvalue
    obtain ⟨rfl, -⟩ := Prod.mk.inj (Option.some.inj hvalue)
    exact ⟨after, after', hrun, hrun', hafter⟩

end Monkey
