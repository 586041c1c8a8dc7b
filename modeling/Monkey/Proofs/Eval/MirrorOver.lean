import Monkey.Eval
import Monkey.Proofs.Names
import Monkey.Proofs.Renaming
import Monkey.Proofs.Store

/-!
Two evaluations side by side, as far as some names go. If one store mirrors another one
along a renaming in what these names mean, then every node over these names is evaluated in
both in the same way: either both evaluations come to an end at a given depth or neither
does, the value of the one is the renamed value of the other, and the stores still mirror
each other.

What other names mean in the two stores has no part in it, because a node looks up no other
names and, as everything that it comes upon is over these names too, neither does a function
that it calls.
-/

open Monkey.Action

namespace Monkey

/-- What it takes for stores to mirror each other over some names: identities and scopes that
come to be at the same time correspond, and so do what the names mean and what they get bound
to. What they mean is over these names itself. -/
structure MirrorOver (N : String → Prop) (ρ : Renaming) (R : Store → Store → Prop) : Prop where
  clock_eq {st st' : Store} : R st st' → st'.clock = ρ.object st.clock
  size_eq {st st' : Store} : R st st' → st'.scopes.size = ρ.scope st.scopes.size
  lookup_eq {st st' : Store} : R st st' → ∀ scope name, N name →
    st'.lookup (ρ.scope scope) name = (st.lookup scope name).map (Value.rename ρ)
  lookup_over {st st' : Store} : R st st' → ∀ scope name v, N name →
    st.lookup scope name = some v → v.Over N
  tick {st st' : Store} : R st st' → R st.tick st'.tick
  fail {st st' : Store} : R st st' → ∀ message, R (st.fail message) (st'.fail message)
  bind {st st' : Store} : R st st' → ∀ scope name v, N name → v.Over N →
    R (st.bind scope name v) (st'.bind (ρ.scope scope) name (v.rename ρ))
  openScope {st st' : Store} : R st st' → ∀ outer,
    R (st.openScope (some outer)).2 (st'.openScope (some (ρ.scope outer))).2

namespace Action

/-- From stores that mirror each other, two actions come to outcomes that do, if they come to
any. -/
def MirroredOver (N : String → Prop) (ρ : Renaming) (R : Store → Store → Prop)
    (a b : Action) : Prop :=
  ∀ st st', R st st' →
    Option.Rel (fun r r' => r'.1 = r.1.rename ρ ∧ r.1.Over N ∧ R r.2 r'.2) (a st) (b st')

variable {N : String → Prop} {ρ : Renaming} {R : Store → Store → Prop}

/-- Either neither action comes to an end, or both do. -/
theorem MirroredOver.cases {a b : Action} {st st' : Store} (hab : MirroredOver N ρ R a b)
    (hst : R st st') :
    (a st = none ∧ b st' = none) ∨ ∃ v mid mid', a st = some (v, mid) ∧
      b st' = some (v.rename ρ, mid') ∧ v.Over N ∧ R mid mid' := by
  have hrel := hab st st' hst
  cases ha : a st <;> cases hb : b st' <;> rw [ha, hb] at hrel
  · exact .inl ⟨rfl, rfl⟩
  · cases hrel
  · cases hrel
  · rename_i r r'
    obtain ⟨v, mid⟩ := r
    obtain ⟨w, mid'⟩ := r'
    cases hrel with
    | some hr =>
      obtain ⟨rfl, hv, hmid⟩ := hr
      exact .inr ⟨v, mid, mid', rfl, rfl, hv, hmid⟩

theorem mirroredOver_stuck : MirroredOver N ρ R stuck stuck := fun _ _ _ => .none

theorem mirroredOver_pure {v : Value} (hv : v.Over N) :
    MirroredOver N ρ R (pure v) (pure (v.rename ρ)) :=
  fun _ _ hst => .some ⟨rfl, hv, hst⟩

theorem mirroredOver_plain {v : Value} (hv : v.Plain) (hsame : v.rename ρ = v) :
    MirroredOver N ρ R (pure v) (pure v) := by
  have hpure := mirroredOver_pure (N := N) (ρ := ρ) (R := R) (Value.over_inherited.of_plain hv)
  rwa [hsame] at hpure

theorem mirroredOver_andThen {a b : Action} {next next' : Value → Action}
    (hab : MirroredOver N ρ R a b)
    (hnext : ∀ v, v.Over N → MirroredOver N ρ R (next v) (next' (v.rename ρ))) :
    MirroredOver N ρ R (a.andThen next) (b.andThen next') := by
  intro st st' hst
  unfold andThen
  obtain ⟨ha, hb⟩ | ⟨v, mid, mid', ha, hb, hv, hmid⟩ := hab.cases hst
  · rw [ha, hb]
    exact .none
  · rw [ha, hb]
    simp only [Value.isAbrupt_rename]
    split
    · exact .some ⟨rfl, hv, hmid⟩
    · exact hnext v hv mid mid' hmid

theorem mirroredOver_unwrapped {a b : Action} (hab : MirroredOver N ρ R a b) :
    MirroredOver N ρ R a.unwrapped b.unwrapped := by
  intro st st' hst
  unfold unwrapped
  obtain ⟨ha, hb⟩ | ⟨v, mid, mid', ha, hb, hv, hmid⟩ := hab.cases hst
  · rw [ha, hb]
    exact .none
  · rw [ha, hb]
    exact .some ⟨Value.unwrap_rename ρ v, hv.unwrap, hmid⟩

theorem mirroredOver_inSequence {run run' : Statement → Action} {ss : List Statement}
    (hrun : ∀ s ∈ ss, MirroredOver N ρ R (run s) (run' s)) {last : Value} (hlast : last.Over N) :
    MirroredOver N ρ R (inSequence run last ss) (inSequence run' (last.rename ρ) ss) := by
  induction ss generalizing last with
  | nil => exact mirroredOver_pure hlast
  | cons s ss ih =>
    obtain ⟨hs, hss⟩ := List.forall_mem_cons.mp hrun
    exact mirroredOver_andThen hs fun v hv => ih hss hv

theorem mirroredOver_gather {run run' : Expr → Action} {es : List Expr}
    (hrun : ∀ e ∈ es, MirroredOver N ρ R (run e) (run' e)) {next next' : List Value → Action}
    (hnext : ∀ vs, (∀ v ∈ vs, v.Over N) →
      MirroredOver N ρ R (next vs) (next' (vs.map (Value.rename ρ)))) :
    MirroredOver N ρ R (gather run es next) (gather run' es next') := by
  induction es generalizing next next' with
  | nil => exact hnext [] fun _ hv => absurd hv List.not_mem_nil
  | cons e es ih =>
    obtain ⟨he, hes⟩ := List.forall_mem_cons.mp hrun
    apply mirroredOver_andThen he
    intro v hv
    apply ih hes
    intro vs hvs
    exact hnext (v :: vs) (List.forall_mem_cons.mpr ⟨hv, hvs⟩)

section

variable (hR : MirrorOver N ρ R)
include hR

theorem mirroredOver_fail (e : RuntimeError) : MirroredOver N ρ R (fail e) (fail e) :=
  fun _ _ hst => .some ⟨rfl, fun _ hx => absurd hx List.not_mem_nil, hR.fail hst e.message⟩

theorem mirroredOver_ofExcept {r : Except RuntimeError Value}
    (hr : ∀ v, r = .ok v → v.Over N) :
    MirroredOver N ρ R (ofExcept r) (ofExcept (r.map (Value.rename ρ))) := by
  cases r with
  | ok v => exact mirroredOver_pure (hr v rfl)
  | error e => exact mirroredOver_fail hR e

theorem mirroredOver_create {make make' : Nat → Value} (hover : ∀ id, (make id).Over N)
    (hmake : ∀ id, make' (ρ.object id) = (make id).rename ρ) :
    MirroredOver N ρ R (create make) (create make') := by
  intro st st' hst
  refine .some ⟨?_, hover _, hR.tick hst⟩
  rw [hR.clock_eq hst, hmake]

theorem mirroredOver_bind (scope : ScopeId) {name : String} (hname : N name) {v : Value}
    (hv : v.Over N) :
    MirroredOver N ρ R (bind scope name v) (bind (ρ.scope scope) name (v.rename ρ)) :=
  fun _ _ hst => .some ⟨rfl, fun _ hx => absurd hx List.not_mem_nil,
    hR.bind (hR.tick hst) scope name v hname hv⟩

theorem mirroredOver_resolve (scope : ScopeId) {name : String} (hname : N name) :
    MirroredOver N ρ R (resolve scope name) (resolve (ρ.scope scope) name) := by
  intro st st' hst
  unfold resolve
  rw [hR.lookup_eq hst scope name hname]
  cases hlookup : st.lookup scope name with
  | some v => exact .some ⟨rfl, hR.lookup_over hst scope name v hname hlookup, hst⟩
  | none =>
    cases Builtin.ofName? name with
    | some b => exact .some ⟨rfl, fun _ hx => absurd hx List.not_mem_nil, hst⟩
    | none => exact mirroredOver_fail hR _ st st' hst

theorem mirroredOver_gatherPairs {run run' : Expr → Action} {ps : List (Expr × Expr)}
    (hrun : ∀ p ∈ ps, MirroredOver N ρ R (run p.1) (run' p.1) ∧
      MirroredOver N ρ R (run p.2) (run' p.2))
    {next next' : List (Key × Value) → Action}
    (hnext : ∀ es, (∀ e ∈ es, e.2.Over N) →
      MirroredOver N ρ R (next es) (next' (es.map (Prod.map id (Value.rename ρ))))) :
    MirroredOver N ρ R (gatherPairs run ps next) (gatherPairs run' ps next') := by
  induction ps generalizing next next' with
  | nil => exact hnext [] fun _ he => absurd he List.not_mem_nil
  | cons p ps ih =>
    obtain ⟨k, e⟩ := p
    obtain ⟨⟨hk, he⟩, hps⟩ := List.forall_mem_cons.mp hrun
    apply mirroredOver_andThen hk
    intro v _
    rw [Value.key?_rename, Value.type_rename]
    cases v.key? with
    | none => exact mirroredOver_fail hR _
    | some key =>
      apply mirroredOver_andThen he
      intro w hw
      apply ih hps
      intro es hes
      exact hnext ((key, w) :: es) (List.forall_mem_cons.mpr ⟨hw, hes⟩)

end

end Action

theorem MirrorOver.bindAll {N : String → Prop} {ρ : Renaming} {R : Store → Store → Prop}
    (hR : MirrorOver N ρ R) {st st' : Store} (hst : R st st') (scope : ScopeId)
    {bindings : List (String × Value)} (hbindings : ∀ b ∈ bindings, N b.1 ∧ b.2.Over N) :
    R (st.bindAll scope bindings)
      (st'.bindAll (ρ.scope scope) (bindings.map (Prod.map id (Value.rename ρ)))) := by
  induction bindings generalizing st st' with
  | nil => exact hst
  | cons b bindings ih =>
    obtain ⟨⟨hname, hv⟩, hbindings⟩ := List.forall_mem_cons.mp hbindings
    exact ih (hR.bind hst scope b.1 b.2 hname hv) hbindings

/-- Evaluators of the parts of nodes that do the same, the one in a scope and the
other one in the scope that corresponds to it. -/
abbrev RunsMirroredOver (N : String → Prop) (ρ : Renaming) (R : Store → Store → Prop)
    (run run' : Node → ScopeId → Action) : Prop :=
  ∀ node, node.Over N → ∀ scope, MirroredOver N ρ R (run node scope) (run' node (ρ.scope scope))

section Step

variable {N : String → Prop} {ρ : Renaming} {R : Store → Store → Prop}
  {run run' : Node → ScopeId → Action}
variable (hrun : RunsMirroredOver N ρ R run run')
include hrun

theorem inSequence_mirroredOver {ss : List Statement} (hss : ∀ x ∈ Block.names ss, N x)
    (scope : ScopeId) :
    MirroredOver N ρ R (inSequence (fun s => run (.statement s) scope) .null ss)
      (inSequence (fun s => run' (.statement s) (ρ.scope scope)) .null ss) := by
  have hnull : Value.null.Over N := Value.over_inherited.of_plain .null
  have hstatements : ∀ s ∈ ss, MirroredOver N ρ R (run (.statement s) scope)
      (run' (.statement s) (ρ.scope scope)) :=
    fun s hs => hrun (.statement s) (Block.forall_names.mp hss s hs) scope
  exact mirroredOver_inSequence hstatements hnull

variable (hR : MirrorOver N ρ R)
include hR

theorem enter_mirroredOver {bindings : List (String × Value)}
    (hbindings : ∀ b ∈ bindings, N b.1 ∧ b.2.Over N) {body : Block}
    (hbody : (Node.block body).Over N) (outer : ScopeId) :
    MirroredOver N ρ R (enter run bindings body outer)
      (enter run' (bindings.map (Prod.map id (Value.rename ρ))) body (ρ.scope outer)) := by
  intro st st' hst
  have hopened := hR.openScope (hR.tick hst) outer
  have hrest := mirroredOver_unwrapped (hrun (.block body) hbody st.scopes.size)
  rw [← hR.size_eq hst] at hrest
  have hbound := hR.bindAll hopened st.scopes.size hbindings
  rw [← hR.size_eq hst] at hbound
  exact hrest _ _ hbound

theorem apply_mirroredOver {callee : Value} (hcallee : callee.Over N) {args : List Value}
    (hargs : ∀ v ∈ args, v.Over N) :
    MirroredOver N ρ R (apply run callee args)
      (apply run' (callee.rename ρ) (args.map (Value.rename ρ))) := by
  cases callee with
  | function id params body scope =>
    obtain ⟨hparams, hbody⟩ := List.forall_mem_append.mp hcallee
    simp only [Value.rename, apply, List.length_map]
    split
    · rw [List.zip_map_right]
      apply enter_mirroredOver hrun hR _ hbody scope
      intro b hb
      obtain ⟨hparam, harg⟩ := List.of_mem_zip hb
      exact ⟨hparams b.1 hparam, hargs b.2 harg⟩
    · exact mirroredOver_fail hR _
  | builtin b =>
    intro st st' hst
    simp only [Value.rename, apply]
    rw [hR.clock_eq hst, Builtin.call_rename]
    have hcall : ∀ v, b.call st.clock args = .ok v → v.Over N :=
      fun v hv => Value.over_inherited.call hargs hv
    exact mirroredOver_ofExcept hR hcall _ _ (hR.tick hst)
  | _ => exact mirroredOver_fail hR _

theorem step_mirroredOver (scope : ScopeId) {node : Node} (hnode : node.Over N) :
    MirroredOver N ρ R (step run scope node) (step run' (ρ.scope scope) node) := by
  have hexpr : ∀ e : Expr, (∀ x ∈ e.names, N x) →
      MirroredOver N ρ R (run (.expr e) scope) (run' (.expr e) (ρ.scope scope)) :=
    fun e he => hrun (.expr e) he scope
  have hplain : ∀ {r : Except RuntimeError Value}, (∀ v, r = .ok v → v.Plain) →
      MirroredOver N ρ R (ofExcept r) (ofExcept (r.map (Value.rename ρ))) :=
    fun hr => mirroredOver_ofExcept hR fun v hv => Value.over_inherited.of_plain (hr v hv)
  match node with
  | .program p => exact mirroredOver_unwrapped (inSequence_mirroredOver hrun hnode scope)
  | .block b => exact inSequence_mirroredOver hrun hnode scope
  | .statement (.let name e) =>
    obtain ⟨hname, he⟩ := List.forall_mem_cons.mp hnode
    exact mirroredOver_andThen (hexpr e he) fun v hv => mirroredOver_bind hR scope hname hv
  | .statement (.return e) =>
    apply mirroredOver_andThen (hexpr e hnode)
    intro v hv
    exact mirroredOver_pure (v := .returned v) hv
  | .statement (.expr e) => exact hexpr e hnode
  | .expr (.ident name) =>
    exact mirroredOver_resolve hR scope (hnode name List.mem_cons_self)
  | .expr (.int n) => exact mirroredOver_plain (.int n) rfl
  | .expr (.str text) => exact mirroredOver_plain (.str text) rfl
  | .expr (.bool b) => exact mirroredOver_plain (.bool b) rfl
  | .expr (.unary op a) =>
    apply mirroredOver_andThen (hexpr a hnode)
    intro v _
    rw [UnaryOp.apply_rename]
    exact hplain fun r hr => UnaryOp.plain_of_apply hr
  | .expr (.binary op a b) =>
    obtain ⟨ha, hb⟩ := List.forall_mem_append.mp hnode
    apply mirroredOver_andThen (hexpr a ha)
    intro v _
    apply mirroredOver_andThen (hexpr b hb)
    intro w _
    rw [BinaryOp.apply_rename]
    exact hplain fun r hr => BinaryOp.plain_of_apply hr
  | .expr (.cond c t none) =>
    obtain ⟨hc, ht⟩ := List.forall_mem_append.mp hnode
    apply mirroredOver_andThen (hexpr c hc)
    intro v _
    rw [Value.isTruthy_rename]
    split
    · exact hrun (.block t) ht scope
    · exact mirroredOver_plain .null rfl
  | .expr (.cond c t (some e)) =>
    obtain ⟨hc, hblocks⟩ := List.forall_mem_append.mp hnode
    obtain ⟨ht, he⟩ := List.forall_mem_append.mp hblocks
    apply mirroredOver_andThen (hexpr c hc)
    intro v _
    rw [Value.isTruthy_rename]
    split
    · exact hrun (.block t) ht scope
    · exact hrun (.block e) he scope
  | .expr (.function params body) =>
    change MirroredOver N ρ R (create fun id => .function id params body scope)
      (create fun id => .function id params body (ρ.scope scope))
    exact mirroredOver_create hR (fun _ => hnode) fun _ => rfl
  | .expr (.call f args) =>
    obtain ⟨hf, hargs⟩ := List.forall_mem_append.mp hnode
    apply mirroredOver_andThen (hexpr f hf)
    intro callee hcallee
    apply mirroredOver_gather fun e he => hexpr e (Expr.forall_namesEach.mp hargs e he)
    intro vs hvs
    exact apply_mirroredOver hrun hR hcallee hvs
  | .expr (.vector es) =>
    apply mirroredOver_gather fun e he => hexpr e (Expr.forall_namesEach.mp hnode e he)
    intro vs hvs
    apply mirroredOver_create hR fun id => Value.over_inherited.vector id hvs
    intro id
    rw [Value.rename, Value.renameEach_eq_map]
  | .expr (.dict ps) =>
    apply mirroredOver_gatherPairs hR
    · intro p hp
      obtain ⟨hk, he⟩ := Expr.forall_namesPairs.mp hnode p hp
      exact ⟨hexpr p.1 hk, hexpr p.2 he⟩
    · intro entries hentries
      apply mirroredOver_create hR fun id => Value.over_dict id hentries
      intro id
      rw [Value.rename, Value.renameEntries_eq_map, Dict.ofPairs_map]
  | .expr (.index a i) =>
    obtain ⟨ha, hi⟩ := List.forall_mem_append.mp hnode
    apply mirroredOver_andThen (hexpr a ha)
    intro v hv
    apply mirroredOver_andThen (hexpr i hi)
    intro w _
    rw [Value.index_rename]
    exact mirroredOver_ofExcept hR fun r hr => Value.over_inherited.index hv hr

end Step

section Run

variable {N : String → Prop} {ρ : Renaming} {R : Store → Store → Prop} (hR : MirrorOver N ρ R)
include hR

/-- At every depth, a node over the names is evaluated alike in stores that mirror each
other. -/
theorem eval_mirroredOver (depth : Nat) : RunsMirroredOver N ρ R (eval depth) (eval depth) := by
  induction depth with
  | zero => exact fun _ _ _ => mirroredOver_stuck
  | succ depth ih =>
    intro node hnode scope st st' hst
    have harrive : R (st.arrive node) (st'.arrive node) := by
      cases node with
      | program p | block b => exact hst
      | statement s | expr e => exact hR.tick hst
    exact step_mirroredOver ih hR scope hnode _ _ harrive

theorem call_mirroredOver (depth : Nat) {callee : Value} (hcallee : callee.Over N)
    {args : List Value} (hargs : ∀ v ∈ args, v.Over N) :
    MirroredOver N ρ R (call depth callee args)
      (call depth (callee.rename ρ) (args.map (Value.rename ρ))) :=
  apply_mirroredOver (eval_mirroredOver hR depth) hR hcallee hargs

end Run

end Monkey
