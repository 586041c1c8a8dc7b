import Monkey.Proofs.Eval.Action

/-!
What actions keep. An action keeps an invariant of the store, with values of
some sort, if from every store with the invariant it comes to such a value and a
store with the invariant, when it comes to an end. It ensures the same if it
always comes to an end. Each way to put actions together has a rule, and a
property of evaluation is proved by a rule for each kind of node and an
induction on the depth.

The rules are the same for both, and so they leave open what it says of an action that
it has no outcome. They ask little of the invariant: that it does not depend on the
clock and on the faults that were recorded.
-/

namespace Monkey

/-- An invariant that looks at the scopes only. -/
def OfScopes (I : Store → Prop) : Prop :=
  ∀ st st' : Store, st'.scopes = st.scopes → I st → I st'

namespace Action

/-- Where the action has no outcome, `p` holds. -/
def KeepsOr (p : Prop) (I : Store → Prop) (Q : Value → Prop) (a : Action) : Prop :=
  ∀ st, I st → (a st = none ∧ p) ∨ ∃ v st', a st = some (v, st') ∧ I st' ∧ Q v

abbrev Keeps (I : Store → Prop) (Q : Value → Prop) (a : Action) : Prop := a.KeepsOr True I Q

abbrev Ensures (I : Store → Prop) (Q : Value → Prop) (a : Action) : Prop := a.KeepsOr False I Q

variable {p : Prop} {I : Store → Prop} {P Q : Value → Prop} {a : Action}

theorem KeepsOr.of_some (ha : a.KeepsOr p I Q) {st st' : Store} {v : Value} (hst : I st)
    (h : a st = some (v, st')) : I st' ∧ Q v := by
  obtain ⟨hnone, -⟩ | ⟨w, mid, ha', hmid, hw⟩ := ha st hst
  · rw [hnone] at h
    cases h
  · rw [ha'] at h
    cases h
    exact ⟨hmid, hw⟩

theorem Ensures.exists_some (ha : a.Ensures I Q) {st : Store} (hst : I st) :
    ∃ v st', a st = some (v, st') ∧ I st' ∧ Q v := by
  obtain ⟨-, ⟨⟩⟩ | h := ha st hst
  exact h

theorem keeps_of_forall (h : ∀ st v st', I st → a st = some (v, st') → I st' ∧ Q v) :
    a.Keeps I Q := by
  intro st hst
  cases ha : a st with
  | none => exact .inl ⟨rfl, trivial⟩
  | some r => exact .inr ⟨r.1, r.2, rfl, h st r.1 r.2 hst ha⟩

theorem KeepsOr.mono (ha : a.KeepsOr p I P) (himp : ∀ v, P v → Q v) : a.KeepsOr p I Q := by
  intro st hst
  obtain hnone | ⟨v, st', ha', hst', hv⟩ := ha st hst
  · exact .inl hnone
  · exact .inr ⟨v, st', ha', hst', himp v hv⟩

theorem keeps_stuck : stuck.Keeps I Q := fun _ _ => .inl ⟨rfl, trivial⟩

theorem keepsOr_pure {v : Value} (hv : Q v) : (pure v).KeepsOr p I Q :=
  fun st hst => .inr ⟨v, st, rfl, hst, hv⟩

theorem keepsOr_fail (hI : OfScopes I) {e : RuntimeError} (he : Q (.error e.message)) :
    (fail e).KeepsOr p I Q :=
  fun st hst => .inr ⟨_, _, rfl, hI st _ rfl hst, he⟩

theorem keepsOr_ofExcept (hI : OfScopes I) {r : Except RuntimeError Value}
    (hok : ∀ v, r = .ok v → Q v) (herror : ∀ e : RuntimeError, Q (.error e.message)) :
    (ofExcept r).KeepsOr p I Q := by
  cases r with
  | ok v => exact keepsOr_pure (hok v rfl)
  | error e => exact keepsOr_fail hI (herror e)

theorem keepsOr_create (hI : OfScopes I) {make : Nat → Value} (hmake : ∀ id, Q (make id)) :
    (create make).KeepsOr p I Q :=
  fun st hst => .inr ⟨_, _, rfl, hI st _ rfl hst, hmake _⟩

theorem keepsOr_bind (hI : OfScopes I) {scope : ScopeId} {name : String} {v : Value}
    (hbind : ∀ st, I st → I (st.bind scope name v)) (hnull : Q .null) :
    (bind scope name v).KeepsOr p I Q :=
  fun st hst => .inr ⟨_, _, rfl, hbind _ (hI st _ rfl hst), hnull⟩

theorem keepsOr_resolve (hI : OfScopes I) {scope : ScopeId} {name : String}
    (hlookup : ∀ st v, I st → st.lookup scope name = some v → Q v)
    (hbuiltin : ∀ b, Q (.builtin b)) (herror : ∀ e : RuntimeError, Q (.error e.message)) :
    (resolve scope name).KeepsOr p I Q := by
  intro st hst
  unfold resolve
  cases hv : st.lookup scope name with
  | some v => exact .inr ⟨v, st, rfl, hst, hlookup st v hst hv⟩
  | none =>
    cases Builtin.ofName? name with
    | some b => exact .inr ⟨.builtin b, st, rfl, hst, hbuiltin b⟩
    | none => exact keepsOr_fail hI (herror _) st hst

/-- What an action goes on with is not abrupt. -/
theorem keepsOr_andThen {next : Value → Action} (ha : a.KeepsOr p I Q)
    (hnext : ∀ v, Q v → v.isAbrupt = false → (next v).KeepsOr p I Q) :
    (a.andThen next).KeepsOr p I Q := by
  intro st hst
  obtain ⟨hnone, hp⟩ | ⟨v, mid, ha', hmid, hv⟩ := ha st hst
  · exact .inl ⟨andThen_of_none hnone, hp⟩
  · cases hproceeds : v.isAbrupt with
    | true => exact .inr ⟨v, mid, andThen_of_abrupt ha' hproceeds, hmid, hv⟩
    | false =>
      rw [andThen_of_some ha' hproceeds]
      exact hnext v hv hproceeds mid hmid

theorem keepsOr_unwrapped (ha : a.KeepsOr p I P) (hunwrap : ∀ v, P v → Q v.unwrap) :
    a.unwrapped.KeepsOr p I Q := by
  intro st hst
  obtain ⟨hnone, hp⟩ | ⟨v, st', ha', hst', hv⟩ := ha st hst
  · exact .inl ⟨unwrapped_of_none hnone, hp⟩
  · exact .inr ⟨v.unwrap, st', unwrapped_of_some ha', hst', hunwrap v hv⟩

theorem keepsOr_inSequence {run : Statement → Action} {last : Value} {ss : List Statement}
    (hlast : Q last) (hrun : ∀ s ∈ ss, (run s).KeepsOr p I Q) :
    (inSequence run last ss).KeepsOr p I Q := by
  induction ss generalizing last with
  | nil => exact keepsOr_pure hlast
  | cons s ss ih =>
    obtain ⟨hs, hss⟩ := List.forall_mem_cons.mp hrun
    apply keepsOr_andThen hs
    intro v hv _
    exact ih hv hss

theorem keepsOr_gather {run : Expr → Action} {es : List Expr} {next : List Value → Action}
    (hrun : ∀ e ∈ es, (run e).KeepsOr p I Q)
    (hnext : ∀ vs, (∀ v ∈ vs, Q v ∧ v.isAbrupt = false) → (next vs).KeepsOr p I Q) :
    (gather run es next).KeepsOr p I Q := by
  induction es generalizing next with
  | nil =>
    apply hnext
    intro v hv
    cases hv
  | cons e es ih =>
    obtain ⟨he, hes⟩ := List.forall_mem_cons.mp hrun
    apply keepsOr_andThen he
    intro v hv hproceeds
    apply ih hes
    intro vs hvs
    apply hnext
    exact List.forall_mem_cons.mpr ⟨⟨hv, hproceeds⟩, hvs⟩

theorem keepsOr_gatherPairs (hI : OfScopes I) {run : Expr → Action} {ps : List (Expr × Expr)}
    {next : List (Key × Value) → Action}
    (hrun : ∀ q ∈ ps, (run q.1).KeepsOr p I Q ∧ (run q.2).KeepsOr p I Q)
    (herror : ∀ e : RuntimeError, Q (.error e.message))
    (hnext : ∀ es : List (Key × Value), (∀ e ∈ es, Q e.2 ∧ e.2.isAbrupt = false) →
      (next es).KeepsOr p I Q) :
    (gatherPairs run ps next).KeepsOr p I Q := by
  induction ps generalizing next with
  | nil =>
    apply hnext
    intro e he
    cases he
  | cons q ps ih =>
    obtain ⟨k, e⟩ := q
    obtain ⟨⟨hk, he⟩, hps⟩ := List.forall_mem_cons.mp hrun
    apply keepsOr_andThen hk
    intro v _ _
    split
    · exact keepsOr_fail hI (herror _)
    · apply keepsOr_andThen he
      intro w hw hproceeds
      apply ih hps
      intro es hes
      apply hnext
      exact List.forall_mem_cons.mpr ⟨⟨hw, hproceeds⟩, hes⟩

end Action

end Monkey
