import Monkey.Eval

/-!
How actions come to their outcomes. What is put together by `andThen` has come to
its outcome in one of two ways, and so on for the other ways to put actions
together; everything that is proved of outcomes goes through these cases.
-/

namespace Monkey

namespace Action

variable {a : Action} {st st' : Store} {w : Value}

/-- Either the first action ended early, or the next one went on from it. -/
theorem andThen_cases {next : Value → Action} (h : a.andThen next st = some (w, st')) :
    (a st = some (w, st') ∧ w.isAbrupt = true) ∨
      ∃ v mid, a st = some (v, mid) ∧ v.isAbrupt = false ∧ next v mid = some (w, st') := by
  unfold andThen at h
  cases hrun : a st with
  | none =>
    rw [hrun] at h
    cases h
  | some r =>
    obtain ⟨v, mid⟩ := r
    rw [hrun] at h
    simp only at h
    split at h
    · rename_i habrupt
      cases h
      exact .inl ⟨rfl, habrupt⟩
    · rename_i hproceeds
      exact .inr ⟨v, mid, rfl, Bool.eq_false_iff.mpr hproceeds, h⟩

theorem andThen_of_none {next : Value → Action} (h : a st = none) :
    a.andThen next st = none := by
  unfold andThen
  rw [h]

theorem andThen_of_some {next : Value → Action} {v : Value} {mid : Store}
    (h : a st = some (v, mid)) (hproceeds : v.isAbrupt = false) :
    a.andThen next st = next v mid := by
  unfold andThen
  rw [h]
  simp only [hproceeds]
  rfl

theorem andThen_of_abrupt {next : Value → Action} (h : a st = some (w, st'))
    (habrupt : w.isAbrupt = true) : a.andThen next st = some (w, st') := by
  unfold andThen
  rw [h]
  simp only [habrupt]
  rfl

theorem unwrapped_cases (h : a.unwrapped st = some (w, st')) :
    ∃ v, a st = some (v, st') ∧ w = v.unwrap := by
  unfold unwrapped at h
  cases hrun : a st with
  | none =>
    rw [hrun] at h
    cases h
  | some r =>
    obtain ⟨v, mid⟩ := r
    rw [hrun] at h
    cases h
    exact ⟨v, rfl, rfl⟩

theorem unwrapped_of_none (h : a st = none) : a.unwrapped st = none := by
  unfold unwrapped
  rw [h]

theorem unwrapped_of_some {v : Value} (h : a st = some (v, st')) :
    a.unwrapped st = some (v.unwrap, st') := by
  unfold unwrapped
  rw [h]

theorem resolve_of_lookup {scope : ScopeId} {name : String} {v : Value}
    (h : st.lookup scope name = some v) : resolve scope name st = some (v, st) := by
  unfold resolve
  rw [h]

/-- A name is bound, or else it is the name of a builtin or unknown. -/
theorem resolve_cases {scope : ScopeId} {name : String}
    (h : resolve scope name st = some (w, st')) :
    (st.lookup scope name = some w ∧ st' = st) ∨ (∃ b : Builtin, w = .builtin b ∧ st' = st) ∨
      fail (.unbound name) st = some (w, st') := by
  unfold resolve at h
  split at h
  · rename_i hv
    cases h
    exact .inl ⟨hv, rfl⟩
  · split at h
    · cases h
      exact .inr (.inl ⟨_, rfl, rfl⟩)
    · exact .inr (.inr h)

end Action

/-- Coming to a node takes time at most. -/
@[simp] theorem Store.scopes_arrive (st : Store) (node : Node) :
    (st.arrive node).scopes = st.scopes := by
  cases node <;> rfl

end Monkey
