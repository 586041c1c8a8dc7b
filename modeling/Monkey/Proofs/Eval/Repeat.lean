import Monkey.Proofs.Eval.Frame
import Monkey.Proofs.Eval.Mirror
import Monkey.Proofs.Eval.WellFormed

/-!
Calls can be repeated. A call writes to no scope that was there before it, so a
second call with the same arguments meets the same bindings as the first one. What
it makes has other identities, because time has passed and scopes were opened; but
the two runs go side by side along the renaming that moves everything new by as
much as the first call took.
-/

open Monkey.Action

namespace Monkey

/-- Numbers from `start` on, moved up by `d`. -/
def moveFrom (start d n : Nat) : Nat :=
  if n < start then n else n + d

section

variable {start d m n : Nat}

theorem moveFrom_of_lt (h : n < start) : moveFrom start d n = n := if_pos h

theorem moveFrom_of_le (h : start ≤ n) : moveFrom start d n = n + d := if_neg (Nat.not_lt.mpr h)

/-- The first number that is moved goes to where the others go on from. -/
theorem moveFrom_start (h : start ≤ m) : moveFrom start (m - start) start = m := by
  rw [moveFrom_of_le (Nat.le_refl start), Nat.add_sub_cancel' h]

theorem le_moveFrom (hm : start ≤ m) (hn : start ≤ n) : m ≤ moveFrom start (m - start) n := by
  rw [moveFrom_of_le hn]
  omega

theorem moveFrom_succ (h : start ≤ n) : moveFrom start d (n + 1) = moveFrom start d n + 1 := by
  rw [moveFrom_of_le h, moveFrom_of_le (Nat.le_succ_of_le h)]
  omega

theorem moveFrom_lt_moveFrom : moveFrom start d m < moveFrom start d n ↔ m < n := by
  unfold moveFrom
  split <;> split <;> omega

theorem moveFrom_injective (start d : Nat) : Function.Injective (moveFrom start d) := by
  intro m n h
  unfold moveFrom at h
  split at h <;> split at h <;> omega

end

namespace Renaming

/-- Keeps what is there in a store, and moves what comes after it to what comes
after a later store. -/
def between (st st' : Store) : Renaming where
  object := moveFrom st.clock (st'.clock - st.clock)
  scope := moveFrom st.scopes.size (st'.scopes.size - st.scopes.size)
  object_injective := moveFrom_injective _ _
  scope_injective := moveFrom_injective _ _

theorem between_carries (st st' : Store) :
    (between st st').Carries (Scope.rename (between st st')) where
  scope_lt _ _ := moveFrom_lt_moveFrom
  get?_eq sc name := sc.get?_rename _ name
  bind_eq sc name v := sc.bind_rename _ name v
  outer_eq sc outer h := by simp [Scope.rename, h]
  opened_eq _ := rfl

/-- Takes what was made between two stores to what was made between the second one
and a third, and keeps what was there before. -/
structure Repeats (ρ : Renaming) (st st₁ st₂ : Store) : Prop where
  object_eq : ∀ id < st.clock, ρ.object id = id
  scope_eq : ∀ i < st.scopes.size, ρ.scope i = i
  object_made : ∀ id, st.clock ≤ id → id < st₁.clock →
    st₁.clock ≤ ρ.object id ∧ ρ.object id < st₂.clock
  scope_made : ∀ i, st.scopes.size ≤ i → i < st₁.scopes.size →
    st₁.scopes.size ≤ ρ.scope i ∧ ρ.scope i < st₂.scopes.size
  scopes_eq : ∀ i < st₁.scopes.size,
    st₂.scopes[ρ.scope i]? = st₁.scopes[i]?.map (Scope.rename ρ)

end Renaming

section Held

variable {ρ : Renaming}

theorem map_values_eq_self {κ α : Type} {f : α → α} {entries : List (κ × α)}
    (h : ∀ e ∈ entries, f e.2 = e.2) : entries.map (Prod.map id f) = entries := by
  calc entries.map (Prod.map id f)
      = entries.map id := List.map_congr_left fun e he => Prod.ext rfl (h e he)
    _ = entries := List.map_id entries

/-- A value is as it was if everything that it is made of keeps its identity. -/
theorem Value.Within.rename_eq {clock size : Nat} {v : Value} (h : v.Within clock size)
    (hobject : ∀ id < clock, ρ.object id = id) (hscope : ∀ i < size, ρ.scope i = i) :
    v.rename ρ = v := by
  induction h with
  | int | str | bool | null | builtin | error => rfl
  | returned _ ih => rw [rename, ih]
  | function params body hid hs => rw [rename, hobject _ hid, hscope _ hs]
  | vector hid _ ih =>
    rw [rename, renameEach_eq_map, hobject _ hid, List.map_congr_left ih, List.map_id']
  | dict hid _ ih => rw [rename, renameEntries_eq_map, hobject _ hid, map_values_eq_self ih]

theorem Store.WellFormed.rename_eq {st : Store} (hst : st.WellFormed)
    (hobject : ∀ id < st.clock, ρ.object id = id)
    (hscope : ∀ i < st.scopes.size, ρ.scope i = i) {i : ScopeId} {sc : Scope}
    (hsc : st.scopes[i]? = some sc) : sc.rename ρ = sc := by
  have hbindings : sc.bindings.map (Prod.map id (Value.rename ρ)) = sc.bindings := by
    apply map_values_eq_self
    intro b hb
    exact (hst.holds sc (Array.mem_of_getElem? hsc) b hb).rename_eq hobject hscope
  have houter : sc.outer.map ρ.scope = sc.outer := by
    cases houter : sc.outer with
    | none => rfl
    | some outer =>
      obtain ⟨hi, -⟩ := Array.getElem?_eq_some_iff.mp hsc
      have hlt := hst.outer_lt i sc outer hsc houter
      rw [Option.map_some, hscope outer (Nat.lt_trans hlt hi)]
  unfold Scope.rename
  rw [hbindings, houter]

end Held

namespace Store

/-- A store that was reached from `start`, and the one that is reached in the same
way from a later store `start'`. -/
structure Moved (start start' st st' : Store) : Prop where
  grown : start.Grown st
  clock_eq : st'.clock = (Renaming.between start start').object st.clock
  size_eq : st'.scopes.size = (Renaming.between start start').scope st.scopes.size
  scopes_eq : ∀ i, st'.scopes[(Renaming.between start start').scope i]? =
    st.scopes[i]?.map (Scope.rename (Renaming.between start start'))

namespace Moved

variable {start start' st st' : Store}

theorem refl (hstart : start.WellFormed) (hgrown : start.Grown start')
    (hpreserved : start.Preserved start') : start.Moved start' start start' := by
  constructor
  · exact .refl start
  · exact (moveFrom_start hgrown.clock_le).symm
  · exact (moveFrom_start hgrown.size_le).symm
  · intro i
    rcases Nat.lt_or_ge i start.scopes.size with hi | hi
    · have hkept : (Renaming.between start start').scope i = i := moveFrom_of_lt hi
      rw [hkept, hpreserved.scopes_eq i hi]
      cases hsc : start.scopes[i]? with
      | none => rfl
      | some sc =>
        rw [Option.map_some, hstart.rename_eq _ _ hsc]
        · exact fun id hid => moveFrom_of_lt hid
        · exact fun i hi => moveFrom_of_lt hi
    · have hmoved : start'.scopes.size ≤ (Renaming.between start start').scope i :=
        le_moveFrom hgrown.size_le hi
      rw [Array.getElem?_eq_none hmoved, Array.getElem?_eq_none hi, Option.map_none]

theorem lookup_eq (h : start.Moved start' st st') (scope : ScopeId) (name : String) :
    st'.lookup ((Renaming.between start start').scope scope) name =
      (st.lookup scope name).map (Value.rename (Renaming.between start start')) := by
  apply (Renaming.between_carries start start').lookup_eq h.scopes_eq
  intro sc root hnone hroot
  simp [Scope.rename, hnone] at hroot

theorem tick (h : start.Moved start' st st') : start.Moved start' st.tick st'.tick := by
  constructor
  · exact h.grown.trans (.tick st)
  · exact (congrArg (· + 1) h.clock_eq).trans (moveFrom_succ h.grown.clock_le).symm
  · exact h.size_eq
  · exact h.scopes_eq

theorem fail (h : start.Moved start' st st') (message : String) :
    start.Moved start' (st.fail message) (st'.fail message) :=
  ⟨⟨h.grown.clock_le, h.grown.size_le⟩, h.clock_eq, h.size_eq, h.scopes_eq⟩

theorem bind (h : start.Moved start' st st') (scope : ScopeId) (name : String) (v : Value) :
    start.Moved start' (st.bind scope name v)
      (st'.bind ((Renaming.between start start').scope scope) name
        (v.rename (Renaming.between start start'))) := by
  constructor
  · refine ⟨h.grown.clock_le, ?_⟩
    rw [size_bind]
    exact h.grown.size_le
  · exact h.clock_eq
  · rw [size_bind, size_bind]
    exact h.size_eq
  · exact (Renaming.between_carries start start').scopes_bind h.scopes_eq scope name v

theorem openScope (h : start.Moved start' st st') (outer : ScopeId) :
    start.Moved start' (st.openScope (some outer)).2
      (st'.openScope (some ((Renaming.between start start').scope outer))).2 := by
  constructor
  · refine ⟨h.grown.clock_le, ?_⟩
    simp only [Store.openScope, Array.size_push]
    exact Nat.le_succ_of_le h.grown.size_le
  · exact h.clock_eq
  · simp only [Store.openScope, Array.size_push]
    exact (congrArg (· + 1) h.size_eq).trans (moveFrom_succ h.grown.size_le).symm
  · exact (Renaming.between_carries start start').scopes_openScope h.scopes_eq h.size_eq outer

end Moved

end Store

theorem mirror_moved (start start' : Store) :
    Mirror (Renaming.between start start') (start.Moved start') where
  clock_eq h := h.clock_eq
  size_eq h := h.size_eq
  lookup_eq h := h.lookup_eq
  tick h := h.tick
  fail h := h.fail
  bind h := h.bind
  openScope h := h.openScope

/-- What was made by the first run is moved to what the second run has made. -/
theorem Store.Moved.repeats {st st₁ st₂ : Store} (h : st.Moved st₁ st₁ st₂) :
    (Renaming.between st st₁).Repeats st st₁ st₂ := by
  constructor
  · intro id hid
    exact moveFrom_of_lt hid
  · intro i hi
    exact moveFrom_of_lt hi
  · intro id hid hlt
    rw [h.clock_eq]
    exact ⟨le_moveFrom h.grown.clock_le hid, moveFrom_lt_moveFrom.mpr hlt⟩
  · intro i hi hlt
    rw [h.size_eq]
    exact ⟨le_moveFrom h.grown.size_le hi, moveFrom_lt_moveFrom.mpr hlt⟩
  · intro i _
    exact h.scopes_eq i

/-- A call that comes to an end in a well-formed store, whatever is called, can be made
again in the store that it leaves, with the same arguments, and comes to an end there
at the same depth. Up to a renaming of what the two calls have made, it has the same
value and opens the same scopes. A value without functions is therefore the same
value again, and an error says the same. -/
theorem call_repeats (depth : Nat) (callee : Value) (args : List Value) (st st₁ : Store)
    (v₁ : Value) (hst : st.WellFormed) (hcallee : st.Holds callee)
    (hargs : ∀ a ∈ args, st.Holds a) (h : call depth callee args st = some (v₁, st₁)) :
    st₁.WellFormed ∧ st₁.Holds v₁ ∧ ∃ v₂ st₂, call depth callee args st₁ = some (v₂, st₂) ∧
      (∃ ρ : Renaming, v₂ = v₁.rename ρ ∧ ρ.Repeats st st₁ st₂) ∧
      (v₁.FunctionFree → v₁.equals v₂ = true) ∧
      ∀ message, v₁ = .error message → v₂ = .error message := by
  have hend := call_grounded depth hst hcallee hargs h
  have hmoved : st.Moved st₁ st st₁ := .refl hst hend.grown (call_preserved depth h)
  have hsame : ∀ {v : Value}, st.Holds v → v.rename (.between st st₁) = v := fun hv =>
    hv.rename_eq (fun id hid => moveFrom_of_lt hid) fun i hi => moveFrom_of_lt hi
  have hsides := call_mirrored (mirror_moved st st₁) depth callee args
  rw [hsame hcallee, List.map_congr_left fun a ha => hsame (hargs a ha), List.map_id'] at hsides
  obtain ⟨st₂, hagain, hmoved'⟩ := hsides.exists_of_some hmoved h
  refine ⟨hend.wellFormed, hend.holds, _, st₂, hagain, ⟨_, rfl, hmoved'.repeats⟩, ?_, ?_⟩
  · intro hfree
    exact hfree.equals_rename _
  · rintro message rfl
    rfl

/-- The function `fn(x) { fn() { x } }`, called with 7. The functions that it returns
have captured the scopes of their calls. -/
theorem call_repeats_closure :
    Session.fresh.store.tick.WellFormed ∧
      call 4 (.function 0 ["x"] [.expr (.function [] [.expr (.ident "x")])] 0) [.int 7]
          Session.fresh.store.tick =
        some (.function 4 [] [.expr (.ident "x")] 1,
          ⟨#[⟨none, []⟩, ⟨some 0, [("x", .int 7)]⟩], 5, []⟩) ∧
      ∃ st₂ : Store,
        call 4 (.function 0 ["x"] [.expr (.function [] [.expr (.ident "x")])] 0) [.int 7]
            ⟨#[⟨none, []⟩, ⟨some 0, [("x", .int 7)]⟩], 5, []⟩ =
          some (.function 8 [] [.expr (.ident "x")] 2, st₂) ∧
        ∃ ρ : Renaming, ρ.object 4 = 8 ∧ ρ.scope 1 = 2 ∧
          ρ.Repeats Session.fresh.store.tick
            ⟨#[⟨none, []⟩, ⟨some 0, [("x", .int 7)]⟩], 5, []⟩ st₂ := by
  have hst : Session.fresh.store.tick.WellFormed := Session.fresh_wellFormed.store.tick
  have hcallee : Session.fresh.store.tick.Holds
      (.function 0 ["x"] [.expr (.function [] [.expr (.ident "x")])] 0) :=
    .function _ _ (by decide) (by decide)
  have hargs : ∀ a ∈ [Value.int 7], Session.fresh.store.tick.Holds a := by
    intro a ha
    obtain rfl := List.mem_singleton.mp ha
    exact .int 7
  have hcall : call 4 (.function 0 ["x"] [.expr (.function [] [.expr (.ident "x")])] 0) [.int 7]
      Session.fresh.store.tick = some (.function 4 [] [.expr (.ident "x")] 1,
        ⟨#[⟨none, []⟩, ⟨some 0, [("x", .int 7)]⟩], 5, []⟩) := rfl
  obtain ⟨-, -, v₂, st₂, hagain, ⟨ρ, hv₂, hρ⟩, -, -⟩ :=
    call_repeats 4 _ _ _ _ _ hst hcallee hargs hcall
  have hcomputed : v₂ = .function 8 [] [.expr (.ident "x")] 2 :=
    congrArg Prod.fst (Option.some.inj hagain.symm)
  rw [hcomputed] at hv₂
  simp only [Value.rename, Value.function.injEq, true_and] at hv₂
  obtain ⟨hid, hscope⟩ := hv₂
  exact ⟨hst, hcall, st₂, hcomputed ▸ hagain, ρ, hid.symm, hscope.symm, hρ⟩

end Monkey
