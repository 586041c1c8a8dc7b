import Monkey.Store

/-!
What the operations of the store leave alone. Binding a name touches one scope,
and in it one name; opening a scope touches none that is there already. So a
property of all bound values is kept if the values that get bound have it.
-/

namespace Monkey

namespace Scope

theorem lookup_cons (x y : String) (v : Value) (bindings : List (String × Value)) :
    ((y, v) :: bindings).lookup x = if x = y then some v else bindings.lookup x := by
  by_cases h : x = y
  · simp [h]
  · have hne : (x == y) = false := beq_eq_false_iff_ne.mpr h
    simp [List.lookup_cons, h, hne]

/-- A name that is bound has the new value, and every other one the old value. -/
theorem get?_bind (sc : Scope) (name x : String) (v : Value) :
    (sc.bind name v).get? x = if x = name then some v else sc.get? x := by
  obtain ⟨outer, bindings⟩ := sc
  simp only [bind, get?]
  induction bindings with
  | nil => exact lookup_cons x name v []
  | cons b bindings ih =>
    obtain ⟨y, w⟩ := b
    rw [insert]
    by_cases hy : y = name
    · rw [if_pos hy, lookup_cons, lookup_cons, hy]
      by_cases hx : x = name <;> simp [hx]
    · rw [if_neg hy, lookup_cons, lookup_cons, ih]
      by_cases hx : x = y
      · have hname : x ≠ name := fun h => hy (hx.symm.trans h)
        rw [if_pos hx, if_neg hname, if_pos hx]
      · rw [if_neg hx, if_neg hx]

theorem mem_bind {sc : Scope} {name : String} {v : Value} {b : String × Value}
    (h : b ∈ (sc.bind name v).bindings) : b = (name, v) ∨ b ∈ sc.bindings := by
  obtain ⟨outer, bindings⟩ := sc
  simp only [bind] at h ⊢
  induction bindings with
  | nil => exact .inl (List.mem_singleton.mp h)
  | cons c bindings ih =>
    obtain ⟨y, w⟩ := c
    rw [insert] at h
    split at h
    · rcases List.mem_cons.mp h with h | h
      · exact .inl h
      · exact .inr (List.mem_cons_of_mem _ h)
    · rcases List.mem_cons.mp h with rfl | h
      · exact .inr List.mem_cons_self
      · exact (ih h).imp_right (List.mem_cons_of_mem _)

theorem mem_of_get? {sc : Scope} {name : String} {v : Value} (h : sc.get? name = some v) :
    (name, v) ∈ sc.bindings := by
  obtain ⟨outer, bindings⟩ := sc
  simp only [get?] at h ⊢
  induction bindings with
  | nil => cases h
  | cons b bindings ih =>
    obtain ⟨y, w⟩ := b
    rw [lookup_cons] at h
    split at h
    · rename_i hy
      obtain rfl : w = v := Option.some.inj h
      rw [hy]
      exact List.mem_cons_self
    · exact List.mem_cons_of_mem _ (ih h)

end Scope

namespace Store

variable (st : Store)

theorem scopes_bind (scope i : ScopeId) (name : String) (v : Value) :
    (st.bind scope name v).scopes[i]? =
      if scope = i then st.scopes[i]?.map (·.bind name v) else st.scopes[i]? := by
  simp only [bind, Array.getElem?_modify]

@[simp] theorem size_bind (scope : ScopeId) (name : String) (v : Value) :
    (st.bind scope name v).scopes.size = st.scopes.size := by
  simp [bind]

/-- Whatever is bound in one scope, the other ones are as they were. -/
theorem scopes_bindAll_of_ne {scope i : ScopeId} (h : scope ≠ i)
    (bindings : List (String × Value)) :
    (st.bindAll scope bindings).scopes[i]? = st.scopes[i]? := by
  induction bindings generalizing st with
  | nil => rfl
  | cons b bindings ih =>
    obtain ⟨name, v⟩ := b
    rw [bindAll, ih, scopes_bind, if_neg h]

@[simp] theorem size_bindAll (scope : ScopeId) (bindings : List (String × Value)) :
    (st.bindAll scope bindings).scopes.size = st.scopes.size := by
  induction bindings generalizing st with
  | nil => rfl
  | cons b bindings ih =>
    obtain ⟨name, v⟩ := b
    rw [bindAll, ih, size_bind]

@[simp] theorem clock_bindAll (scope : ScopeId) (bindings : List (String × Value)) :
    (st.bindAll scope bindings).clock = st.clock := by
  induction bindings generalizing st with
  | nil => rfl
  | cons b bindings ih => exact ih (st.bind scope b.1 b.2)

@[simp] theorem faults_bindAll (scope : ScopeId) (bindings : List (String × Value)) :
    (st.bindAll scope bindings).faults = st.faults := by
  induction bindings generalizing st with
  | nil => rfl
  | cons b bindings ih => exact ih (st.bind scope b.1 b.2)

variable {st}

/-- What a scope itself binds a name to, if the scope is there. -/
def own? (st : Store) (scope : ScopeId) (name : String) : Option Value :=
  st.scopes[scope]?.bind (·.get? name)

/-- The scope around a scope, if there is one. -/
def around? (st : Store) (scope : ScopeId) : Option ScopeId :=
  st.scopes[scope]?.bind Scope.outer

/-- A name that a scope does not bind itself means what it means around the scope. -/
theorem lookup_eq_own?_or (st : Store) (scope : ScopeId) (name : String) :
    st.lookup scope name = (st.own? scope name).or ((st.around? scope).bind fun outer =>
      if outer < scope then st.lookup outer name else none) := by
  rw [lookup, own?, around?]
  cases st.scopes[scope]? with
  | none => rfl
  | some sc =>
    simp only [Option.bind_some]
    cases sc.get? name with
    | some v => rfl
    | none =>
      cases sc.outer with
      | none => rfl
      | some outer => simp

/-- What a name means depends on the bindings of that name in a scope and in older ones, and
on where these are. -/
theorem lookup_congr_own {st' : Store} {scope : ScopeId} {name : String}
    (hown : ∀ i ≤ scope, st'.own? i name = st.own? i name)
    (haround : ∀ i ≤ scope, st'.around? i = st.around? i) :
    st'.lookup scope name = st.lookup scope name := by
  induction scope using Nat.strongRecOn with
  | ind scope ih =>
    rw [lookup_eq_own?_or, lookup_eq_own?_or, hown scope (Nat.le_refl _),
      haround scope (Nat.le_refl _)]
    congr 2
    funext outer
    split
    · rename_i hlt
      exact ih outer hlt (fun i hi => hown i (Nat.le_trans hi (Nat.le_of_lt hlt)))
        fun i hi => haround i (Nat.le_trans hi (Nat.le_of_lt hlt))
    · rfl

theorem lookup_congr {st' : Store} (h : st'.scopes = st.scopes) (scope : ScopeId)
    (name : String) : st'.lookup scope name = st.lookup scope name :=
  lookup_congr_own (fun i _ => by rw [own?, own?, h]) fun i _ => by rw [around?, around?, h]

theorem lookup_tick (st : Store) (scope : ScopeId) (name : String) :
    st.tick.lookup scope name = st.lookup scope name := by
  apply lookup_congr
  rfl

/-- A name's binding in the scope itself comes before all others. -/
theorem lookup_of_get? {scope : ScopeId} {sc : Scope} {name : String} {v : Value}
    (hsc : st.scopes[scope]? = some sc) (hv : sc.get? name = some v) :
    st.lookup scope name = some v := by
  rw [lookup, hsc]
  simp only [hv]

theorem own?_of_size_le {scope : ScopeId} (h : st.scopes.size ≤ scope) (name : String) :
    st.own? scope name = none := by
  rw [own?, Array.getElem?_eq_none h, Option.bind_none]

theorem own?_bind (scope i : ScopeId) (name x : String) (v : Value) :
    (st.bind scope name v).own? i x =
      if scope = i ∧ x = name ∧ i < st.scopes.size then some v else st.own? i x := by
  rw [own?, scopes_bind, own?]
  by_cases hscope : scope = i
  · rw [if_pos hscope]
    rcases Nat.lt_or_ge i st.scopes.size with hi | hi
    · rw [Array.getElem?_eq_getElem hi]
      simp only [Option.map_some, Option.bind_some, Scope.get?_bind, hscope, hi, true_and, and_true]
    · have hnot : ¬ (scope = i ∧ x = name ∧ i < st.scopes.size) :=
        fun h => Nat.not_lt.mpr hi h.2.2
      rw [Array.getElem?_eq_none hi, if_neg hnot, Option.map_none]
  · rw [if_neg hscope, if_neg fun h => hscope h.1]

@[simp] theorem around?_bind (scope i : ScopeId) (name : String) (v : Value) :
    (st.bind scope name v).around? i = st.around? i := by
  rw [around?, scopes_bind, around?]
  split
  · cases st.scopes[i]? <;> rfl
  · rfl

/-- A scope that was just opened binds nothing. -/
@[simp] theorem own?_openScope (outer : Option ScopeId) (i : ScopeId) (x : String) :
    (st.openScope outer).2.own? i x = st.own? i x := by
  simp only [own?, openScope, Array.getElem?_push]
  split
  · rename_i hi
    rw [hi, Array.getElem?_eq_none (Nat.le_refl _)]
    rfl
  · rfl

theorem around?_openScope (outer : Option ScopeId) (i : ScopeId) :
    (st.openScope outer).2.around? i = if i = st.scopes.size then outer else st.around? i := by
  simp only [around?, openScope, Array.getElem?_push]
  split <;> rfl

/-- Binding a name changes what that name means, in the scope itself. -/
theorem lookup_bind_self {scope : ScopeId} (hscope : scope < st.scopes.size) (name x : String)
    (v : Value) : (st.bind scope name v).lookup scope x =
      if x = name then some v else st.lookup scope x := by
  split
  · rename_i hx
    rw [lookup_eq_own?_or, own?_bind, if_pos ⟨rfl, hx, hscope⟩, Option.some_or]
  · rename_i hx
    apply lookup_congr_own
    · intro i _
      rw [own?_bind, if_neg fun h => hx h.2.1]
    · exact fun i _ => around?_bind scope i name v

/-- Older scopes do not see it. -/
theorem lookup_bind_of_lt {scope i : ScopeId} (hi : i < scope) (name x : String) (v : Value) :
    (st.bind scope name v).lookup i x = st.lookup i x := by
  apply lookup_congr_own
  · intro j hj
    rw [own?_bind, if_neg]
    rintro ⟨rfl, -⟩
    exact Nat.not_lt.mpr hj hi
  · exact fun j _ => around?_bind scope j name v

/-- Of several bindings of one name the last one counts. -/
theorem lookup_bindAll_self {scope : ScopeId} (hscope : scope < st.scopes.size)
    (bindings : List (String × Value)) (x : String) :
    (st.bindAll scope bindings).lookup scope x =
      (bindings.reverse.lookup x).or (st.lookup scope x) := by
  induction bindings generalizing st with
  | nil => rfl
  | cons b bindings ih =>
    obtain ⟨name, v⟩ := b
    have hscope' : scope < (st.bind scope name v).scopes.size := by rwa [size_bind]
    rw [bindAll, ih hscope', lookup_bind_self hscope, List.reverse_cons, List.lookup_append,
      Option.or_assoc, Scope.lookup_cons]
    split <;> rfl

theorem lookup_bindAll_of_lt {scope i : ScopeId} (hi : i < scope)
    (bindings : List (String × Value)) (x : String) :
    (st.bindAll scope bindings).lookup i x = st.lookup i x := by
  induction bindings generalizing st with
  | nil => rfl
  | cons b bindings ih => exact ih.trans (lookup_bind_of_lt hi b.1 x b.2)

/-- A name means what it was bound to last. -/
theorem lookup_bindAll {scope : ScopeId} (hscope : scope < st.scopes.size) {name : String}
    {v : Value} (before : List (String × Value)) {after : List (String × Value)}
    (hafter : ∀ b ∈ after, b.1 ≠ name) :
    (st.bindAll scope (before ++ (name, v) :: after)).lookup scope name = some v := by
  have hnone : after.reverse.lookup name = none := by
    rw [List.lookup_eq_none_iff]
    intro b hb
    exact bne_iff_ne.mpr (hafter b (List.mem_reverse.mp hb)).symm
  rw [lookup_bindAll_self hscope, List.reverse_append, List.reverse_cons, List.lookup_append,
    List.lookup_append, hnone]
  simp

theorem lookup_openScope_of_lt {i : ScopeId} (hi : i < st.scopes.size)
    (outer : Option ScopeId) (x : String) :
    (st.openScope outer).2.lookup i x = st.lookup i x := by
  apply lookup_congr_own
  · exact fun j _ => own?_openScope outer j x
  · intro j hj
    rw [around?_openScope, if_neg (Nat.ne_of_lt (Nat.lt_of_le_of_lt hj hi))]

/-- In a scope that was just opened, names mean what they mean around it. -/
theorem lookup_openScope_self {outer : ScopeId} (houter : outer < st.scopes.size)
    (x : String) :
    (st.openScope (some outer)).2.lookup st.scopes.size x = st.lookup outer x := by
  rw [lookup_eq_own?_or, own?_openScope, own?_of_size_le (Nat.le_refl _), Option.none_or,
    around?_openScope, if_pos rfl, Option.bind_some, if_pos houter,
    lookup_openScope_of_lt houter]

/-- What a name means is bound to it in some scope. -/
theorem exists_of_lookup {scope : ScopeId} {name : String} {v : Value}
    (h : st.lookup scope name = some v) : ∃ sc ∈ st.scopes, (name, v) ∈ sc.bindings := by
  induction scope using Nat.strongRecOn with
  | ind scope ih =>
    rw [lookup] at h
    split at h
    · cases h
    · rename_i sc hsc
      split at h
      · rename_i w hw
        cases h
        exact ⟨sc, Array.mem_of_getElem? hsc, Scope.mem_of_get? hw⟩
      · split at h
        · cases h
        · split at h
          · rename_i houter
            exact ih _ houter h
          · cases h

/-- Whatever scope binds a value, it has the property. -/
def EveryBound (P : Value → Prop) (st : Store) : Prop :=
  ∀ sc ∈ st.scopes, ∀ b ∈ sc.bindings, P b.2

namespace EveryBound

variable {P : Value → Prop}

theorem empty : Store.empty.EveryBound P :=
  fun sc hsc => absurd hsc (Array.not_mem_empty sc)

theorem of_scopes_eq {st' : Store} (hst : st.EveryBound P) (h : st'.scopes = st.scopes) :
    st'.EveryBound P := by
  unfold EveryBound
  rwa [h]

theorem lookup (hst : st.EveryBound P) {scope : ScopeId} {name : String} {v : Value}
    (h : st.lookup scope name = some v) : P v := by
  obtain ⟨sc, hsc, hb⟩ := exists_of_lookup h
  exact hst sc hsc _ hb

theorem bind (hst : st.EveryBound P) (scope : ScopeId) (name : String) {v : Value}
    (hv : P v) : (st.bind scope name v).EveryBound P := by
  intro sc hsc b hb
  obtain ⟨i, hi⟩ := Array.mem_iff_getElem?.mp hsc
  rw [Store.scopes_bind] at hi
  split at hi
  · obtain ⟨old, hold, rfl⟩ := Option.map_eq_some_iff.mp hi
    rcases Scope.mem_bind hb with rfl | hb
    · exact hv
    · exact hst old (Array.mem_of_getElem? hold) b hb
  · exact hst sc (Array.mem_of_getElem? hi) b hb

theorem bindAll (hst : st.EveryBound P) (scope : ScopeId) {bindings : List (String × Value)}
    (hbindings : ∀ b ∈ bindings, P b.2) : (st.bindAll scope bindings).EveryBound P := by
  induction bindings generalizing st with
  | nil => exact hst
  | cons b bindings ih =>
    obtain ⟨hb, htail⟩ := List.forall_mem_cons.mp hbindings
    exact ih (hst.bind scope b.1 hb) htail

theorem openScope (hst : st.EveryBound P) (outer : Option ScopeId) :
    (st.openScope outer).2.EveryBound P := by
  intro sc hsc b hb
  rcases Array.mem_push.mp hsc with hsc | rfl
  · exact hst sc hsc b hb
  · cases hb

end EveryBound

end Store

end Monkey
