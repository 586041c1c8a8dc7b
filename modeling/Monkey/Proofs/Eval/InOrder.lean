import Monkey.Proofs.Eval.Moment

/-!
Dicts in order. Only a dict literal makes a dict, and the dict that it makes has each key
once and its keys in order. So has every dict that comes up in a run, wherever in a value it
is.
-/

namespace Monkey

namespace Value

/-- All dicts in the value have their keys in order. -/
inductive InOrder : Value → Prop where
  | plain {v : Value} : v.Plain → InOrder v
  | returned {v : Value} : InOrder v → InOrder (.returned v)
  | function (id : Nat) (params : List String) (body : Block) (scope : ScopeId) :
      InOrder (.function id params body scope)
  | vector (id : Nat) {elements : List Value} :
      (∀ v ∈ elements, InOrder v) → InOrder (.vector id elements)
  | dict (id : Nat) {entries : List (Key × Value)} :
      Dict.Sorted entries → (∀ e ∈ entries, InOrder e.2) → InOrder (.dict id entries)
  | builtin (b : Builtin) : InOrder (.builtin b)
  | error (message : String) : InOrder (.error message)

namespace InOrder

variable {u v : Value}

theorem of_mem_parts (h : v.InOrder) (hu : u ∈ v.parts) : u.InOrder := by
  cases h with
  | vector _ helements => exact helements u hu
  | dict _ _ hentries =>
    obtain ⟨e, he, rfl⟩ := List.mem_map.mp hu
    exact hentries e he
  | plain hv => cases hv <;> cases hu
  | _ => cases hu

theorem sorted {id : Nat} {entries : List (Key × Value)} (h : (Value.dict id entries).InOrder) :
    Dict.Sorted entries := by
  cases h with
  | dict _ hsorted _ => exact hsorted
  | plain hv => cases hv

theorem unwrap (h : v.InOrder) : v.unwrap.InOrder := by
  cases h with
  | returned hv => exact hv
  | plain hv =>
    have hsame : v.unwrap = v := by cases hv <;> rfl
    rw [hsame]
    exact .plain hv
  | function id params body scope => exact .function id params body scope
  | vector id helements => exact .vector id helements
  | dict id hsorted hentries => exact .dict id hsorted hentries
  | builtin b => exact .builtin b
  | error message => exact .error message

end InOrder

end Value

/-- A well-formed store in which everything that is bound is in order. -/
structure OrderedStore where
  store : Store
  wellFormed : store.WellFormed
  bound : store.EveryBound Value.InOrder

namespace OrderedStore

/-- With nothing done but that time has passed. -/
def tick (w : OrderedStore) : OrderedStore :=
  ⟨w.store.tick, w.wellFormed.tick, w.bound⟩

/-- From such stores to later ones. -/
def growth : Growth where
  World := OrderedStore
  store := OrderedStore.store
  Later w w' := w.store.Grown w'.store
  Holds w v := w.store.Holds v ∧ v.InOrder
  later_refl w := .refl w.store
  later_trans h h' := h.trans h'
  size_le h := h.size_le
  holds_later h hv := ⟨h.holds hv.1, hv.2⟩
  holds_plain _ _ hv := ⟨.of_plain hv, .plain hv⟩
  holds_builtin _ b := ⟨.builtin b, .builtin b⟩
  holds_error _ message := ⟨.error message, .error message⟩
  holds_returned hv := ⟨.returned hv.1, .returned hv.2⟩
  holds_unwrap hv := ⟨hv.1.unwrap, hv.2.unwrap⟩
  holds_part hv hu := ⟨hv.1.of_mem_parts hu, hv.2.of_mem_parts hu⟩
  holds_lookup {w _ _ _} h := ⟨w.wellFormed.holds.lookup h, w.bound.lookup h⟩
  scope_lt {w _ _ _ _} h := Store.growth.scope_lt (w := ⟨w.store, w.wellFormed⟩) h.1
  tick w := ⟨w.tick, .tick w.store, rfl⟩
  fail w message :=
    ⟨⟨_, w.wellFormed.fail message, w.bound⟩, .fail w.store message, rfl⟩
  bind {w v} scope name hv :=
    ⟨⟨_, w.wellFormed.bind scope name hv.1, w.bound.bind scope name hv.2⟩,
      .bind w.store scope name v, rfl⟩
  openScope {w outer} houter :=
    ⟨⟨_, w.wellFormed.openInside houter, w.bound.openScope (some outer)⟩,
      .openScope w.store (some outer), rfl⟩
  function {w _} params body hscope := ⟨w.tick, .tick w.store, rfl,
    .function params body (Nat.lt_succ_self _) hscope, .function _ params body _⟩
  vector {w _} hvs := ⟨w.tick, .tick w.store, rfl,
    .vector (Nat.lt_succ_self _) fun v hv => (Store.Grown.tick w.store).holds (hvs v hv).1,
    .vector _ fun v hv => (hvs v hv).2⟩
  dict {w _} hsorted hentries := ⟨w.tick, .tick w.store, rfl,
    .dict (Nat.lt_succ_self _) fun e he => (Store.Grown.tick w.store).holds (hentries e he).1,
    .dict _ hsorted fun e he => (hentries e he).2⟩

/-- In a fresh session nothing is bound. -/
def fresh : OrderedStore where
  store := Session.fresh.store
  wellFormed := Session.fresh_wellFormed.store
  bound := Store.EveryBound.empty.openScope none

end OrderedStore

/-- Whatever comes up in a run is in order. -/
theorem Moment.inOrder {st : Store} {vs : List Value} (h : Moment st vs) :
    ∀ v ∈ vs, v.InOrder := by
  obtain ⟨w, -, hvs⟩ := h.exists_world OrderedStore.growth OrderedStore.fresh rfl
  exact fun v hv => (hvs v hv).2

end Monkey
