import Monkey.Proofs.Store

/-!
Scopes as nested maps. Two things can be done to the scopes of a store: a scope is
opened, inside another one or inside none, and a name is bound in a scope. What was
done so far settles, without a store, which scopes are around a scope and what a name
was bound to last in each of them; and this is what a search in the store finds.

A scope can only be opened inside an older one, so that the way outwards from a scope
always comes to an end, whatever values are bound on it.
-/

namespace Monkey

/-- What can be done to the scopes of a store. -/
inductive ScopeOp where
  | openScope (outer : Option ScopeId)
  | bind (scope : ScopeId) (name : String) (v : Value)

namespace Store

/-- Does an operation and answers it, with the scope that was opened or the value that
was bound. -/
def perform (st : Store) : ScopeOp → (ScopeId ⊕ Value) × Store
  | .openScope outer => (.inl (st.openScope outer).1, (st.openScope outer).2)
  | .bind scope name v => (.inr v, st.bind scope name v)

/-- The store that operations lead to from the empty one. The latest comes first. -/
def replay : List ScopeOp → Store
  | [] => empty
  | op :: ops => ((replay ops).perform op).2

end Store

namespace ScopeOp

/-- How many scopes were opened. -/
def opened : List ScopeOp → Nat
  | [] => 0
  | .openScope _ :: ops => opened ops + 1
  | .bind .. :: ops => opened ops

/-- The scope that a scope was opened inside of. -/
def outer? : List ScopeOp → ScopeId → Option ScopeId
  | [], _ => none
  | .openScope outer :: ops, scope => if scope = opened ops then outer else outer? ops scope
  | .bind .. :: ops, scope => outer? ops scope

/-- The value that a name was bound to last in a scope, if it ever was. -/
def bound? : List ScopeOp → ScopeId → String → Option Value
  | [], _, _ => none
  | .openScope _ :: ops, scope, name => bound? ops scope name
  | .bind s x v :: ops, scope, name =>
    if s = scope ∧ x = name then some v else bound? ops scope name

/-- Scopes are opened inside scopes that were opened earlier, and names are bound in
such scopes. -/
def Proper : List ScopeOp → Prop
  | [] => True
  | .openScope outer :: ops => (∀ scope ∈ outer, scope < opened ops) ∧ Proper ops
  | .bind scope _ _ :: ops => scope < opened ops ∧ Proper ops

/-- A scope and the scopes around it, from the inside to the outside. -/
inductive Chain (ops : List ScopeOp) : ScopeId → List ScopeId → Prop where
  | outermost {scope : ScopeId} :
      scope < opened ops → outer? ops scope = none → Chain ops scope [scope]
  | inner {scope outer : ScopeId} {chain : List ScopeId} :
      outer? ops scope = some outer → Chain ops outer chain → Chain ops scope (scope :: chain)

/-- The scope is on the way outwards from the viewer, and the name was never bound on the
part of the way before it. -/
def Sees (ops : List ScopeOp) (viewer scope : ScopeId) (name : String) : Prop :=
  ∃ before after, Chain ops viewer (before ++ scope :: after) ∧
    ∀ inner ∈ before, bound? ops inner name = none

variable {ops : List ScopeOp} {scope outer viewer : ScopeId} {chain : List ScopeId}
  {name x : String} {v : Value}

theorem outer?_lt (hops : Proper ops) (h : outer? ops scope = some outer) : outer < scope := by
  induction ops with
  | nil => cases h
  | cons op ops ih =>
    cases op with
    | openScope o =>
      obtain ⟨houter, hops⟩ := hops
      simp only [outer?] at h
      split at h
      · rename_i hscope
        rw [hscope]
        exact houter outer h
      · exact ih hops h
    | bind => exact ih hops.2 h

theorem lt_opened (h : outer? ops scope = some outer) : scope < opened ops := by
  induction ops with
  | nil => cases h
  | cons op ops ih =>
    cases op with
    | openScope o =>
      simp only [outer?] at h
      split at h
      · rename_i hscope
        exact hscope ▸ Nat.lt_succ_self _
      · exact Nat.lt_succ_of_lt (ih h)
    | bind => exact ih h

theorem bound?_of_opened_le (hops : Proper ops) (h : opened ops ≤ scope) (name : String) :
    bound? ops scope name = none := by
  induction ops with
  | nil => rfl
  | cons op ops ih =>
    cases op with
    | openScope => exact ih hops.2 (Nat.le_of_succ_le h)
    | bind s x v =>
      have hne : s ≠ scope := Nat.ne_of_lt (Nat.lt_of_lt_of_le hops.1 h)
      rw [bound?, if_neg fun hs => hne hs.1]
      exact ih hops.2 h

namespace Chain

theorem unique {other : List ScopeId} (h : Chain ops scope chain) (h' : Chain ops scope other) :
    other = chain := by
  induction h generalizing other with
  | outermost _ houter =>
    cases h' with
    | outermost => rfl
    | inner houter' =>
      rw [houter] at houter'
      cases houter'
  | inner houter _ ih =>
    cases h' with
    | outermost _ houter' =>
      rw [houter] at houter'
      cases houter'
    | inner houter' hchain =>
      rw [houter] at houter'
      cases houter'
      rw [ih hchain]

/-- Outwards is back in time, so no scope comes twice on the way. -/
theorem descends (hops : Proper ops) (h : Chain ops scope chain) :
    (∀ i ∈ chain, i ≤ scope) ∧ chain.Pairwise fun inner outer => outer < inner := by
  induction h with
  | outermost => simp
  | @inner scope outer chain houter _ ih =>
    have hlt := outer?_lt hops houter
    have hbelow : ∀ i ∈ chain, i < scope := fun i hi => Nat.lt_of_le_of_lt (ih.1 i hi) hlt
    refine ⟨?_, List.pairwise_cons.mpr ⟨hbelow, ih.2⟩⟩
    exact List.forall_mem_cons.mpr ⟨Nat.le_refl _, fun i hi => Nat.le_of_lt (hbelow i hi)⟩

/-- Binding a name changes nothing about what is around what. -/
theorem bind (h : Chain ops viewer chain) (scope : ScopeId) (name : String) (v : Value) :
    Chain (.bind scope name v :: ops) viewer chain := by
  induction h with
  | outermost hopened houter => exact .outermost hopened houter
  | inner houter _ ih => exact .inner houter ih

end Chain

/-- The way outwards comes to an end. -/
theorem exists_chain (hops : Proper ops) (hscope : scope < opened ops) :
    ∃ chain, Chain ops scope chain := by
  induction scope using Nat.strongRecOn with
  | ind scope ih =>
    cases houter : outer? ops scope with
    | none => exact ⟨[scope], .outermost hscope houter⟩
    | some outer =>
      have hlt := outer?_lt hops houter
      obtain ⟨chain, hchain⟩ := ih outer hlt (Nat.lt_trans hlt hscope)
      exact ⟨scope :: chain, .inner houter hchain⟩

/-- Whoever sees the scope finds there what is bound now. -/
theorem findSome?_of_sees (hops : Proper ops) (hchain : Chain ops viewer chain)
    (hsees : Sees ops viewer scope name) :
    chain.findSome? (bound? (.bind scope name v :: ops) · name) = some v := by
  obtain ⟨before, after, hway, hbefore⟩ := hsees
  obtain rfl := hchain.unique hway
  have hlater := (List.pairwise_append.mp (hchain.descends hops).2).2.2
  have hnone : before.findSome? (bound? (.bind scope name v :: ops) · name) = none := by
    apply List.findSome?_eq_none_iff.mpr
    intro i hi
    have hne : scope ≠ i := Nat.ne_of_lt (hlater i hi scope List.mem_cons_self)
    rw [bound?, if_neg fun h => hne h.1]
    exact hbefore i hi
  rw [List.findSome?_append, hnone, Option.none_or, List.findSome?_cons, bound?,
    if_pos ⟨rfl, rfl⟩]

/-- To everyone else nothing has changed, and no other name has changed to anyone. -/
theorem findSome?_of_not_sees (hops : Proper ops) (hchain : Chain ops viewer chain)
    (hnot : ¬ (x = name ∧ Sees ops viewer scope name)) :
    chain.findSome? (bound? (.bind scope name v :: ops) · x) = chain.findSome? (bound? ops · x) := by
  have hsame : ∀ i, ¬ (scope = i ∧ name = x) →
      bound? (.bind scope name v :: ops) i x = bound? ops i x := fun i h => if_neg h
  have hcongr : ∀ way : List ScopeId, (∀ i ∈ way, ¬ (scope = i ∧ name = x)) →
      way.findSome? (bound? (.bind scope name v :: ops) · x) = way.findSome? (bound? ops · x) := by
    intro way hway
    induction way with
    | nil => rfl
    | cons i way ih =>
      obtain ⟨hi, hway⟩ := List.forall_mem_cons.mp hway
      rw [List.findSome?_cons, List.findSome?_cons, hsame i hi, ih hway]
  by_cases hx : x = name
  · by_cases hmem : scope ∈ chain
    · obtain ⟨before, after, rfl⟩ := List.append_of_mem hmem
      have hlater := (List.pairwise_append.mp (hchain.descends hops).2).2.2
      have hbefore := hcongr before fun i hi h =>
        Nat.ne_of_lt (hlater i hi scope List.mem_cons_self) h.1
      -- The scope is hidden by one before it, which is found first.
      have hfound : ∃ w, before.findSome? (bound? ops · x) = some w := by
        apply Option.ne_none_iff_exists'.mp
        intro hnone
        have hunbound := List.findSome?_eq_none_iff.mp hnone
        rw [hx] at hunbound
        exact hnot ⟨hx, before, after, hchain, hunbound⟩
      obtain ⟨w, hw⟩ := hfound
      rw [List.findSome?_append, List.findSome?_append, hbefore, hw, Option.some_or,
        Option.some_or]
    · exact hcongr chain fun i hi h => hmem (h.1 ▸ hi)
  · exact hcongr chain fun i _ h => hx h.2.symm

end ScopeOp

open ScopeOp

namespace Store

variable {st st' : Store} {ops : List ScopeOp} {scope viewer : ScopeId} {chain : List ScopeId}
  {name x : String} {v : Value}

theorem size_replay (ops : List ScopeOp) : (replay ops).scopes.size = opened ops := by
  induction ops with
  | nil => rfl
  | cons op ops ih =>
    cases op with
    | openScope outer => simp [replay, perform, Store.openScope, opened, ih]
    | bind scope name v => simp [replay, perform, opened, ih]

/-- A scope has the outer scope that it was given, and the values that were bound last. -/
theorem exists_scope_replay (hops : Proper ops) (hscope : scope < opened ops) :
    ∃ sc, (replay ops).scopes[scope]? = some sc ∧ sc.outer = outer? ops scope ∧
      ∀ name, sc.get? name = bound? ops scope name := by
  induction ops with
  | nil => cases hscope
  | cons op ops ih =>
    cases op with
    | openScope outer =>
      obtain ⟨-, hops⟩ := hops
      simp only [replay, perform, Store.openScope, Array.getElem?_push, size_replay, outer?, bound?]
      by_cases hnew : scope = opened ops
      · rw [if_pos hnew, if_pos hnew]
        refine ⟨⟨outer, []⟩, rfl, rfl, fun name => ?_⟩
        rw [bound?_of_opened_le hops (Nat.le_of_eq hnew.symm)]
        rfl
      · rw [if_neg hnew, if_neg hnew]
        exact ih hops (Nat.lt_of_le_of_ne (Nat.le_of_lt_succ hscope) hnew)
    | bind s x v =>
      obtain ⟨sc, hsc, houter, hget⟩ := ih hops.2 hscope
      simp only [replay, perform, scopes_bind, hsc, outer?, bound?]
      by_cases hs : s = scope
      · rw [if_pos hs]
        refine ⟨sc.bind x v, rfl, houter, fun name => ?_⟩
        rw [Scope.get?_bind, hget]
        by_cases hx : name = x
        · rw [if_pos hx, if_pos ⟨hs, hx.symm⟩]
        · rw [if_neg hx, if_neg fun h => hx h.2.symm]
      · rw [if_neg hs]
        refine ⟨sc, rfl, houter, fun name => ?_⟩
        rw [hget, if_neg fun h => hs h.1]

/-- The first scope on the way outwards in which a name was ever bound settles what it
means. -/
theorem lookup_replay (hops : Proper ops) (h : Chain ops scope chain) (name : String) :
    (replay ops).lookup scope name = chain.findSome? (bound? ops · name) := by
  induction h with
  | @outermost scope hscope houter =>
    obtain ⟨sc, hsc, hscouter, hget⟩ := exists_scope_replay hops hscope
    rw [lookup, hsc]
    simp only [hget, hscouter, houter, List.findSome?_cons, List.findSome?_nil]
    cases bound? ops scope name <;> rfl
  | @inner scope outer chain houter hchain ih =>
    obtain ⟨sc, hsc, hscouter, hget⟩ := exists_scope_replay hops (lt_opened houter)
    rw [lookup, hsc]
    simp only [hget, hscouter, houter, List.findSome?_cons, dif_pos (outer?_lt hops houter), ih]
    cases bound? ops scope name <;> rfl

/-- What operations have made of the scopes: their doing is all that there is to the
scopes of the store. -/
structure MadeBy (st : Store) (ops : List ScopeOp) : Prop where
  proper : Proper ops
  scopes_eq : st.scopes = (replay ops).scopes

namespace MadeBy

theorem size_eq (h : st.MadeBy ops) : st.scopes.size = opened ops := by
  rw [h.scopes_eq, size_replay]

theorem of_scopes_eq (h : st.MadeBy ops) (hscopes : st'.scopes = st.scopes) : st'.MadeBy ops :=
  ⟨h.proper, hscopes.trans h.scopes_eq⟩

theorem openScope (h : st.MadeBy ops) {outer : Option ScopeId}
    (houter : ∀ o ∈ outer, o < opened ops) :
    (st.openScope outer).2.MadeBy (.openScope outer :: ops) := by
  refine ⟨⟨houter, h.proper⟩, ?_⟩
  simp only [replay, perform, Store.openScope, h.scopes_eq]

theorem bind (h : st.MadeBy ops) (hscope : scope < opened ops) (name : String) (v : Value) :
    (st.bind scope name v).MadeBy (.bind scope name v :: ops) := by
  refine ⟨⟨hscope, h.proper⟩, ?_⟩
  simp only [replay, perform, Store.bind, h.scopes_eq]

theorem lookup_eq (h : st.MadeBy ops) (hchain : Chain ops scope chain) (name : String) :
    st.lookup scope name = chain.findSome? (bound? ops · name) := by
  rw [lookup_congr h.scopes_eq, lookup_replay h.proper hchain]

/-- What names mean after a name was bound, to a viewer in any scope. -/
theorem lookup_bind (h : st.MadeBy ops) (hscope : scope < opened ops)
    (hviewer : viewer < opened ops) (name x : String) (v : Value) :
    (x = name → Sees ops viewer scope name → (st.bind scope name v).lookup viewer x = some v) ∧
      (¬ (x = name ∧ Sees ops viewer scope name) →
        (st.bind scope name v).lookup viewer x = st.lookup viewer x) := by
  obtain ⟨chain, hchain⟩ := exists_chain h.proper hviewer
  rw [(h.bind hscope name v).lookup_eq (hchain.bind scope name v), h.lookup_eq hchain]
  constructor
  · rintro rfl hsees
    exact findSome?_of_sees h.proper hchain hsees
  · exact findSome?_of_not_sees h.proper hchain

end MadeBy

end Store

end Monkey
