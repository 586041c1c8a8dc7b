import Monkey.Proofs.Eval.Moment
import Monkey.Proofs.Scoping

/-!
Evaluation and scopes. All that evaluation ever does to the scopes of a store is to open
new ones inside those that are there, and to bind names in those that are there. So at
every moment of a run the scopes are nested maps, and what names mean in them depends on
what was done to them so far, in the way that is said of such operations in general. A
value that is bound in a scope may be a function that has captured this very scope; the
way outwards does not go through values.
-/

namespace Monkey

open ScopeOp

/-- A well-formed store, and the operations that have made its scopes. -/
structure Chronicle where
  ops : List ScopeOp
  store : Store
  wellFormed : store.WellFormed
  madeBy : store.MadeBy ops

namespace Chronicle

/-- More was done, after what was done already. -/
structure Later (w w' : Chronicle) : Prop where
  grown : w.store.Grown w'.store
  ops_suffix : w.ops <:+ w'.ops

/-- With nothing done to the scopes. -/
def move (w : Chronicle) (st : Store) (hst : st.WellFormed) (hscopes : st.scopes = w.store.scopes) :
    Chronicle :=
  ⟨w.ops, st, hst, w.madeBy.of_scopes_eq hscopes⟩

theorem Later.tick (w : Chronicle) : w.Later (w.move w.store.tick w.wellFormed.tick rfl) :=
  ⟨.tick w.store, List.suffix_refl _⟩

/-- From chronicles to longer ones. -/
def growth : Growth where
  World := Chronicle
  store := Chronicle.store
  Later := Later
  Holds w v := w.store.Holds v
  later_refl w := ⟨.refl w.store, List.suffix_refl _⟩
  later_trans h h' := ⟨h.grown.trans h'.grown, h.ops_suffix.trans h'.ops_suffix⟩
  size_le h := h.grown.size_le
  holds_later h hv := h.grown.holds hv
  holds_plain _ _ hv := .of_plain hv
  holds_builtin _ b := .builtin b
  holds_error _ message := .error message
  holds_returned hv := .returned hv
  holds_unwrap hv := hv.unwrap
  holds_part hv hu := hv.of_mem_parts hu
  holds_lookup {w _ _ _} h := w.wellFormed.holds.lookup h
  scope_lt h := Store.growth.scope_lt (w := ⟨_, Chronicle.wellFormed _⟩) h
  tick w := ⟨w.move w.store.tick w.wellFormed.tick rfl, .tick w, rfl⟩
  fail w message := ⟨w.move _ (w.wellFormed.fail message) rfl,
    ⟨.fail w.store message, List.suffix_refl _⟩, rfl⟩
  bind {w v} scope name hv := by
    have hst := w.wellFormed.bind scope name hv
    have hgrown := Store.Grown.bind w.store scope name v
    by_cases hscope : scope < opened w.ops
    · exact ⟨⟨_, _, hst, w.madeBy.bind hscope name v⟩, ⟨hgrown, List.suffix_cons _ _⟩, rfl⟩
    · have hscopes : (w.store.bind scope name v).scopes = w.store.scopes := by
        apply Array.ext_getElem?
        intro i
        rw [Store.scopes_bind]
        split
        · rename_i hi
          have hnone : w.store.scopes[i]? = none := by
            apply Array.getElem?_eq_none
            rw [w.madeBy.size_eq, ← hi]
            exact Nat.le_of_not_lt hscope
          rw [hnone]
          rfl
        · rfl
      exact ⟨w.move _ hst hscopes, ⟨hgrown, List.suffix_refl _⟩, rfl⟩
  openScope {w outer} houter := by
    have hopened : ∀ o ∈ some outer, o < opened w.ops := by
      rintro _ ⟨⟩
      rwa [← w.madeBy.size_eq]
    exact ⟨⟨_, _, w.wellFormed.openInside houter, w.madeBy.openScope hopened⟩,
      ⟨.openScope w.store (some outer), List.suffix_cons _ _⟩, rfl⟩
  function {w _} params body hscope := ⟨_, .tick w, rfl,
    .function params body (Nat.lt_succ_self _) hscope⟩
  vector {w _} hvs := ⟨_, .tick w, rfl,
    .vector (Nat.lt_succ_self _) fun v hv => (Store.Grown.tick w.store).holds (hvs v hv)⟩
  dict {w _} _ hentries := ⟨_, .tick w, rfl,
    .dict (Nat.lt_succ_self _) fun e he => (Store.Grown.tick w.store).holds (hentries e he)⟩

/-- In a fresh session there is the root scope. -/
def fresh : Chronicle where
  ops := [.openScope none]
  store := Session.fresh.store
  wellFormed := Session.fresh_wellFormed.store
  madeBy := ⟨⟨nofun, trivial⟩, rfl⟩

end Chronicle

theorem Moment.exists_ops {st : Store} {vs : List Value} (h : Moment st vs) :
    ∃ ops, st.MadeBy ops := by
  obtain ⟨w, rfl, -⟩ := h.exists_world Chronicle.growth Chronicle.fresh rfl
  exact ⟨w.ops, w.madeBy⟩

theorem eval_suffix {depth : Nat} {node : Node} {scope : ScopeId} {st st' : Store} {v : Value}
    {ops : List ScopeOp} (hst : st.WellFormed) (hops : st.MadeBy ops) (hscope : scope < opened ops)
    (h : eval depth node scope st = some (v, st')) :
    ∃ ops', ops <:+ ops' ∧ st'.MadeBy ops' ∧ st'.WellFormed := by
  have hscope' : scope < st.scopes.size := hops.size_eq ▸ hscope
  have hgrows := eval_grows Chronicle.growth depth node scope ⟨ops, st, hst, hops⟩ hscope'
  obtain ⟨w, hlater, rfl, -⟩ :=
    hgrows ⟨ops, st, hst, hops⟩ v st' (Chronicle.growth.later_refl _) h
  exact ⟨w.ops, hlater.ops_suffix, w.madeBy, w.wellFormed⟩

/-- Whatever a run does to the scopes comes down to operations on nested maps. In scopes that
were made by operations there is one way outwards from each scope, and a name means what it
was bound to last in the first scope on the way that ever bound it. Binding a name changes
what that name means, and nothing else, for the scopes from which the binding is seen. -/
theorem scopes_are_nested_maps :
    (∀ ops, Proper ops → (Store.replay ops).MadeBy ops) ∧
    (∀ st vs, Moment st vs → ∃ ops, st.MadeBy ops) ∧
    (∀ s : Session, s.Reachable → ∃ ops, s.store.MadeBy ops ∧ s.root < opened ops) ∧
    (∀ depth node scope st v st' ops, st.WellFormed → st.MadeBy ops → scope < opened ops →
      eval depth node scope st = some (v, st') →
      ∃ ops', ops <:+ ops' ∧ st'.MadeBy ops' ∧ st'.WellFormed) ∧
    ∀ st ops, Store.MadeBy st ops →
      (∀ scope < opened ops, ∃ chain, Chain ops scope chain ∧
        (∀ other, Chain ops scope other → other = chain) ∧
        (chain.Pairwise fun inner outer => outer < inner) ∧
        ∀ name, st.lookup scope name = chain.findSome? (bound? ops · name)) ∧
      ∀ scope < opened ops, ∀ name v, ∃ st', st.perform (.bind scope name v) = (.inr v, st') ∧
        st'.MadeBy (.bind scope name v :: ops) ∧
        ∀ viewer < opened ops, ∀ x,
          (x = name → Sees ops viewer scope name → st'.lookup viewer x = some v) ∧
          (¬ (x = name ∧ Sees ops viewer scope name) →
            st'.lookup viewer x = st.lookup viewer x) := by
  refine ⟨fun ops hops => ⟨hops, rfl⟩, fun st vs h => h.exists_ops, ?_, ?_, ?_⟩
  · intro s hs
    obtain ⟨vs, hmoment⟩ := hs.moment
    obtain ⟨ops, hops⟩ := hmoment.exists_ops
    exact ⟨ops, hops, hops.size_eq ▸ hs.wellFormed.root_lt⟩
  · intro depth node scope st v st' ops hst hops hscope h
    exact eval_suffix hst hops hscope h
  · intro st ops hops
    refine ⟨fun scope hscope => ?_, fun scope hscope name v => ?_⟩
    · obtain ⟨chain, hchain⟩ := exists_chain hops.proper hscope
      exact ⟨chain, hchain, fun other => hchain.unique, (hchain.descends hops.proper).2,
        hops.lookup_eq hchain⟩
    · exact ⟨_, rfl, hops.bind hscope name v,
        fun viewer hviewer x => hops.lookup_bind hscope hviewer name x v⟩

/-- The program `let x = 1; let f = fn() { f }; fn() { let x = 2; }()`. The root holds a
function that has captured it, and the scope of the call hides `x` in the root. -/
theorem scopes_are_nested_maps_hidden :
    let f := Value.function 5 [] [.expr (.ident "f")] 0
    let st : Store := ⟨#[⟨none, [("x", .int 1), ("f", f)]⟩, ⟨some 0, [("x", .int 2)]⟩], 15, []⟩
    let ops : List ScopeOp := [.bind 1 "x" (.int 2), .openScope (some 0), .bind 0 "f" f,
      .bind 0 "x" (.int 1), .openScope none]
    Session.fresh.eval 6 [.let "x" (.int 1), .let "f" (.function [] [.expr (.ident "f")]),
        .expr (.call (.function [] [.let "x" (.int 2)]) [])] = some (.null, ⟨st, 0⟩) ∧
      (∃ made, st.MadeBy made) ∧ st.MadeBy ops ∧
      st.lookup 1 "f" = some f ∧ st.lookup 1 "x" = some (.int 2) ∧
      ∃ st', st.perform (.bind 0 "x" (.int 3)) = (.inr (.int 3), st') ∧
        st'.lookup 0 "x" = some (.int 3) ∧ st'.lookup 1 "x" = some (.int 2) := by
  intro f st ops
  obtain ⟨hreplay, -, hreach, -, hscopes⟩ := scopes_are_nested_maps
  have hrun : Session.fresh.eval 6 [.let "x" (.int 1),
      .let "f" (.function [] [.expr (.ident "f")]),
      .expr (.call (.function [] [.let "x" (.int 2)]) [])] = some (.null, ⟨st, 0⟩) := rfl
  obtain ⟨made, hmade, -⟩ := hreach ⟨st, 0⟩ (.eval .fresh hrun)
  have hroot : ∀ o ∈ (none : Option ScopeId), o < 0 := nofun
  have houter : ∀ o ∈ some 0, o < opened (ops.drop 2) := by
    rintro _ ⟨⟩
    decide
  have hproper : Proper ops := ⟨by decide, houter, by decide, by decide, hroot, trivial⟩
  have hops : st.MadeBy ops := (hreplay ops hproper).of_scopes_eq rfl
  have hway : Chain ops 1 [1, 0] := .inner rfl (.outermost (by decide) rfl)
  obtain ⟨hmeans, hbinds⟩ := hscopes st ops hops
  obtain ⟨chain, -, hunique, -, hlookup⟩ := hmeans 1 (by decide)
  obtain rfl := hunique _ hway
  obtain ⟨st', hst', -, hviews⟩ := hbinds 0 (by decide) "x" (.int 3)
  refine ⟨hrun, ⟨made, hmade⟩, hops, hlookup "f", hlookup "x", st', hst', ?_, ?_⟩
  · exact (hviews 0 (by decide) "x").1 rfl ⟨[], [], .outermost (by decide) rfl, nofun⟩
  · have hhidden : ¬ Sees ops 1 0 "x" := by
      rintro ⟨before, after, hother, hbefore⟩
      have heq := hunique _ hother
      cases before with
      | nil => cases heq
      | cons i before =>
        obtain rfl : i = 1 := (List.cons.inj heq).1
        cases hbefore 1 List.mem_cons_self
    exact ((hviews 1 (by decide) "x").2 fun h => hhidden h.2).trans (hlookup "x")

end Monkey
