import Monkey.Proofs.Eval.Action
import Monkey.Proofs.Operation
import Monkey.Proofs.Store

/-!
What evaluation leads to. A world is a store and what is known of it, and a growth is
a view of evaluation as going from worlds to later worlds, with values that a world
holds and later ones go on holding. `Growth` asks something of each single thing that
is done to a store: there is a later world for it, and an object that is made of values
that are held is held there. Then evaluation of any node comes to a later world that
holds its value.

An action has values in it that its world holds, and comes up with more of them as it
goes on, so that the rules speak of a base, which is the world that an action is first
known in, and of all later worlds.
-/

open Monkey.Action

namespace Monkey

structure Growth where
  World : Type
  store : World → Store
  Later : World → World → Prop
  Holds : World → Value → Prop
  later_refl (w : World) : Later w w
  later_trans {w w' w'' : World} : Later w w' → Later w' w'' → Later w w''
  size_le {w w' : World} : Later w w' → (store w).scopes.size ≤ (store w').scopes.size
  holds_later {w w' : World} {v : Value} : Later w w' → Holds w v → Holds w' v
  holds_plain (w : World) {v : Value} : v.Plain → Holds w v
  holds_builtin (w : World) (b : Builtin) : Holds w (.builtin b)
  holds_error (w : World) (message : String) : Holds w (.error message)
  holds_returned {w : World} {v : Value} : Holds w v → Holds w (.returned v)
  holds_unwrap {w : World} {v : Value} : Holds w v → Holds w v.unwrap
  holds_part {w : World} {u v : Value} : Holds w v → u ∈ v.parts → Holds w u
  holds_lookup {w : World} {scope : ScopeId} {name : String} {v : Value} :
    (store w).lookup scope name = some v → Holds w v
  scope_lt {w : World} {id : Nat} {params : List String} {body : Block} {scope : ScopeId} :
    Holds w (.function id params body scope) → scope < (store w).scopes.size
  tick (w : World) : ∃ w', Later w w' ∧ store w' = (store w).tick
  fail (w : World) (message : String) : ∃ w', Later w w' ∧ store w' = (store w).fail message
  bind {w : World} {v : Value} (scope : ScopeId) (name : String) :
    Holds w v → ∃ w', Later w w' ∧ store w' = (store w).bind scope name v
  openScope {w : World} {outer : ScopeId} : outer < (store w).scopes.size →
    ∃ w', Later w w' ∧ store w' = ((store w).openScope (some outer)).2
  function {w : World} {scope : ScopeId} (params : List String) (body : Block) :
    scope < (store w).scopes.size → ∃ w', Later w w' ∧ store w' = (store w).tick ∧
      Holds w' (.function (store w).clock params body scope)
  vector {w : World} {vs : List Value} : (∀ v ∈ vs, Holds w v) →
    ∃ w', Later w w' ∧ store w' = (store w).tick ∧ Holds w' (.vector (store w).clock vs)
  dict {w : World} {entries : List (Key × Value)} :
    Dict.Sorted entries → (∀ e ∈ entries, Holds w e.2) →
    ∃ w', Later w w' ∧ store w' = (store w).tick ∧ Holds w' (.dict (store w).clock entries)

namespace Growth

variable {G : Growth} {w w' : G.World} {v : Value} {st' : Store}

/-- A later world has the store, and holds the value. -/
def Reaches (G : Growth) (w : G.World) (v : Value) (st' : Store) : Prop :=
  ∃ w', G.Later w w' ∧ G.store w' = st' ∧ G.Holds w' v

theorem Reaches.of_later (h : G.Reaches w' v st') (hlater : G.Later w w') :
    G.Reaches w v st' := by
  obtain ⟨w'', hlater', hstore, hv⟩ := h
  exact ⟨w'', G.later_trans hlater hlater', hstore, hv⟩

/-- Binding values that are held, one after the other. -/
theorem bindAll (scope : ScopeId) {bindings : List (String × Value)}
    (h : ∀ b ∈ bindings, G.Holds w b.2) :
    ∃ w', G.Later w w' ∧ G.store w' = (G.store w).bindAll scope bindings := by
  induction bindings generalizing w with
  | nil => exact ⟨w, G.later_refl w, rfl⟩
  | cons b bindings ih =>
    obtain ⟨hb, hbindings⟩ := List.forall_mem_cons.mp h
    obtain ⟨mid, hlater, hstore⟩ := G.bind scope b.1 hb
    obtain ⟨w', hlater', hstore'⟩ := ih fun c hc => G.holds_later hlater (hbindings c hc)
    refine ⟨w', G.later_trans hlater hlater', ?_⟩
    rw [hstore', hstore]
    rfl

end Growth

namespace Action

/-- In every world from a base on, the action comes to a later world that holds its
value, if it comes to an end. -/
def Grows (G : Growth) (base : G.World) (a : Action) : Prop :=
  ∀ w v st', G.Later base w → a (G.store w) = some (v, st') → G.Reaches w v st'

variable {G : Growth} {base : G.World} {a : Action}

theorem Grows.of_later {base' : G.World} (ha : a.Grows G base) (hlater : G.Later base base') :
    a.Grows G base' :=
  fun w v st' hbase => ha w v st' (G.later_trans hlater hbase)

theorem grows_stuck : stuck.Grows G base := by
  intro w v st' _ h
  cases h

theorem grows_pure {v : Value} (hv : G.Holds base v) : (pure v).Grows G base := by
  intro w u st' hbase h
  cases h
  exact ⟨w, G.later_refl w, rfl, G.holds_later hbase hv⟩

theorem grows_fail (e : RuntimeError) : (fail e).Grows G base := by
  intro w u st' _ h
  cases h
  obtain ⟨w', hlater, hstore⟩ := G.fail w e.message
  exact ⟨w', hlater, hstore, G.holds_error w' e.message⟩

theorem grows_ofExcept {r : Except RuntimeError Value} (hr : ∀ v, r = .ok v → G.Holds base v) :
    (ofExcept r).Grows G base := by
  cases r with
  | ok v => exact grows_pure (hr v rfl)
  | error e => exact grows_fail e

theorem grows_create {make : Nat → Value}
    (hmake : ∀ w, G.Later base w → ∃ w', G.Later w w' ∧ G.store w' = (G.store w).tick ∧
      G.Holds w' (make (G.store w).clock)) :
    (create make).Grows G base := by
  intro w u st' hbase h
  cases h
  exact hmake w hbase

theorem grows_bind (scope : ScopeId) (name : String) {v : Value} (hv : G.Holds base v) :
    (bind scope name v).Grows G base := by
  intro w u st' hbase h
  cases h
  obtain ⟨mid, hlater, hstore⟩ := G.tick w
  obtain ⟨w', hlater', hstore'⟩ :=
    G.bind scope name (G.holds_later (G.later_trans hbase hlater) hv)
  rw [hstore] at hstore'
  exact ⟨w', G.later_trans hlater hlater', hstore', G.holds_plain w' .null⟩

theorem grows_resolve (scope : ScopeId) (name : String) : (resolve scope name).Grows G base := by
  intro w u st' hbase h
  obtain ⟨hu, rfl⟩ | ⟨b, rfl, rfl⟩ | hfail := resolve_cases h
  · exact ⟨w, G.later_refl w, rfl, G.holds_lookup hu⟩
  · exact ⟨w, G.later_refl w, rfl, G.holds_builtin w b⟩
  · exact grows_fail _ _ _ _ hbase hfail

theorem grows_andThen {next : Value → Action} (ha : a.Grows G base)
    (hnext : ∀ mid v, G.Later base mid → G.Holds mid v → (next v).Grows G mid) :
    (a.andThen next).Grows G base := by
  intro w u st' hbase h
  obtain ⟨ha', -⟩ | ⟨v, mid, ha', -, hnext'⟩ := andThen_cases h
  · exact ha w u st' hbase ha'
  · obtain ⟨w', hlater, rfl, hv⟩ := ha w v mid hbase ha'
    have hu := hnext w' v (G.later_trans hbase hlater) hv w' u st' (G.later_refl w') hnext'
    exact hu.of_later hlater

theorem grows_unwrapped (ha : a.Grows G base) : a.unwrapped.Grows G base := by
  intro w u st' hbase h
  obtain ⟨v, ha', rfl⟩ := unwrapped_cases h
  obtain ⟨w', hlater, hstore, hv⟩ := ha w v st' hbase ha'
  exact ⟨w', hlater, hstore, G.holds_unwrap hv⟩

theorem grows_inSequence {run : Statement → Action} {last : Value} (ss : List Statement)
    (hlast : G.Holds base last) (hrun : ∀ s, (run s).Grows G base) :
    (inSequence run last ss).Grows G base := by
  induction ss generalizing base last with
  | nil => exact grows_pure hlast
  | cons s ss ih =>
    apply grows_andThen (hrun s)
    intro mid v hlater hv
    exact ih hv fun s => (hrun s).of_later hlater

theorem grows_gather {run : Expr → Action} (es : List Expr) {next : List Value → Action}
    (hrun : ∀ e, (run e).Grows G base)
    (hnext : ∀ mid vs, G.Later base mid → (∀ v ∈ vs, G.Holds mid v) → (next vs).Grows G mid) :
    (gather run es next).Grows G base := by
  induction es generalizing base next with
  | nil => exact hnext base [] (G.later_refl base) (fun _ hv => absurd hv List.not_mem_nil)
  | cons e es ih =>
    apply grows_andThen (hrun e)
    intro mid v hlater hv
    apply ih fun e => (hrun e).of_later hlater
    intro mid' vs hlater' hvs
    apply hnext mid' _ (G.later_trans hlater hlater')
    exact List.forall_mem_cons.mpr ⟨G.holds_later hlater' hv, hvs⟩

theorem grows_gatherPairs {run : Expr → Action} (ps : List (Expr × Expr))
    {next : List (Key × Value) → Action} (hrun : ∀ e, (run e).Grows G base)
    (hnext : ∀ mid es, G.Later base mid → (∀ e ∈ es, G.Holds mid e.2) →
      (next es).Grows G mid) :
    (gatherPairs run ps next).Grows G base := by
  induction ps generalizing base next with
  | nil => exact hnext base [] (G.later_refl base) (fun _ he => absurd he List.not_mem_nil)
  | cons p ps ih =>
    obtain ⟨k, e⟩ := p
    apply grows_andThen (hrun k)
    intro mid v hlater _
    split
    · exact grows_fail _
    · apply grows_andThen ((hrun e).of_later hlater)
      intro mid' u hlater' hu
      apply ih fun e => (hrun e).of_later (G.later_trans hlater hlater')
      intro mid'' es hlater'' hes
      apply hnext mid'' _ (G.later_trans hlater (G.later_trans hlater' hlater''))
      exact List.forall_mem_cons.mpr ⟨G.holds_later hlater'' hu, hes⟩

end Action

/-- An evaluator of the parts of nodes in scopes that are there. -/
abbrev RunsGrow (G : Growth) (run : Node → ScopeId → Action) : Prop :=
  ∀ node scope base, scope < (G.store base).scopes.size → (run node scope).Grows G base

section Step

variable {G : Growth} {run : Node → ScopeId → Action} {base : G.World}

theorem enter_grows (hrun : RunsGrow G run) {bindings : List (String × Value)}
    (hbindings : ∀ b ∈ bindings, G.Holds base b.2) (body : Block) {outer : ScopeId}
    (houter : outer < (G.store base).scopes.size) :
    (enter run bindings body outer).Grows G base := by
  intro w v st' hbase h
  obtain ⟨ticked, hticked, hstore⟩ := G.tick w
  have houter' : outer < (G.store ticked).scopes.size :=
    Nat.lt_of_lt_of_le houter (G.size_le (G.later_trans hbase hticked))
  obtain ⟨opened, hopened, hstore'⟩ := G.openScope houter'
  have hlater : G.Later w opened := G.later_trans hticked hopened
  obtain ⟨bound, hbound, hstore''⟩ := G.bindAll (G.store w).scopes.size
    fun b hb => G.holds_later (G.later_trans hbase hlater) (hbindings b hb)
  rw [hstore', hstore] at hstore''
  have hinner : (G.store w).scopes.size < (G.store bound).scopes.size := by
    rw [hstore'', Store.size_bindAll]
    simp [Store.openScope, Store.tick]
  have hbody := grows_unwrapped (hrun (.block body) _ bound hinner)
  have hend : ((run (.block body) (G.store w).scopes.size).unwrapped) (G.store bound) =
      some (v, st') := by
    rw [hstore'']
    exact h
  exact (hbody bound v st' (G.later_refl bound) hend).of_later (G.later_trans hlater hbound)

theorem Builtin.call_grows (b : Builtin) {args : List Value}
    (hargs : ∀ v ∈ args, G.Holds base v) : (apply run (.builtin b) args).Grows G base := by
  intro w v st' hbase h
  have hargs' : ∀ u ∈ args, G.Holds w u := fun u hu => G.holds_later hbase (hargs u hu)
  obtain ⟨ticked, hticked, hstore⟩ := G.tick w
  cases hcall : b.call (G.store w).clock args with
  | error e =>
    simp only [apply, hcall] at h
    rw [← hstore] at h
    have hfail : (Action.fail e).Grows G ticked := grows_fail e
    exact (hfail ticked v st' (G.later_refl ticked) h).of_later hticked
  | ok r =>
    simp only [apply, hcall] at h
    cases h
    cases Builtin.makes_of_call hcall with
    | plain hr => exact ⟨ticked, hticked, hstore, G.holds_plain ticked hr⟩
    | part hv hr =>
      have hpart := G.holds_part (hargs' _ hv) hr
      exact ⟨ticked, hticked, hstore, G.holds_later hticked hpart⟩
    | vector hvs =>
      apply G.vector
      intro u hu
      rcases hvs u hu with hu | ⟨x, hx, hu⟩
      · exact hargs' u hu
      · exact G.holds_part (hargs' x hx) hu

theorem apply_grows (hrun : RunsGrow G run) {callee : Value} {args : List Value}
    (hcallee : G.Holds base callee) (hargs : ∀ v ∈ args, G.Holds base v) :
    (apply run callee args).Grows G base := by
  cases callee with
  | function id params body scope =>
    simp only [apply]
    split
    · apply enter_grows hrun _ body (G.scope_lt hcallee)
      intro b hb
      exact hargs b.2 (List.of_mem_zip hb).2
    · exact grows_fail _
  | builtin b => exact Builtin.call_grows b hargs
  | _ => exact grows_fail _

theorem step_grows (hrun : RunsGrow G run) {scope : ScopeId}
    (hscope : scope < (G.store base).scopes.size) (node : Node) :
    (step run scope node).Grows G base := by
  -- Scopes are never lost, so parts can be evaluated in this one at any later time.
  have hpart : ∀ {mid : G.World}, G.Later base mid → ∀ node, (run node scope).Grows G mid :=
    fun hlater node => hrun node scope _ (Nat.lt_of_lt_of_le hscope (G.size_le hlater))
  have hexpr : ∀ e, (run (.expr e) scope).Grows G base := fun e => hpart (G.later_refl base) _
  have hblock : ∀ ss : List Statement,
      (inSequence (fun s => run (.statement s) scope) .null ss).Grows G base :=
    fun ss => grows_inSequence ss (G.holds_plain base .null) fun s => hpart (G.later_refl base) _
  match node with
  | .program p => exact grows_unwrapped (hblock p)
  | .block b => exact hblock b
  | .statement (.let name e) =>
    exact grows_andThen (hexpr e) fun mid v _ hv => grows_bind scope name hv
  | .statement (.return e) =>
    exact grows_andThen (hexpr e) fun mid v _ hv => grows_pure (G.holds_returned hv)
  | .statement (.expr e) => exact hexpr e
  | .expr (.ident name) => exact grows_resolve scope name
  | .expr (.int n) => exact grows_pure (G.holds_plain base (.int n))
  | .expr (.str text) => exact grows_pure (G.holds_plain base (.str text))
  | .expr (.bool b) => exact grows_pure (G.holds_plain base (.bool b))
  | .expr (.unary op a) =>
    apply grows_andThen (hexpr a)
    intro mid v _ _
    exact grows_ofExcept fun r hr => G.holds_plain mid (UnaryOp.plain_of_apply hr)
  | .expr (.binary op a b) =>
    apply grows_andThen (hexpr a)
    intro mid v hlater _
    apply grows_andThen (hpart hlater _)
    intro mid' u _ _
    exact grows_ofExcept fun r hr => G.holds_plain mid' (BinaryOp.plain_of_apply hr)
  | .expr (.cond c t e) =>
    apply grows_andThen (hexpr c)
    intro mid v hlater _
    split
    · exact hpart hlater _
    · split
      · exact hpart hlater _
      · exact grows_pure (G.holds_plain mid .null)
  | .expr (.function params body) =>
    change (create fun id => .function id params body scope).Grows G base
    apply grows_create
    intro w hlater
    exact G.function params body (Nat.lt_of_lt_of_le hscope (G.size_le hlater))
  | .expr (.call f args) =>
    apply grows_andThen (hexpr f)
    intro mid callee hlater hcallee
    apply grows_gather args fun e => hpart hlater _
    intro mid' vs hlater' hvs
    exact apply_grows hrun (G.holds_later hlater' hcallee) hvs
  | .expr (.vector es) =>
    apply grows_gather es hexpr
    intro mid vs _ hvs
    apply grows_create
    intro w hlater
    exact G.vector fun v hv => G.holds_later hlater (hvs v hv)
  | .expr (.dict ps) =>
    apply grows_gatherPairs ps hexpr
    intro mid entries _ hentries
    apply grows_create
    intro w hlater
    apply G.dict (Dict.sorted_ofPairs entries)
    intro e he
    exact G.holds_later hlater (hentries e (Dict.mem_of_mem_ofPairs he))
  | .expr (.index a i) =>
    apply grows_andThen (hexpr a)
    intro mid v hlater hv
    apply grows_andThen (hpart hlater _)
    intro mid' u hlater' _
    apply grows_ofExcept
    intro r hr
    rcases Value.plain_or_mem_of_index hr with hr | hr
    · exact G.holds_plain mid' hr
    · exact G.holds_part (G.holds_later hlater' hv) hr

end Step

/-- At every depth, evaluation comes to a later world that holds its value. -/
theorem eval_grows (G : Growth) (depth : Nat) : RunsGrow G (eval depth) := by
  induction depth with
  | zero => exact fun _ _ _ _ => grows_stuck
  | succ depth ih =>
    intro node scope base hscope w v st' hbase h
    obtain ⟨arrived, hlater, hstore⟩ :
        ∃ w', G.Later w w' ∧ G.store w' = (G.store w).arrive node := by
      cases node with
      | program p | block b => exact ⟨w, G.later_refl w, rfl⟩
      | statement s | expr e => exact G.tick w
    have hend : step (eval depth) scope node (G.store arrived) = some (v, st') := by
      rw [hstore]
      exact h
    have hbase' := G.later_trans hbase hlater
    exact (step_grows ih hscope node arrived v st' hbase' hend).of_later hlater

theorem call_grows (G : Growth) (depth : Nat) {w : G.World} {callee : Value} {args : List Value}
    {v : Value} {st' : Store} (hcallee : G.Holds w callee) (hargs : ∀ a ∈ args, G.Holds w a)
    (h : call depth callee args (G.store w) = some (v, st')) : G.Reaches w v st' :=
  apply_grows (eval_grows G depth) hcallee hargs w v st' (G.later_refl w) h

end Monkey
