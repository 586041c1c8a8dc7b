import Monkey.Proofs.Eval.Clean
import Monkey.Proofs.Eval.Growth

/-!
Identities and scopes are taken in turn. In a well-formed store the scope around
another one is older, and what is bound is held: it is made of objects that are
older than the present time, and of functions whose scopes are there. The objects
and scopes that evaluation makes are therefore new, and other ones than any that
a name or a value leads to.

Evaluation of a node in a well-formed store leaves a well-formed store, and its
value is held there. All stores that programs lead to are well-formed.
-/

namespace Monkey

namespace Value

/-- Made of objects from before a time and of scopes below a number. -/
inductive Within (clock size : Nat) : Value → Prop where
  | int (n : Int64) : Within clock size (.int n)
  | str (text : String) : Within clock size (.str text)
  | bool (b : Bool) : Within clock size (.bool b)
  | null : Within clock size .null
  | builtin (b : Builtin) : Within clock size (.builtin b)
  | error (message : String) : Within clock size (.error message)
  | returned {v : Value} : Within clock size v → Within clock size (.returned v)
  | function {id : Nat} {scope : ScopeId} (params : List String) (body : Block) :
      id < clock → scope < size → Within clock size (.function id params body scope)
  | vector {id : Nat} {elements : List Value} :
      id < clock → (∀ v ∈ elements, Within clock size v) → Within clock size (.vector id elements)
  | dict {id : Nat} {entries : List (Key × Value)} :
      id < clock → (∀ e ∈ entries, Within clock size e.2) → Within clock size (.dict id entries)

namespace Within

variable {clock clock' size size' : Nat} {v w : Value}

theorem mono (h : v.Within clock size) (hclock : clock ≤ clock') (hsize : size ≤ size') :
    v.Within clock' size' := by
  induction h with
  | int n => exact .int n
  | str text => exact .str text
  | bool b => exact .bool b
  | null => exact .null
  | builtin b => exact .builtin b
  | error message => exact .error message
  | returned _ ih => exact .returned ih
  | function params body hid hscope =>
    exact .function params body (Nat.lt_of_lt_of_le hid hclock) (Nat.lt_of_lt_of_le hscope hsize)
  | vector hid _ ih => exact .vector (Nat.lt_of_lt_of_le hid hclock) ih
  | dict hid _ ih => exact .dict (Nat.lt_of_lt_of_le hid hclock) ih

theorem of_plain (h : v.Plain) : v.Within clock size := by
  cases h with
  | int n => exact .int n
  | str text => exact .str text
  | bool b => exact .bool b
  | null => exact .null

theorem of_mem_parts (h : v.Within clock size) (hw : w ∈ v.parts) : w.Within clock size := by
  cases h with
  | vector _ helements => exact helements w hw
  | dict _ hentries =>
    obtain ⟨e, he, rfl⟩ := List.mem_map.mp hw
    exact hentries e he
  | _ => cases hw

theorem unwrap (h : v.Within clock size) : v.unwrap.Within clock size := by
  cases h with
  | returned hv => exact hv
  | int n => exact .int n
  | str text => exact .str text
  | bool b => exact .bool b
  | null => exact .null
  | builtin b => exact .builtin b
  | error message => exact .error message
  | function params body hid hscope => exact .function params body hid hscope
  | vector hid helements => exact .vector hid helements
  | dict hid hentries => exact .dict hid hentries

end Within

end Value

namespace Store

/-- Made of objects and scopes that are there. -/
def Holds (st : Store) (v : Value) : Prop :=
  v.Within st.clock st.scopes.size

/-- No store is otherwise that came about by evaluation: the identity of an object is
the time at which it was made, and a scope is opened inside one that is there. -/
structure WellFormed (st : Store) : Prop where
  outer_lt : ∀ (i : ScopeId) (sc : Scope) (outer : ScopeId),
    st.scopes[i]? = some sc → sc.outer = some outer → outer < i
  holds : st.EveryBound st.Holds

/-- A store in which more objects and scopes are there. -/
structure Grown (st st' : Store) : Prop where
  clock_le : st.clock ≤ st'.clock
  size_le : st.scopes.size ≤ st'.scopes.size

variable {st mid st' : Store} {v w : Value}

theorem Grown.refl (st : Store) : st.Grown st := ⟨Nat.le_refl _, Nat.le_refl _⟩

theorem Grown.trans (h : st.Grown mid) (h' : mid.Grown st') : st.Grown st' :=
  ⟨Nat.le_trans h.clock_le h'.clock_le, Nat.le_trans h.size_le h'.size_le⟩

theorem Grown.tick (st : Store) : st.Grown st.tick := ⟨Nat.le_succ _, Nat.le_refl _⟩

theorem Grown.fail (st : Store) (message : String) : st.Grown (st.fail message) :=
  ⟨Nat.le_refl _, Nat.le_refl _⟩

theorem Grown.bind (st : Store) (scope : ScopeId) (name : String) (v : Value) :
    st.Grown (st.bind scope name v) :=
  ⟨Nat.le_refl _, Nat.le_of_eq (st.size_bind scope name v).symm⟩

theorem Grown.openScope (st : Store) (outer : Option ScopeId) :
    st.Grown (st.openScope outer).2 :=
  ⟨Nat.le_refl _, by simp [Store.openScope]⟩

theorem Grown.holds (h : st.Grown st') (hv : st.Holds v) : st'.Holds v :=
  hv.mono h.clock_le h.size_le

namespace WellFormed

/-- Only what scopes there are and what they bind matters, besides the time. -/
theorem of_scopes_eq (hst : st.WellFormed) (hscopes : st'.scopes = st.scopes)
    (hclock : st.clock ≤ st'.clock) : st'.WellFormed := by
  have hgrown : st.Grown st' := ⟨hclock, Nat.le_of_eq (congrArg Array.size hscopes.symm)⟩
  constructor
  · rw [hscopes]
    exact hst.outer_lt
  · intro sc hsc b hb
    rw [hscopes] at hsc
    exact hgrown.holds (hst.holds sc hsc b hb)

theorem tick (hst : st.WellFormed) : st.tick.WellFormed :=
  hst.of_scopes_eq rfl (Nat.le_succ _)

theorem fail (hst : st.WellFormed) (message : String) : (st.fail message).WellFormed :=
  hst.of_scopes_eq rfl (Nat.le_refl _)

theorem bind (hst : st.WellFormed) (scope : ScopeId) (name : String) (hv : st.Holds v) :
    (st.bind scope name v).WellFormed := by
  constructor
  · intro i sc outer hsc houter
    rw [scopes_bind] at hsc
    split at hsc
    · obtain ⟨old, hold, rfl⟩ := Option.map_eq_some_iff.mp hsc
      exact hst.outer_lt i old outer hold houter
    · exact hst.outer_lt i sc outer hsc houter
  · unfold Holds
    rw [size_bind]
    exact EveryBound.bind hst.holds scope name hv

theorem openScope (hst : st.WellFormed) {outer : Option ScopeId}
    (houter : ∀ o, outer = some o → o < st.scopes.size) : (st.openScope outer).2.WellFormed := by
  constructor
  · intro i sc o hsc hsome
    simp only [Store.openScope, Array.getElem?_push] at hsc
    split at hsc
    · rename_i hi
      cases hsc
      rw [hi]
      exact houter o hsome
    · exact hst.outer_lt i sc o hsc hsome
  · intro sc hsc b hb
    have hb := EveryBound.openScope hst.holds outer sc hsc b hb
    apply hb.mono (Nat.le_refl _)
    simp [Store.openScope]

theorem openInside (hst : st.WellFormed) {outer : ScopeId} (houter : outer < st.scopes.size) :
    (st.openScope (some outer)).2.WellFormed := by
  apply hst.openScope
  rintro _ ⟨⟩
  exact houter

end WellFormed

/-- The outcome of what was evaluated in a well-formed store. -/
structure Grounded (st : Store) (v : Value) (st' : Store) : Prop where
  grown : st.Grown st'
  wellFormed : st'.WellFormed
  holds : st'.Holds v

end Store

namespace Action

/-- Comes in every well-formed store that a base has grown to, if to anything, to
a well-formed store that holds its value. An action may have values of the base in
it, and new bases come up as it goes on. -/
def Grounded (base : Store) (a : Action) : Prop :=
  ∀ st v st', base.Grown st → st.WellFormed → a st = some (v, st') → st.Grounded v st'

end Action

/-- An evaluator of the parts of nodes in scopes that are there. -/
abbrev RunsGrounded (run : Node → ScopeId → Action) : Prop :=
  ∀ node scope base, scope < base.scopes.size → (run node scope).Grounded base

namespace Store

/-- From well-formed stores to others. What is known of such a store is only that it is
well-formed. -/
def growth : Growth where
  World := {st : Store // st.WellFormed}
  store := Subtype.val
  Later w w' := w.1.Grown w'.1
  Holds w v := w.1.Holds v
  later_refl w := .refl w.1
  later_trans h h' := h.trans h'
  size_le h := h.size_le
  holds_later h hv := h.holds hv
  holds_plain _ _ hv := .of_plain hv
  holds_builtin _ b := .builtin b
  holds_error _ message := .error message
  holds_returned hv := .returned hv
  holds_unwrap hv := hv.unwrap
  holds_part hv hu := hv.of_mem_parts hu
  holds_lookup {w _ _ _} h := w.2.holds.lookup h
  scope_lt := by
    rintro w id params body scope (_ | _ | _)
    assumption
  tick w := ⟨⟨w.1.tick, w.2.tick⟩, .tick w.1, rfl⟩
  fail w message := ⟨⟨w.1.fail message, w.2.fail message⟩, .fail w.1 message, rfl⟩
  bind {w v} scope name hv :=
    ⟨⟨w.1.bind scope name v, w.2.bind scope name hv⟩, .bind w.1 scope name v, rfl⟩
  openScope {w outer} houter :=
    ⟨⟨(w.1.openScope (some outer)).2, w.2.openInside houter⟩, .openScope w.1 (some outer), rfl⟩
  function {w _} params body hscope := ⟨⟨w.1.tick, w.2.tick⟩, .tick w.1, rfl,
    .function params body (Nat.lt_succ_self _) hscope⟩
  vector {w _} hvs := ⟨⟨w.1.tick, w.2.tick⟩, .tick w.1, rfl,
    .vector (Nat.lt_succ_self _) fun v hv => (Grown.tick w.1).holds (hvs v hv)⟩
  dict {w _} _ hentries := ⟨⟨w.1.tick, w.2.tick⟩, .tick w.1, rfl,
    .dict (Nat.lt_succ_self _) fun e he => (Grown.tick w.1).holds (hentries e he)⟩

theorem grounded_of_reaches {st st' : Store} {hst : st.WellFormed} {v : Value}
    (h : growth.Reaches ⟨st, hst⟩ v st') : st.Grounded v st' := by
  obtain ⟨w', hgrown, rfl, hv⟩ := h
  exact ⟨hgrown, w'.2, hv⟩

end Store

/-- At every depth, evaluation leaves a well-formed store that holds its value. -/
theorem eval_grounded (depth : Nat) : RunsGrounded (eval depth) := by
  intro node scope base hscope st v st' hbase hst h
  have hscope' : scope < st.scopes.size := Nat.lt_of_lt_of_le hscope hbase.size_le
  exact Store.grounded_of_reaches
    (eval_grows Store.growth depth node scope ⟨st, hst⟩ hscope' ⟨st, hst⟩ v st' (.refl st) h)

theorem call_grounded (depth : Nat) {callee : Value} {args : List Value} {st st' : Store}
    {v : Value} (hst : st.WellFormed) (hcallee : st.Holds callee)
    (hargs : ∀ a ∈ args, st.Holds a) (h : call depth callee args st = some (v, st')) :
    st.Grounded v st' :=
  Store.grounded_of_reaches
    (call_grows Store.growth depth (w := ⟨st, hst⟩) hcallee hargs h)

namespace Session

/-- The root scope is there, and the store is well-formed. -/
structure WellFormed (s : Session) : Prop where
  root_lt : s.root < s.store.scopes.size
  store : s.store.WellFormed

theorem fresh_wellFormed : fresh.WellFormed := by
  have hempty : Store.empty.WellFormed := by
    constructor
    · intro i sc outer hsc
      cases hsc
    · exact Store.EveryBound.empty
  constructor
  · exact Nat.lt_succ_self 0
  · exact hempty.openScope nofun

theorem WellFormed.eval {s s' : Session} {depth : Nat} {p : Program} {v : Value}
    (hs : s.WellFormed) (h : s.eval depth p = some (v, s')) :
    s'.WellFormed ∧ s'.store.Holds v := by
  unfold Session.eval at h
  split at h
  · cases h
  · rename_i w store heval
    cases h
    have hend := eval_grounded depth (.program p) s.root s.store hs.root_lt s.store v store
      (.refl _) hs.store heval
    exact ⟨⟨Nat.lt_of_lt_of_le hs.root_lt hend.grown.size_le, hend.wellFormed⟩, hend.holds⟩

/-- Everything that programs lead to is well-formed. -/
theorem Reachable.wellFormed {s : Session} (h : s.Reachable) : s.WellFormed := by
  induction h with
  | fresh => exact fresh_wellFormed
  | eval _ hrun ih => exact (ih.eval hrun).1

end Session

end Monkey
