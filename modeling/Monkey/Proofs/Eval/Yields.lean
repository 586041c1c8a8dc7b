import Monkey.Eval.Depth
import Monkey.Proofs.Eval.Frame

/-!
What evaluation comes to, whatever depth it takes. An action that is given a depth settles
if it has one and the same outcome at every depth from some on. It yields values with some
property if it settles on one of them from every store in which the names still mean what
they meant in a base store; and these names must mean the same afterwards. So the base is
what is known when an evaluation begins, and it stays known throughout.

There is a rule for each kind of node; between them they take a program apart as it is
written, with errors ending what holds them.
-/

namespace Monkey

namespace Store

/-- A later store, in which all names mean the same in the scopes that were there. -/
structure Agrees (st st' : Store) : Prop where
  size_le : st.scopes.size ≤ st'.scopes.size
  lookup_eq : ∀ i < st.scopes.size, ∀ name, st'.lookup i name = st.lookup i name

/-- A store with one scope more, inside another one, in which some names are bound. -/
def entry (st : Store) (outer : ScopeId) (bindings : List (String × Value)) : Store :=
  (st.tick.openScope (some outer)).2.bindAll st.scopes.size bindings

variable {st st' st'' : Store} {outer : ScopeId}

namespace Agrees

theorem refl (st : Store) : st.Agrees st := ⟨Nat.le_refl _, fun _ _ _ => rfl⟩

theorem trans (h : st.Agrees st') (h' : st'.Agrees st'') : st.Agrees st'' where
  size_le := Nat.le_trans h.size_le h'.size_le
  lookup_eq i hi name := by
    rw [h'.lookup_eq i (Nat.lt_of_lt_of_le hi h.size_le), h.lookup_eq i hi]

theorem of_scopes_eq (h : st'.scopes = st.scopes) : st.Agrees st' where
  size_le := Nat.le_of_eq (congrArg Array.size h.symm)
  lookup_eq i _ name := lookup_congr h i name

end Agrees

theorem Preserved.agrees (h : st.Preserved st') : st.Agrees st' where
  size_le := h.size_le
  lookup_eq i hi name := by
    have hscopes : ∀ j ≤ i, st'.scopes[j]? = st.scopes[j]? :=
      fun j hj => h.scopes_eq j (Nat.lt_of_le_of_lt hj hi)
    apply lookup_congr_own
    · intro j hj
      rw [own?, own?, hscopes j hj]
    · intro j hj
      rw [around?, around?, hscopes j hj]

@[simp] theorem size_entry (st : Store) (outer : ScopeId) (bindings : List (String × Value)) :
    (st.entry outer bindings).scopes.size = st.scopes.size + 1 := by
  rw [entry, size_bindAll]
  exact Array.size_push _

theorem lt_size_entry (st : Store) (outer : ScopeId) (bindings : List (String × Value)) :
    st.scopes.size < (st.entry outer bindings).scopes.size := by
  rw [size_entry]
  exact Nat.lt_succ_self _

theorem agrees_entry (st : Store) (outer : ScopeId) (bindings : List (String × Value)) :
    st.Agrees (st.entry outer bindings) where
  size_le := Nat.le_of_lt (st.lt_size_entry outer bindings)
  lookup_eq i hi name := by
    have hopened : (st.tick.openScope (some outer)).2.lookup i name = st.tick.lookup i name := by
      apply lookup_openScope_of_lt
      exact hi
    rw [entry, lookup_bindAll_of_lt hi, hopened, lookup_tick]

theorem lookup_entry_of_bound (outer : ScopeId) {bindings : List (String × Value)}
    {name : String} {v : Value} (h : bindings.reverse.lookup name = some v) :
    (st.entry outer bindings).lookup st.scopes.size name = some v := by
  have hsize : st.scopes.size < (st.tick.openScope (some outer)).2.scopes.size := by
    simp [openScope, tick]
  rw [entry, lookup_bindAll_self hsize, h, Option.some_or]

/-- In such a scope, a name that is not bound there means what it means around
the scope. -/
theorem lookup_entry (houter : outer < st.scopes.size) (bindings : List (String × Value))
    (name : String) : (st.entry outer bindings).lookup st.scopes.size name =
      (bindings.reverse.lookup name).or (st.lookup outer name) := by
  have hsize : st.scopes.size < (st.tick.openScope (some outer)).2.scopes.size := by
    simp [openScope, tick]
  have hopened : (st.tick.openScope (some outer)).2.lookup st.scopes.size name =
      st.tick.lookup outer name := by
    apply lookup_openScope_self
    exact houter
  rw [entry, lookup_bindAll_self hsize, hopened, lookup_tick]

end Store

namespace Action

/-- At every depth from some on, the action has this outcome. -/
def Settles (a : Nat → Action) (st : Store) (v : Value) (st' : Store) : Prop :=
  ∃ enough, ∀ depth ≥ enough, a depth st = some (v, st')

def SettlesOn (a : Nat → Action) (st : Store) (P : Value → Prop) : Prop :=
  ∃ v st', Settles a st v st' ∧ P v

def Yields (a : Nat → Action) (base : Store) (P : Value → Prop) : Prop :=
  ∀ st, base.Agrees st → ∃ v st', Settles a st v st' ∧ base.Agrees st' ∧ P v

section Settles

variable {a : Nat → Action} {st mid st' : Store} {v w : Value}

theorem settles_const {a : Action} (h : a st = some (v, st')) :
    Settles (fun _ => a) st v st' := ⟨0, fun _ _ => h⟩

theorem settles_andThen {next : Nat → Value → Action} (ha : Settles a st v mid)
    (hproceeds : v.isAbrupt = false) (hnext : Settles (fun d => next d v) mid w st') :
    Settles (fun d => (a d).andThen (next d)) st w st' := by
  obtain ⟨enough, ha⟩ := ha
  obtain ⟨enough', hnext⟩ := hnext
  refine ⟨max enough enough', fun depth hle => ?_⟩
  rw [ge_iff_le, Nat.max_le] at hle
  exact (andThen_of_some (ha depth hle.1) hproceeds).trans (hnext depth hle.2)

theorem settles_andThen_of_abrupt {next : Nat → Value → Action} (ha : Settles a st v st')
    (habrupt : v.isAbrupt = true) : Settles (fun d => (a d).andThen (next d)) st v st' := by
  obtain ⟨enough, ha⟩ := ha
  exact ⟨enough, fun depth hle => andThen_of_abrupt (ha depth hle) habrupt⟩

theorem settles_unwrapped (ha : Settles a st v st') :
    Settles (fun d => (a d).unwrapped) st v.unwrap st' := by
  obtain ⟨enough, ha⟩ := ha
  exact ⟨enough, fun depth hle => unwrapped_of_some (ha depth hle)⟩

/-- A node settles on what its step settles on. -/
theorem settles_eval {node : Node} {scope : ScopeId}
    (h : Settles (fun d => step (eval d) scope node) (st.arrive node) v st') :
    Settles (fun d => eval d node scope) st v st' := by
  obtain ⟨enough, h⟩ := h
  refine ⟨enough + 1, fun depth hle => ?_⟩
  obtain ⟨k, rfl⟩ := Nat.exists_eq_add_of_le' hle
  exact h (k + enough) (Nat.le_add_left _ _)

end Settles

section Yields

variable {a : Nat → Action} {base : Store} {P Q : Value → Prop} {scope : ScopeId}

theorem Yields.settlesOn (ha : Yields a base P) : SettlesOn a base P := by
  obtain ⟨v, st', hsettles, -, hv⟩ := ha base (.refl base)
  exact ⟨v, st', hsettles, hv⟩

theorem Yields.mono (ha : Yields a base P) (himp : ∀ v, P v → Q v) : Yields a base Q := by
  intro st hst
  obtain ⟨v, st', hsettles, hst', hv⟩ := ha st hst
  exact ⟨v, st', hsettles, hst', himp v hv⟩

theorem yields_pure {v : Value} (hv : P v) : Yields (fun _ => pure v) base P :=
  fun st hst => ⟨v, st, settles_const rfl, hst, hv⟩

theorem yields_create {make : Nat → Value} (hmake : ∀ id, P (make id)) :
    Yields (fun _ => create make) base P :=
  fun _ hst => ⟨_, _, settles_const rfl, hst.trans (.of_scopes_eq rfl), hmake _⟩

theorem yields_ofExcept {r : Except RuntimeError Value}
    (hok : ∀ v, r = .ok v → P v) (herror : ∀ e, r = .error e → P (.error e.message)) :
    Yields (fun _ => ofExcept r) base P := by
  intro st hst
  cases r with
  | ok v => exact ⟨v, st, settles_const rfl, hst, hok v rfl⟩
  | error e =>
    exact ⟨_, _, settles_const rfl, hst.trans (.of_scopes_eq rfl), herror e rfl⟩

theorem yields_andThen {next : Nat → Value → Action} (ha : Yields a base P)
    (habrupt : ∀ v, P v → v.isAbrupt = true → Q v)
    (hnext : ∀ v, P v → v.isAbrupt = false → Yields (fun d => next d v) base Q) :
    Yields (fun d => (a d).andThen (next d)) base Q := by
  intro st hst
  obtain ⟨v, mid, hsettles, hmid, hv⟩ := ha st hst
  cases hproceeds : v.isAbrupt with
  | true =>
    exact ⟨v, mid, settles_andThen_of_abrupt hsettles hproceeds, hmid,
      habrupt v hv hproceeds⟩
  | false =>
    obtain ⟨w, st', hsettles', hst', hw⟩ := hnext v hv hproceeds mid hmid
    exact ⟨w, st', settles_andThen hsettles hproceeds hsettles', hst', hw⟩

theorem yields_andThen_of_proceeds {next : Nat → Value → Action} (ha : Yields a base P)
    (hP : ∀ v, P v → v.isAbrupt = false)
    (hnext : ∀ v, P v → Yields (fun d => next d v) base Q) :
    Yields (fun d => (a d).andThen (next d)) base Q := by
  apply yields_andThen ha
  · intro v hv habrupt
    rw [hP v hv] at habrupt
    cases habrupt
  · exact fun v hv _ => hnext v hv

/-- The first action has one outcome only, which does not end the two of them. -/
theorem yields_andThen_eq {next : Nat → Value → Action} {v : Value}
    (ha : Yields a base (· = v)) (hv : v.isAbrupt = false)
    (hnext : Yields (fun d => next d v) base Q) :
    Yields (fun d => (a d).andThen (next d)) base Q := by
  apply yields_andThen_of_proceeds ha
  · rintro _ rfl
    exact hv
  · rintro _ rfl
    exact hnext

theorem yields_eval {node : Node}
    (h : Yields (fun d => step (eval d) scope node) base P) :
    Yields (fun d => eval d node scope) base P := by
  intro st hst
  have harrive : st.Agrees (st.arrive node) := .of_scopes_eq (st.scopes_arrive node)
  obtain ⟨v, st', hsettles, hst', hv⟩ := h (st.arrive node) (hst.trans harrive)
  exact ⟨v, st', settles_eval hsettles, hst', hv⟩

theorem yields_int (n : Int64) :
    Yields (fun d => eval d (.expr (.int n)) scope) base (· = .int n) :=
  yields_eval (yields_pure rfl)

theorem yields_function (params : List String) (body : Block) :
    Yields (fun d => eval d (.expr (.function params body)) scope) base fun v =>
      ∃ id, v = .function id params body scope := by
  apply yields_eval
  change Yields (fun _ => create fun id => .function id params body scope) base _
  exact yields_create fun id => ⟨id, rfl⟩

theorem yields_nil :
    Yields (fun d => eval d (.expr (.vector [])) scope) base fun v => ∃ id, v = .vector id [] := by
  apply yields_eval
  change Yields (fun _ => create fun id => .vector id []) base _
  exact yields_create fun id => ⟨id, rfl⟩

theorem yields_ident {name : String} {v : Value} (hscope : scope < base.scopes.size)
    (h : base.lookup scope name = some v) :
    Yields (fun d => eval d (.expr (.ident name)) scope) base (· = v) := by
  apply yields_eval
  intro st hst
  have hlookup : st.lookup scope name = some v := by rw [hst.lookup_eq scope hscope, h]
  exact ⟨v, st, settles_const (resolve_of_lookup hlookup), hst, rfl⟩

/-- A name that is bound in the scope that has just been entered. -/
theorem yields_bound {st : Store} {outer : ScopeId} {bindings : List (String × Value)}
    {name : String} {v : Value} (h : bindings.reverse.lookup name = some v) :
    Yields (fun d => eval d (.expr (.ident name)) st.scopes.size) (st.entry outer bindings)
      (· = v) :=
  yields_ident (st.lt_size_entry outer bindings) (Store.lookup_entry_of_bound outer h)

/-- A name that is not bound may be the name of a builtin. -/
theorem yields_builtin {b : Builtin} (hscope : scope < base.scopes.size)
    (h : base.lookup scope b.name = none) :
    Yields (fun d => eval d (.expr (.ident b.name)) scope) base (· = .builtin b) := by
  apply yields_eval
  intro st hst
  have hresolve : resolve scope b.name st = some (.builtin b, st) := by
    unfold resolve
    rw [hst.lookup_eq scope hscope, h]
    simp only [Builtin.ofName?_name]
  exact ⟨_, st, settles_const hresolve, hst, rfl⟩

/-- Both operands are evaluated, and neither ends the operation. -/
theorem yields_binary {op : BinaryOp} {a b : Expr} {v w : Value}
    (ha : Yields (fun d => eval d (.expr a) scope) base (· = v)) (hv : v.isAbrupt = false)
    (hb : Yields (fun d => eval d (.expr b) scope) base (· = w)) (hw : w.isAbrupt = false)
    (hop : Yields (fun _ => ofExcept (op.apply v w)) base P) :
    Yields (fun d => eval d (.expr (.binary op a b)) scope) base P := by
  apply yields_eval
  apply yields_andThen_eq ha hv
  apply yields_andThen_eq hb hw
  exact hop

theorem yields_cond {c : Expr} {t e : Block} {b : Bool}
    (hc : Yields (fun d => eval d (.expr c) scope) base (· = .bool b))
    (ht : b = true → Yields (fun d => eval d (.block t) scope) base P)
    (he : b = false → Yields (fun d => eval d (.block e) scope) base P) :
    Yields (fun d => eval d (.expr (.cond c t (some e))) scope) base P := by
  apply yields_eval
  apply yields_andThen_eq hc rfl
  cases b with
  | true => exact ht rfl
  | false => exact he rfl

theorem yields_gather {e : Expr} {es : List Expr} {next : Nat → List Value → Action}
    (he : Yields (fun d => eval d (.expr e) scope) base P)
    (habrupt : ∀ v, P v → v.isAbrupt = true → Q v)
    (hnext : ∀ v, P v → v.isAbrupt = false →
      Yields (fun d => gather (fun e => eval d (.expr e) scope) es fun vs => next d (v :: vs))
        base Q) :
    Yields (fun d => gather (fun e => eval d (.expr e) scope) (e :: es) (next d)) base Q :=
  yields_andThen he habrupt hnext

theorem yields_gather_of_proceeds {e : Expr} {es : List Expr}
    {next : Nat → List Value → Action}
    (he : Yields (fun d => eval d (.expr e) scope) base P) (hP : ∀ v, P v → v.isAbrupt = false)
    (hnext : ∀ v, P v →
      Yields (fun d => gather (fun e => eval d (.expr e) scope) es fun vs => next d (v :: vs))
        base Q) :
    Yields (fun d => gather (fun e => eval d (.expr e) scope) (e :: es) (next d)) base Q :=
  yields_andThen_of_proceeds he hP hnext

theorem yields_gather_eq {e : Expr} {es : List Expr} {next : Nat → List Value → Action}
    {v : Value} (he : Yields (fun d => eval d (.expr e) scope) base (· = v))
    (hv : v.isAbrupt = false)
    (hnext : Yields (fun d => gather (fun e => eval d (.expr e) scope) es fun vs =>
      next d (v :: vs)) base Q) :
    Yields (fun d => gather (fun e => eval d (.expr e) scope) (e :: es) (next d)) base Q :=
  yields_andThen_eq he hv hnext

theorem yields_gather_function {params : List String} {body : Block} {es : List Expr}
    {next : Nat → List Value → Action}
    (hnext : ∀ id, Yields (fun d => gather (fun e => eval d (.expr e) scope) es fun vs =>
      next d (.function id params body scope :: vs)) base Q) :
    Yields (fun d => gather (fun e => eval d (.expr e) scope) (.function params body :: es)
      (next d)) base Q := by
  apply yields_gather_of_proceeds (yields_function params body)
  · rintro _ ⟨id, rfl⟩
    rfl
  · rintro _ ⟨id, rfl⟩
    exact hnext id

theorem yields_call {f : Expr} {args : List Expr} {callee : Value}
    (hf : Yields (fun d => eval d (.expr f) scope) base (· = callee))
    (hproceeds : callee.isAbrupt = false)
    (hargs : Yields (fun d => gather (fun e => eval d (.expr e) scope) args (call d callee))
      base P) :
    Yields (fun d => eval d (.expr (.call f args)) scope) base P := by
  apply yields_eval
  exact yields_andThen_eq hf hproceeds hargs

theorem yields_call_builtin {b : Builtin} {args : List Value}
    (h : ∀ id, ∃ r, b.call id args = .ok r ∧ P r) :
    Yields (fun d => call d (.builtin b) args) base P := by
  intro st hst
  obtain ⟨r, hr, hP⟩ := h st.clock
  have hcall : ofExcept (b.call st.clock args) st.tick = some (r, st.tick) := by
    rw [hr]
    rfl
  exact ⟨r, st.tick, settles_const hcall, hst.trans (.of_scopes_eq rfl), hP⟩

/-- A function yields what its body comes to in a scope of its own. Whatever the body does
there, the scopes that were there before see none of it. -/
theorem yields_call_function {id : Nat} {params : List String} {body : Block}
    {outer : ScopeId} {args : List Value} (harity : params.length = args.length)
    (hbody : ∀ st, base.Agrees st → SettlesOn (fun d => eval d (.block body) st.scopes.size)
      (st.entry outer (params.zip args)) fun v => P v.unwrap) :
    Yields (fun d => call d (.function id params body outer) args) base P := by
  intro st hst
  obtain ⟨v, st', hsettles, hP⟩ := hbody st hst
  have hcall : Settles (fun d => call d (.function id params body outer) args) st v.unwrap
      st' := by
    obtain ⟨enough, hsettles⟩ := settles_unwrapped hsettles
    refine ⟨enough, fun depth hle => ?_⟩
    simp only [call, apply, if_pos harity]
    exact hsettles depth hle
  obtain ⟨enough, hrun⟩ := hcall
  have hpreserved := call_preserved enough (hrun enough (Nat.le_refl _))
  exact ⟨v.unwrap, st', ⟨enough, hrun⟩, hst.trans hpreserved.agrees, hP⟩

theorem yields_block_expr {e : Expr} (h : Yields (fun d => eval d (.expr e) scope) base P) :
    Yields (fun d => eval d (.block [.expr e]) scope) base P := by
  have hstatement : Yields (fun d => eval d (.statement (.expr e)) scope) base P :=
    yields_eval h
  apply yields_eval
  apply yields_andThen hstatement fun v hv _ => hv
  intro v hv _
  exact yields_pure hv

end Yields

section Lets

variable {name : String} {e : Expr} {ss : List Statement} {scope : ScopeId} {base : Store}
  {P Q : Value → Prop}

/-- The name has been bound in the scope, and all other names mean there what they meant. -/
structure LetBinds (scope : ScopeId) (name : String) (v : Value) (base st : Store) : Prop where
  size_le : base.scopes.size ≤ st.scopes.size
  lookup_eq : ∀ x, st.lookup scope x = if x = name then some v else base.lookup scope x

/-- What comes after a `let` starts with the name bound. -/
theorem settlesOn_block_let (hscope : scope < base.scopes.size) (hne : ss ≠ [])
    (he : Yields (fun d => eval d (.expr e) scope) base P)
    (habrupt : ∀ v, P v → v.isAbrupt = true → Q v)
    (hrest : ∀ v st, P v → v.isAbrupt = false → LetBinds scope name v base st →
      SettlesOn (fun d => eval d (.block ss) scope) st Q) :
    SettlesOn (fun d => eval d (.block (.let name e :: ss)) scope) base Q := by
  obtain ⟨v, mid, hsettles, hmid, hv⟩ := he base.tick (.of_scopes_eq rfl)
  cases hproceeds : v.isAbrupt with
  | true =>
    refine ⟨v, mid, ?_, habrupt v hv hproceeds⟩
    apply settles_eval
    apply settles_andThen_of_abrupt _ hproceeds
    exact settles_eval (settles_andThen_of_abrupt hsettles hproceeds)
  | false =>
    have hlet : Settles (fun d => eval d (.statement (.let name e)) scope) base .null
        (mid.tick.bind scope name v) :=
      settles_eval (settles_andThen hsettles hproceeds (settles_const rfl))
    have hbinds : LetBinds scope name v base (mid.tick.bind scope name v) := by
      constructor
      · rw [Store.size_bind]
        exact hmid.size_le
      · intro x
        have hscope' : scope < mid.tick.scopes.size := Nat.lt_of_lt_of_le hscope hmid.size_le
        rw [Store.lookup_bind_self hscope', Store.lookup_tick, hmid.lookup_eq scope hscope]
    obtain ⟨w, st', hsettles', hw⟩ := hrest v _ hv hproceeds hbinds
    refine ⟨w, st', ?_, hw⟩
    apply settles_eval
    apply settles_andThen hlet rfl
    obtain ⟨s, ss, rfl⟩ := List.exists_cons_of_ne_nil hne
    obtain ⟨enough, hsettles'⟩ := hsettles'
    refine ⟨enough, fun depth hle => ?_⟩
    exact hsettles' (depth + 1) (Nat.le_succ_of_le hle)

theorem settlesOn_let_function {params : List String} {body : Block}
    (hscope : scope < base.scopes.size) (hne : ss ≠ [])
    (hrest : ∀ id st, LetBinds scope name (.function id params body scope) base st →
      SettlesOn (fun d => eval d (.block ss) scope) st Q) :
    SettlesOn (fun d => eval d (.block (.let name (.function params body) :: ss)) scope) base Q := by
  apply settlesOn_block_let hscope hne (yields_function params body)
  · rintro _ ⟨id, rfl⟩ ⟨⟩
  · rintro _ st ⟨id, rfl⟩ -
    exact hrest id st

end Lets

end Action

end Monkey
