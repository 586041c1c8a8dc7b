import Monkey.Proofs.Eval.Ledger
import Monkey.Proofs.Eval.Sequence

/-!
Objects and `==`. A function, vector or dict literal ends with making an object, and so
do `rest` and `push`. The object gets the present time for its identity, and whatever
was there the moment before is made of earlier ones, so that `==` tells it from all of
that. What only hands a value on, on the other hand, makes no object: the value that
comes out is the one that went in, with its identity.
-/

open Monkey.Action

namespace Monkey

namespace Store

variable {st mid st' : Store} {v w : Value}

/-- The value is equal to nothing that is there. -/
def New (st : Store) (v : Value) : Prop :=
  ∀ w, st.Holds w → BinaryOp.equal.apply v w = .ok (.bool false) ∧
    BinaryOp.equal.apply w v = .ok (.bool false)

theorem new_of_identity (hv : v.identity? = some st.clock) : st.New v := by
  intro w hw
  have hne : w.identity? ≠ some st.clock :=
    fun hid => Nat.lt_irrefl _ (Value.Within.identity_lt hw hid)
  obtain ⟨hwv, hvw⟩ := Value.isIdentical_eq_false hne hv
  rw [BinaryOp.apply_equal, BinaryOp.apply_equal, hvw, hwv]
  exact ⟨rfl, rfl⟩

/-- The last thing that was done is that the value was made, as a new object. -/
def EndsWithNew (st : Store) (v : Value) (st' : Store) : Prop :=
  ∃ mid : Store, st.Grown mid ∧ mid.WellFormed ∧ mid.New v ∧ st' = mid.tick

theorem EndsWithNew.of_grown (h : mid.EndsWithNew v st') (hgrown : st.Grown mid) :
    st.EndsWithNew v st' := by
  obtain ⟨last, hgrown', hlast⟩ := h
  exact ⟨last, hgrown.trans hgrown', hlast⟩

end Store

namespace Action

/-- In every well-formed store from a base on, the action ends early or with a new
object. -/
def EndsWithNew (base : Store) (a : Action) : Prop :=
  ∀ st v st', base.Grown st → st.WellFormed → a st = some (v, st') → v.isAbrupt = false →
    st.EndsWithNew v st'

variable {base : Store} {a : Action}

theorem Grounded.of_grown {base' : Store} (ha : a.Grounded base) (hgrown : base.Grown base') :
    a.Grounded base' :=
  fun st v st' hbase => ha st v st' (hgrown.trans hbase)

theorem endsWithNew_create {make : Nat → Value} (hmake : ∀ id, (make id).identity? = some id) :
    (create make).EndsWithNew base := by
  intro st v st' _ hst h _
  cases h
  exact ⟨st, .refl st, hst, Store.new_of_identity (hmake st.clock), rfl⟩

theorem endsWithNew_fail (e : RuntimeError) : (fail e).EndsWithNew base := by
  intro st v st' _ _ h hproceeds
  cases h
  cases hproceeds

theorem endsWithNew_andThen {next : Value → Action} (ha : a.Grounded base)
    (hnext : ∀ mid v, base.Grown mid → (next v).EndsWithNew mid) :
    (a.andThen next).EndsWithNew base := by
  intro st w st' hbase hst h hproceeds
  obtain ⟨-, habrupt⟩ | ⟨v, mid, ha', -, hnext'⟩ := andThen_cases h
  · rw [hproceeds] at habrupt
    cases habrupt
  · have hmid := ha st v mid hbase hst ha'
    have hend := hnext mid v (hbase.trans hmid.grown) mid w st' (.refl mid) hmid.wellFormed
      hnext' hproceeds
    exact hend.of_grown hmid.grown

theorem endsWithNew_gather {run : Expr → Action} (es : List Expr) {next : List Value → Action}
    (hrun : ∀ e, (run e).Grounded base)
    (hnext : ∀ mid vs, base.Grown mid → (next vs).EndsWithNew mid) :
    (gather run es next).EndsWithNew base := by
  induction es generalizing base next with
  | nil => exact hnext base [] (.refl base)
  | cons e es ih =>
    apply endsWithNew_andThen (hrun e)
    intro mid v hgrown
    apply ih fun e => (hrun e).of_grown hgrown
    exact fun mid' vs hgrown' => hnext mid' _ (hgrown.trans hgrown')

theorem endsWithNew_gatherPairs {run : Expr → Action} (ps : List (Expr × Expr))
    {next : List (Key × Value) → Action} (hrun : ∀ e, (run e).Grounded base)
    (hnext : ∀ mid es, base.Grown mid → (next es).EndsWithNew mid) :
    (gatherPairs run ps next).EndsWithNew base := by
  induction ps generalizing base next with
  | nil => exact hnext base [] (.refl base)
  | cons p ps ih =>
    obtain ⟨k, e⟩ := p
    apply endsWithNew_andThen (hrun k)
    intro mid v hgrown
    split
    · exact endsWithNew_fail _
    · apply endsWithNew_andThen ((hrun e).of_grown hgrown)
      intro mid' w hgrown'
      apply ih fun e => (hrun e).of_grown (hgrown.trans hgrown')
      exact fun mid'' es hgrown'' => hnext mid'' _ (hgrown.trans (hgrown'.trans hgrown''))

end Action

/-- The literals of objects. -/
def Expr.makesObject : Expr → Bool
  | .function .. | .vector _ | .dict _ => true
  | _ => false

/-- Each time that the literal of an object is evaluated to the end, it makes a new
one. -/
theorem eval_literal_endsWithNew {depth : Nat} {e : Expr} {scope : ScopeId} {st st' : Store}
    {v : Value} (he : e.makesObject = true) (hst : st.WellFormed)
    (hscope : scope < st.scopes.size) (h : eval depth (.expr e) scope st = some (v, st'))
    (hproceeds : v.isAbrupt = false) : st.EndsWithNew v st' := by
  cases depth with
  | zero => cases h
  | succ depth =>
    have hrun : ∀ e, (eval depth (.expr e) scope).Grounded st.tick :=
      fun e => eval_grounded depth (.expr e) scope st.tick hscope
    have hstep : (step (eval depth) scope (.expr e)).EndsWithNew st.tick := by
      cases e with
      | function params body =>
        change (create fun id => .function id params body scope).EndsWithNew st.tick
        exact endsWithNew_create fun id => rfl
      | vector es =>
        apply endsWithNew_gather es hrun
        exact fun mid vs _ => endsWithNew_create fun id => rfl
      | dict ps =>
        apply endsWithNew_gatherPairs ps hrun
        exact fun mid entries _ => endsWithNew_create fun id => rfl
      | _ => cases he
    exact (hstep st.tick v st' (.refl _) hst.tick h hproceeds).of_grown (.tick st)

theorem Builtin.identity_of_call {b : Builtin} (hb : b = .rest ∨ b = .push) {id : Nat}
    {args : List Value} {v : Value} (h : b.call id args = .ok v) :
    v = .null ∨ v.identity? = some id := by
  unfold Builtin.call at h
  split at h
  · rcases hb with hb | hb <;> cases hb
  · rcases hb with hb | hb <;> cases hb
  · rcases hb with hb | hb <;> cases hb
  · obtain ⟨elements, -, hr⟩ := exists_of_bind_eq_ok h
    split at hr
    · cases hr
      exact .inl rfl
    · cases hr
      exact .inr rfl
  · obtain ⟨elements, -, hr⟩ := exists_of_bind_eq_ok h
    cases hr
    exact .inr rfl
  · cases h
  · cases h

/-- A vector that `rest` or `push` returns is a new one. -/
theorem call_builtin_endsWithNew {depth : Nat} {b : Builtin} (hb : b = .rest ∨ b = .push)
    {args : List Value} {st st' : Store} {v : Value} (hst : st.WellFormed)
    (h : call depth (.builtin b) args st = some (v, st')) (hv : v.type = .vector) :
    st.EndsWithNew v st' := by
  change ofExcept (b.call st.clock args) st.tick = some (v, st') at h
  cases hcall : b.call st.clock args with
  | error e =>
    rw [hcall] at h
    cases h
    cases hv
  | ok r =>
    rw [hcall] at h
    cases h
    obtain rfl | hid := Builtin.identity_of_call hb hcall
    · cases hv
    · exact ⟨st, .refl st, hst, Store.new_of_identity hid, rfl⟩

/-- What only hands a value on: the value that comes out is the one that went in. A part
is evaluated to a depth, and what it is part of to the next one. -/
structure HandsOn (depth : Nat) : Prop where
  name {scope : ScopeId} {name : String} {st : Store} {v : Value} :
    st.lookup scope name = some v →
    eval (depth + 1) (.expr (.ident name)) scope st = some (v, st.tick)
  binding {scope : ScopeId} (name : String) {e : Expr} {st mid : Store} {v : Value} :
    st.WellFormed → scope < st.scopes.size →
    eval depth (.expr e) scope st.tick = some (v, mid) → v.isAbrupt = false →
    ∃ st', eval (depth + 1) (.statement (.let name e)) scope st = some (.null, st') ∧
      st'.lookup scope name = some v
  /-- Of two parameters with one name the later one counts. -/
  call (id : Nat) {params : List String} (body : Block) (outer : ScopeId) {args : List Value}
    (st : Store) : params.length = args.length →
    ∃ inner start, (∀ before name v after, params.zip args = before ++ (name, v) :: after →
        (∀ b ∈ after, b.1 ≠ name) → start.lookup inner name = some v) ∧
      ∀ v st', eval depth (.block body) inner start = some (v, st') →
        call depth (.function id params body outer) args st = some (v.unwrap, st')
  returned {scope : ScopeId} {e : Expr} {st st' : Store} {v : Value} :
    eval depth (.expr e) scope st.tick = some (v, st') → v.isAbrupt = false →
    eval (depth + 1) (.statement (.return e)) scope st = some (.returned v, st')
  /-- A statement ends its block if it is the last one or its value is abrupt. -/
  block {scope : ScopeId} {before after : Block} {s : Statement} {st mid st' : Store}
    {u v : Value} :
    eval (depth + 1) (.block before) scope st = some (u, mid) → u.isAbrupt = false →
    eval depth (.statement s) scope mid = some (v, st') → v.isAbrupt = true ∨ after = [] →
    eval (depth + 1) (.block (before ++ s :: after)) scope st = some (v, st')
  statement (scope : ScopeId) (e : Expr) (st : Store) :
    eval (depth + 1) (.statement (.expr e)) scope st = eval depth (.expr e) scope st.tick
  condition {scope : ScopeId} {c : Expr} (t : Block) (e : Option Block) {st mid : Store}
    {u : Value} :
    eval depth (.expr c) scope st.tick = some (u, mid) → u.isAbrupt = false →
    eval (depth + 1) (.expr (.cond c t e)) scope st =
      if u.isTruthy then eval depth (.block t) scope mid
      else e.elim (some (.null, mid)) fun e => eval depth (.block e) scope mid
  element {scope : ScopeId} {a i : Expr} {st mid st' : Store} {id : Nat} {n : Int64}
    {elements : List Value} {v : Value} :
    eval depth (.expr a) scope st.tick = some (.vector id elements, mid) →
    eval depth (.expr i) scope mid = some (.int n, st') →
    0 ≤ n.toInt → elements[n.toInt.toNat]? = some v →
    eval (depth + 1) (.expr (.index a i)) scope st = some (v, st')
  entry {scope : ScopeId} {a i : Expr} {st mid st' : Store} {id : Nat} {key : Key}
    {entries : List (Key × Value)} {v : Value} :
    eval depth (.expr a) scope st.tick = some (.dict id entries, mid) →
    eval depth (.expr i) scope mid = some (key.value, st') →
    Dict.get? entries key = some v →
    eval (depth + 1) (.expr (.index a i)) scope st = some (v, st')
  first (id : Nat) (v : Value) (vs : List Value) (st : Store) :
    Monkey.call depth (.builtin .first) [.vector id (v :: vs)] st = some (v, st.tick)
  last (id : Nat) (vs : List Value) (v : Value) (st : Store) :
    Monkey.call depth (.builtin .last) [.vector id (vs ++ [v])] st = some (v, st.tick)

theorem index_of_some {depth : Nat} {scope : ScopeId} {a i : Expr} {st mid st' : Store}
    {u w v : Value} (ha : eval depth (.expr a) scope st.tick = some (u, mid))
    (hu : u.isAbrupt = false) (hi : eval depth (.expr i) scope mid = some (w, st'))
    (hw : w.isAbrupt = false) (hv : u.index w = .ok v) :
    eval (depth + 1) (.expr (.index a i)) scope st = some (v, st') := by
  apply (andThen_of_some ha hu).trans
  apply (andThen_of_some hi hw).trans
  rw [hv]
  rfl

theorem handsOn (depth : Nat) : HandsOn depth where
  name := by
    intro scope name st v h
    have hscopes : st.tick.scopes = st.scopes := rfl
    have hv := (Store.lookup_congr hscopes scope name).trans h
    change resolve scope name st.tick = _
    unfold resolve
    rw [hv]
  binding := by
    intro scope name e st mid v hst hscope h hproceeds
    have hmid := eval_grounded depth (.expr e) scope st.tick hscope st.tick v mid (.refl _)
      hst.tick h
    refine ⟨mid.tick.bind scope name v, andThen_of_some h hproceeds, ?_⟩
    have hscope' : scope < mid.tick.scopes.size := Nat.lt_of_lt_of_le hscope hmid.grown.size_le
    have hafter : ∀ b ∈ ([] : List (String × Value)), b.1 ≠ name :=
      fun b hb => absurd hb List.not_mem_nil
    exact Store.lookup_bindAll hscope' [] hafter
  call := by
    intro id params body outer args st hlength
    let opened := (st.tick.openScope (some outer)).2
    have hinner : st.scopes.size < opened.scopes.size := by
      simp [opened, Store.openScope, Store.tick]
    refine ⟨st.scopes.size, opened.bindAll st.scopes.size (params.zip args), ?_, ?_⟩
    · intro before name v after hzip hafter
      rw [hzip]
      exact Store.lookup_bindAll hinner before hafter
    · intro v st' h
      have happly : Monkey.call depth (.function id params body outer) args st =
          enter (eval depth) (params.zip args) body outer st :=
        congrFun (if_pos hlength) st
      rw [happly]
      exact unwrapped_of_some h
  returned := fun h hproceeds => andThen_of_some h hproceeds
  block := by
    intro scope before after s st mid st' u v h hproceeds hs hend
    have hbefore : inSequence (fun s => eval depth (.statement s) scope) .null before st =
      some (u, mid) := h
    change inSequence (fun s => eval depth (.statement s) scope) .null (before ++ s :: after) st = _
    rw [inSequence_append hbefore hproceeds]
    cases hv : v.isAbrupt with
    | true => exact andThen_of_abrupt hs hv
    | false =>
      obtain habrupt | rfl := hend
      · rw [hv] at habrupt
        cases habrupt
      · exact andThen_of_some hs hv
  statement := fun scope e st => rfl
  condition := by
    intro scope c t e st mid u h hproceeds
    apply (andThen_of_some h hproceeds).trans
    split
    · rfl
    · cases e <;> rfl
  element := by
    intro scope a i st mid st' id n elements v ha hi hn hv
    apply index_of_some ha rfl hi rfl
    simp only [Value.index, Value.elementAt?, if_pos hn, hv]
    rfl
  entry := by
    intro scope a i st mid st' id key entries v ha hi hv
    have hkey : key.value.key? = some key := by cases key <;> rfl
    have hproceeds : key.value.isAbrupt = false := by cases key <;> rfl
    apply index_of_some ha rfl hi hproceeds
    simp only [Value.index, hkey, hv]
    rfl
  first := fun id v vs st => rfl
  last := by
    intro id vs v st
    change some (((vs ++ [v]).getLast?).getD .null, st.tick) = _
    rw [List.getLast?_concat]
    rfl

/-- In all that comes up when programs are run one after the other, identical values are one
and the same, and what has come up is still there; evaluation adds its value to it. Each
literal of an object, and each call of `rest` or `push` that comes to a vector, makes a new
object, which is equal to nothing from before. What only hands a value on hands on the very
same one. -/
theorem identity_of_objects :
    (∀ past s, Session.History past s →
      (∀ m ∈ past, ∀ m' ∈ past, ∀ v w, Session.Shows m.1 m.2 v → Session.Shows m'.1 m'.2 w →
        v.isIdentical w = true → v = w) ∧
      s.root < s.store.scopes.size ∧ s.store.WellFormed ∧
      ∀ m ∈ past, ∀ v, Session.Shows m.1 m.2 v → s.store.Holds v) ∧
    (∀ depth node scope st v st', st.WellFormed → scope < st.scopes.size →
      eval depth node scope st = some (v, st') → st.Grounded v st') ∧
    (∀ depth e scope st v st', e.makesObject = true → st.WellFormed → scope < st.scopes.size →
      eval depth (.expr e) scope st = some (v, st') → v.isAbrupt = false →
      st.EndsWithNew v st') ∧
    (∀ depth b args st v st', b = .rest ∨ b = .push → st.WellFormed →
      call depth (.builtin b) args st = some (v, st') → v.type = .vector →
      st.EndsWithNew v st') ∧
    ∀ depth, HandsOn depth := by
  refine ⟨?_, ?_, ?_, ?_, handsOn⟩
  · intro past s h
    obtain ⟨hroot, w, hw, hpast⟩ := h.exists_ledger
    refine ⟨?_, hroot, hw ▸ w.wellFormed, ?_⟩
    · intro m hm m' hm' u v hu hv
      exact (hpast m hm u hu).filed.eq_of_isIdentical (hpast m' hm' v hv).filed
    · intro m hm v hv
      exact hw ▸ (hpast m hm v hv).held
  · intro depth node scope st v st' hst hscope h
    exact eval_grounded depth node scope st hscope st v st' (.refl st) hst h
  · intro depth e scope st v st' he hst hscope h hproceeds
    exact eval_literal_endsWithNew he hst hscope h hproceeds
  · intro depth b args st v st' hb hst h hv
    exact call_builtin_endsWithNew hb hst h hv

/-- The programs `let a = [1]` and `a`, and the literal `[1]` after them. -/
theorem identity_of_objects_vector :
    let v := Value.vector 3 [.int 1]
    let s : Session := ⟨⟨#[⟨none, [("a", v)]⟩], 5, []⟩, 0⟩
    let s' : Session := ⟨⟨#[⟨none, [("a", v)]⟩], 7, []⟩, 0⟩
    Session.History [(v, s'), (.null, s)] s' ∧
      Session.Shows .null s v ∧ Session.Shows v s' v ∧ s'.store.Holds v ∧
      ∃ w st', eval 3 (.expr (.vector [.int 1])) 0 s'.store = some (w, st') ∧
        s'.store.EndsWithNew w st' := by
  intro v s s'
  have hlet : Session.fresh.eval 4 [.let "a" (.vector [.int 1])] = some (.null, s) := rfl
  have hname : s.eval 4 [.expr (.ident "a")] = some (v, s') := by
    have hresolve : Action.resolve 0 "a" ⟨#[⟨none, [("a", v)]⟩], 7, []⟩ =
        some (v, ⟨#[⟨none, [("a", v)]⟩], 7, []⟩) := by
      rw [Action.resolve, Store.lookup]
      rfl
    simp only [s, Session.eval, eval, step, Store.arrive, Store.tick, Action.inSequence,
      Action.unwrapped, Action.andThen, hresolve]
    rfl
  have hpast : Session.History [(v, s'), (.null, s)] s' := .eval (.eval .fresh hlet) hname
  obtain ⟨-, hroot, hst, hholds⟩ := identity_of_objects.1 _ _ hpast
  have hscope : (⟨none, [("a", v)]⟩ : Scope) ∈ s.store.scopes := Array.mem_singleton.mpr rfl
  have hbound : Session.Shows .null s v :=
    .bound (b := ("a", v)) hscope (List.mem_singleton.mpr rfl)
  have hliteral : eval 3 (.expr (.vector [.int 1])) 0 s'.store =
      some (.vector 9 [.int 1], ⟨#[⟨none, [("a", v)]⟩], 10, []⟩) := rfl
  refine ⟨hpast, hbound, .value, hholds (v, s') List.mem_cons_self v .value, _, _, hliteral, ?_⟩
  exact identity_of_objects.2.2.1 3 _ 0 _ _ _ rfl hst hroot hliteral rfl

end Monkey
