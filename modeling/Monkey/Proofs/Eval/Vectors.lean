import Monkey.Proofs.Eval.Ledger
import Monkey.Proofs.Eval.Moment

/-!
Vectors as lists. `push` and `rest` make a new vector out of one, as appending an element
and dropping the first one make a new list; what is asked of a vector is what is asked of
its list of elements. So after any number of calls, each of which takes what the one before
has made, there is the vector of the list to which the same operations on lists lead. The
vectors on the way are left as they were, and so is whatever has them in it: an object that
comes up later and is identical to one of them has the same elements.
-/

namespace Monkey

/-- A call that makes a vector out of another one. -/
inductive VectorOp where
  | push (x : Value)
  | rest

namespace VectorOp

def builtin : VectorOp → Builtin
  | .push _ => .push
  | .rest => .rest

/-- The arguments after the vector. -/
def others : VectorOp → List Value
  | .push x => [x]
  | .rest => []

def call (depth : Nat) (op : VectorOp) (v : Value) : Action :=
  Monkey.call depth (.builtin op.builtin) (v :: op.others)

/-- What the call takes, besides the vector. -/
def inputs (op : VectorOp) : List Value := .builtin op.builtin :: op.others

/-- What the operation makes of a list. An empty list has no rest. -/
def onList (elements : List Value) : VectorOp → Option (List Value)
  | .push x => some (elements ++ [x])
  | .rest =>
    match elements with
    | [] => none
    | _ :: others => some others

/-- What operations make of a list, one after the other. -/
def listAfter (elements : List Value) (ops : List VectorOp) : Option (List Value) :=
  ops.foldlM onList elements

variable {op : VectorOp} {elements result : List Value}

/-- The vector that is made is a new object, and nothing happens to the store but that time
passes. -/
theorem call_vector (h : op.onList elements = some result) (id depth : Nat) (st : Store) :
    op.call depth (.vector id elements) st = some (.vector st.clock result, st.tick) := by
  cases op with
  | push x =>
    cases h
    rfl
  | rest =>
    cases elements with
    | nil => cases h
    | cons v others =>
      cases h
      rfl

/-- Whatever a call comes to, it binds no name. -/
theorem scopes_call {v w : Value} {depth : Nat} {st st' : Store}
    (h : op.call depth v st = some (w, st')) : st'.scopes = st.scopes := by
  change Action.ofExcept (op.builtin.call st.clock (v :: op.others)) st.tick = some (w, st') at h
  cases hcall : op.builtin.call st.clock (v :: op.others) with
  | ok r =>
    rw [hcall] at h
    cases h
    rfl
  | error e =>
    rw [hcall] at h
    cases h
    rfl

theorem listAfter_cons (op : VectorOp) (ops : List VectorOp) (elements : List Value) :
    listAfter elements (op :: ops) = (op.onList elements).bind (listAfter · ops) :=
  List.foldlM_cons

end VectorOp

/-- What can be asked of a vector with some elements, and what can be made of it: at any
depth and in any store. -/
structure ActsAs (v : Value) (elements : List Value) : Prop where
  push (x : Value) (depth : Nat) (st : Store) :
    call depth (.builtin .push) [v, x] st =
      some (.vector st.clock (elements ++ [x]), st.tick)
  rest {first : Value} {others : List Value} (depth : Nat) (st : Store) :
    elements = first :: others →
    call depth (.builtin .rest) [v] st = some (.vector st.clock others, st.tick)
  rest_nil (depth : Nat) (st : Store) : elements = [] →
    call depth (.builtin .rest) [v] st = some (.null, st.tick)
  len {n : Int64} (depth : Nat) (st : Store) : n.toInt = elements.length →
    call depth (.builtin .len) [v] st = some (.int n, st.tick)
  first (depth : Nat) (st : Store) :
    call depth (.builtin .first) [v] st = some (elements.head?.getD .null, st.tick)
  last (depth : Nat) (st : Store) :
    call depth (.builtin .last) [v] st = some (elements.getLast?.getD .null, st.tick)
  element {i : Int64} {k : Nat} (hk : k < elements.length) : i.toInt = k →
    v.index (.int i) = .ok elements[k]
  no_element {i : Int64} : i.toInt < 0 ∨ elements.length ≤ i.toInt →
    v.index (.int i) = .ok .null
  first_element : v.index (.int 0) = .ok (elements.head?.getD .null)
  last_element {n : Int64} : n.toInt = (elements.length : Int) - 1 →
    v.index (.int n) = .ok (elements.getLast?.getD .null)

theorem index_vector (id : Nat) (elements : List Value) (i : Int64) :
    (Value.vector id elements).index (.int i) =
      .ok ((if 0 ≤ i.toInt then elements[i.toInt.toNat]? else none).getD .null) := rfl

theorem vector_actsAs (id : Nat) (elements : List Value) :
    ActsAs (.vector id elements) elements where
  push x depth st := rfl
  rest := by
    rintro first others depth st rfl
    rfl
  rest_nil := by
    rintro depth st rfl
    rfl
  len := by
    intro n depth st hn
    have hlength : Int64.ofNat elements.length = n := by
      rw [← Int64.ofInt_eq_ofNat, ← hn, Int64.ofInt_toInt]
    rw [← hlength]
    rfl
  first depth st := rfl
  last depth st := rfl
  element := by
    intro i k hk hi
    simp [index_vector, hi, hk]
  no_element := by
    intro i hi
    rw [index_vector]
    split
    · have hle : elements.length ≤ i.toInt.toNat := by omega
      rw [List.getElem?_eq_none hle, Option.getD_none]
    · rfl
  first_element := by
    simp [index_vector, List.head?_eq_getElem?]
  last_element := by
    intro n hn
    rw [index_vector, List.getLast?_eq_getElem?]
    split
    · have hlast : n.toInt.toNat = elements.length - 1 := by omega
      rw [hlast]
    · have hempty : elements = [] := List.length_eq_zero_iff.mp (by omega)
      rw [hempty]
      rfl

/-- The values that a value goes through in a sequence of calls, from the first one to the
last. Each call takes what the one before has come to; what has been done to the store in
between is left open. -/
inductive Course : Value → List VectorOp → List Value → Prop where
  | done (v : Value) : Course v [] [v]
  | call {v w : Value} {op : VectorOp} {ops : List VectorOp} {vs : List Value} {depth : Nat}
      {st st' : Store} :
      op.call depth v st = some (w, st') → Course w ops vs → Course v (op :: ops) (v :: vs)

namespace Course

open VectorOp

variable {id : Nat} {elements result : List Value} {ops : List VectorOp} {vs : List Value}

/-- As long as no rest of an empty list is taken, all calls can be made, one right after
the other. In a run that has what they take, it has all that they come to. -/
theorem exists_course (h : listAfter elements ops = some result) (id : Nat) (st : Store) :
    ∃ vs st', Course (.vector id elements) ops vs ∧ st'.scopes = st.scopes ∧
      ∀ hand, Moment st hand → .vector id elements ∈ hand →
        (∀ op ∈ ops, op.inputs ⊆ hand) →
        ∃ hand', Moment st' hand' ∧ hand ⊆ hand' ∧ vs ⊆ hand' := by
  induction ops generalizing elements id st with
  | nil =>
    refine ⟨_, st, .done _, rfl, fun hand hmoment hv _ => ?_⟩
    have hvs : [.vector id elements] ⊆ hand := List.cons_subset.mpr ⟨hv, List.nil_subset hand⟩
    exact ⟨hand, hmoment, List.Subset.refl hand, hvs⟩
  | cons op ops ih =>
    rw [listAfter_cons] at h
    obtain ⟨next, hop, hnext⟩ := Option.bind_eq_some_iff.mp h
    have hcall := call_vector hop id 0 st
    -- The vector that is made has the present time for its identity.
    obtain ⟨vs, st', hvs, hscopes, hrun⟩ := ih hnext st.clock st.tick
    refine ⟨_, st', .call hcall hvs, hscopes, fun hand hmoment hv hinputs => ?_⟩
    obtain ⟨hop, hops⟩ := List.forall_mem_cons.mp hinputs
    obtain ⟨hbuiltin, hothers⟩ := List.cons_subset.mp hop
    have hafter := hmoment.call hbuiltin (List.forall_mem_cons.mpr ⟨hv, hothers⟩) hcall
    obtain ⟨hand', hmoment', hhand, hmade⟩ := hrun _ hafter List.mem_cons_self
      fun op hmem => List.subset_cons_of_subset _ (hops op hmem)
    have hhand' : hand ⊆ hand' := List.Subset.trans (List.subset_cons_self _ _) hhand
    exact ⟨hand', hmoment', hhand', List.cons_subset.mpr ⟨hhand' hv, hmade⟩⟩

/-- After some of the calls there is the vector of the list to which they lead. -/
theorem exists_getElem? (h : Course (.vector id elements) ops vs) {k : Nat}
    (hk : k ≤ ops.length) (hlist : listAfter elements (ops.take k) = some result) :
    ∃ id', vs[k]? = some (.vector id' result) := by
  induction ops generalizing elements id vs k with
  | nil =>
    cases h
    obtain rfl : k = 0 := Nat.le_zero.mp hk
    cases hlist
    exact ⟨id, rfl⟩
  | cons op ops ih =>
    cases h with
    | call hcall hrest =>
    cases k with
    | zero =>
      cases hlist
      exact ⟨id, rfl⟩
    | succ k =>
      rw [List.take_succ_cons, listAfter_cons] at hlist
      obtain ⟨next, hop, hnext⟩ := Option.bind_eq_some_iff.mp hlist
      rw [call_vector hop] at hcall
      cases hcall
      obtain ⟨id', hvs⟩ := ih hrest (Nat.le_of_succ_le_succ hk) hnext
      exact ⟨id', by simpa using hvs⟩

end Course

namespace Session.Shows

variable {s : Session} {hand : List Value} {u v x : Value}

/-- What comes up at a moment is in one ledger with all that is in hand. -/
theorem exists_ledger (hx : Shows v s x) (h : Moment s.store hand) (hv : v ∈ hand) :
    ∃ w : Ledger, w.store = s.store ∧ w.Holds x ∧ ∀ u ∈ hand, w.Holds u := by
  obtain ⟨w, hstore, hhand⟩ := h.exists_world Ledger.growth Ledger.fresh rfl
  exact ⟨w, hstore, hx.holds hstore (hhand v hv), hhand⟩

/-- If it is identical to a value in hand, it is that value. -/
theorem eq_of_isIdentical (hx : Shows v s x) (h : Moment s.store hand) (hv : v ∈ hand)
    (hu : u ∈ hand) (hid : x.isIdentical u = true) : x = u := by
  obtain ⟨w, -, hxheld, hhand⟩ := hx.exists_ledger h hv
  exact hxheld.filed.eq_of_isIdentical (hhand u hu).filed hid

/-- It is not identical to a vector that is made now. -/
theorem isIdentical_made (hx : Shows v s x) (h : Moment s.store hand) (hv : v ∈ hand)
    (made : List Value) : x.isIdentical (.vector s.store.clock made) = false := by
  obtain ⟨w, hstore, hxheld, -⟩ := hx.exists_ledger h hv
  have hold : x.identity? ≠ some s.store.clock := by
    intro hid
    have hlt := Value.Within.identity_lt hxheld.held hid
    rw [hstore] at hlt
    exact Nat.lt_irrefl _ hlt
  exact (Value.isIdentical_eq_false hold rfl).1

end Session.Shows

/-- A vector acts as the list of its elements. As long as no rest of an empty vector is
taken, calls can be made in sequence, also in a run, and after each of them there is a vector
of the list to which the operations lead. No call binds a name; whatever comes up in the run
and is identical to a vector on the way has its elements, and a vector that is made next is
identical to nothing that comes up. -/
theorem vectors_act_as_lists (id : Nat) (elements : List Value) :
    ActsAs (.vector id elements) elements ∧
    (∀ ops result, VectorOp.listAfter elements ops = some result → ∀ st : Store, ∃ vs st',
      Course (.vector id elements) ops vs ∧ st'.scopes = st.scopes ∧
      ∀ hand, Moment st hand → .vector id elements ∈ hand →
        (∀ op ∈ ops, VectorOp.inputs op ⊆ hand) →
        ∃ hand', Moment st' hand' ∧ hand ⊆ hand' ∧ vs ⊆ hand') ∧
    (∀ op depth v st w st', VectorOp.call depth op v st = some (w, st') →
      st'.scopes = st.scopes) ∧
    ∀ ops vs, Course (.vector id elements) ops vs →
      (∀ k ≤ ops.length, ∀ result, VectorOp.listAfter elements (ops.take k) = some result →
        ∃ id', vs[k]? = some (.vector id' result)) ∧
      ∀ (s : Session) hand, Moment s.store hand → vs ⊆ hand →
        ∀ v ∈ hand, ∀ x, Session.Shows v s x →
          (∀ u ∈ vs, x.isIdentical u = true → x = u) ∧
          ∀ made, x.isIdentical (.vector s.store.clock made) = false := by
  refine ⟨vector_actsAs id elements, fun ops result h => Course.exists_course h id,
    fun op depth v st w st' h => VectorOp.scopes_call h, ?_⟩
  intro ops vs hcourse
  refine ⟨fun k hk result hlist => hcourse.exists_getElem? hk hlist, ?_⟩
  intro s hand hmoment hvs v hv x hx
  refine ⟨fun u hu hid => ?_, hx.isIdentical_made hmoment hv⟩
  exact hx.eq_of_isIdentical hmoment hv (hvs hu) hid

/-- In a run that has bound `a` to `[1]`: `push(a, a)`, and then the rest of that. The
vector `a` is inside of both vectors that are made. -/
theorem vectors_act_as_lists_shared :
    let a := Value.vector 3 [.int 1]
    let scopes : Array Scope := #[⟨none, [("a", a)]⟩]
    let ops := [VectorOp.push a, .rest]
    let pushed := Value.vector 7 [.int 1, a]
    let others := Value.vector 8 [a]
    let s : Session := ⟨⟨scopes, 9, []⟩, 0⟩
    (∃ vs st' hand, Course a ops vs ∧ Moment st' hand ∧ vs ⊆ hand) ∧
      Course a ops [a, pushed, others] ∧ (∃ id, others = .vector id [a]) ∧
      (∃ hand, Moment s.store hand ∧ [a, pushed, others] ⊆ hand) ∧
      Session.Shows others s a ∧
      (∀ x, Session.Shows others s x → x.isIdentical a = true → x = a) ∧
      call 0 (.builtin .rest) [a] s.store = some (.vector 9 [], s.store.tick) ∧
      call 0 (.builtin .rest) [.vector 9 []] s.store.tick = some (.null, s.store.tick.tick) ∧
      call 0 (.builtin .len) [a] s.store = some (.int 1, s.store.tick) ∧
      a.index (.int 0) = .ok (.int 1) ∧ a.index (.int (-1)) = .ok .null := by
  intro a scopes ops pushed others s
  have hlet : eval 3 (.statement (.let "a" (.vector [.int 1]))) 0 Session.fresh.store =
    some (.null, ⟨scopes, 5, []⟩) := rfl
  have hname : Store.lookup ⟨scopes, 5, []⟩ 0 "a" = some a := Store.lookup_of_get? rfl rfl
  have hbuiltin : ∀ (b : Builtin) (clock : Nat),
      eval 1 (.expr (.ident b.name)) 0 ⟨scopes, clock, []⟩ =
        some (.builtin b, ⟨scopes, clock + 1, []⟩) := by
    intro b clock
    change Action.resolve 0 b.name ⟨scopes, clock + 1, []⟩ = _
    rw [Action.resolve, Store.lookup]
    cases b <;> rfl
  have hroot : 0 < scopes.size := by decide
  have hbound : Moment ⟨scopes, 5, []⟩ [a, .null] :=
    (Moment.fresh.eval (by decide) hlet).lookup hname
  have hnamed : Moment ⟨scopes, 7, []⟩ [.builtin .rest, .builtin .push, a, .null] :=
    (hbound.eval hroot (hbuiltin .push 5)).eval hroot (hbuiltin .rest 6)
  have hpush : (VectorOp.push a).call 0 a ⟨scopes, 7, []⟩ =
    some (pushed, ⟨scopes, 8, []⟩) := rfl
  have hrest : VectorOp.rest.call 0 pushed ⟨scopes, 8, []⟩ = some (others, s.store) := rfl
  have hcourse : Course a ops [a, pushed, others] := .call hpush (.call hrest (.done others))
  have hmoment : Moment s.store [others, pushed, .builtin .rest, .builtin .push, a, .null] := by
    have hpushed := hnamed.call (by simp [VectorOp.builtin]) (by simp [VectorOp.others]) hpush
    exact hpushed.call (by simp [VectorOp.builtin]) (by simp [VectorOp.others]) hrest
  have hhand : [a, pushed, others] ⊆
      [others, pushed, .builtin .rest, .builtin .push, a, .null] := by
    simp
  have hinputs : ∀ op ∈ ops,
      VectorOp.inputs op ⊆ [.builtin .rest, .builtin .push, a, .null] := by
    simp [ops, VectorOp.inputs, VectorOp.builtin, VectorOp.others]
  obtain ⟨hacts, hexists, -, hcourses⟩ := vectors_act_as_lists 3 [.int 1]
  obtain ⟨vs, st', hvs, -, hrun⟩ := hexists ops [a] rfl ⟨scopes, 7, []⟩
  obtain ⟨hand, hmade, -, hvs_hand⟩ := hrun _ hnamed (by simp [a]) hinputs
  obtain ⟨hlists, hshared⟩ := hcourses ops _ hcourse
  obtain ⟨id, hothers⟩ := hlists 2 (Nat.le_refl _) [a] rfl
  have hinside : Session.Shows others s a := .part .value List.mem_cons_self
  refine ⟨⟨vs, st', hand, hvs, hmade, hvs_hand⟩, hcourse, ⟨id, Option.some.inj hothers⟩,
    ⟨_, hmoment, hhand⟩, hinside, fun x hx => ?_, hacts.rest 0 _ rfl, ?_, hacts.len 0 _ rfl,
    hacts.element Nat.one_pos rfl, hacts.no_element (.inl (by decide))⟩
  · exact (hshared s _ hmoment hhand others List.mem_cons_self x hx).1 a List.mem_cons_self
  · exact (vectors_act_as_lists 9 []).1.rest_nil 0 _ rfl

end Monkey
