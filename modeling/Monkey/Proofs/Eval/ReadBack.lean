import Monkey.Proofs.Eval.DictLiteral
import Monkey.Proofs.Eval.InOrder
import Monkey.Proofs.Eval.Sequence
import Monkey.Proofs.Literal

/-!
Values that are read back. What a readable value is shown as is a program: it is parsed
without errors, and wherever it is run, it makes the value anew. Plain values come back as
they were. Objects come back as new ones, with identities of their own; a function has the
same parameters and the same body, and has captured the scope in which the text is run.
-/

open Monkey.Action

namespace Monkey

open Dict

variable {scope : ScopeId} {st mid st' : Store} {v w : Value} {e : Expr}

namespace Value

mutual

/-- The second value is the first one made anew in a scope. Of identities nothing is said. -/
def RemadeIn (scope : ScopeId) : Value → Value → Prop
  | .int m, .int n => n = m
  | .bool b, .bool c => c = b
  | .function _ params body _, .function _ params' body' captured =>
    params' = params ∧ body' = body ∧ captured = scope
  | .vector _ vs, .vector _ ws => EachRemadeIn scope vs ws
  | .dict _ es, .dict _ fs => EntriesRemadeIn scope es fs
  | _, _ => False

def EachRemadeIn (scope : ScopeId) : List Value → List Value → Prop
  | [], [] => True
  | v :: vs, w :: ws => v.RemadeIn scope w ∧ EachRemadeIn scope vs ws
  | _, _ => False

def EntriesRemadeIn (scope : ScopeId) : List (Key × Value) → List (Key × Value) → Prop
  | [], [] => True
  | (k, v) :: es, (l, w) :: fs => l = k ∧ v.RemadeIn scope w ∧ EntriesRemadeIn scope es fs
  | _, _ => False

end

mutual

/-- The identities of the objects in a value. What is inside of an object comes first. -/
def identities : Value → List Nat
  | .function id .. => [id]
  | .vector id vs => identitiesEach vs ++ [id]
  | .dict id es => identitiesEntries es ++ [id]
  | .returned v => v.identities
  | _ => []

def identitiesEach : List Value → List Nat
  | [] => []
  | v :: vs => v.identities ++ identitiesEach vs

def identitiesEntries : List (Key × Value) → List Nat
  | [] => []
  | (_, v) :: es => v.identities ++ identitiesEntries es

end

theorem RemadeIn.isAbrupt_eq_false (h : v.RemadeIn scope w) : w.isAbrupt = false := by
  cases w with
  | returned | error => cases v <;> cases h
  | _ => rfl

theorem EntriesRemadeIn.keys_eq {es fs : List (Key × Value)} (h : EntriesRemadeIn scope es fs) :
    fs.map Prod.fst = es.map Prod.fst := by
  induction es generalizing fs with
  | nil =>
    cases fs with
    | nil => rfl
    | cons => cases h
  | cons p es ih =>
    cases fs with
    | nil => cases h
    | cons q fs =>
      obtain ⟨hkey, -, hes⟩ := h
      rw [List.map_cons, List.map_cons, ih hes]
      exact congrArg (· :: _) hkey

end Value

/-- Between the two stores nothing has happened but that time has passed, and that objects
with these identities were made, one after the other. -/
structure Store.Makes (st st' : Store) (ids : List Nat) : Prop where
  scopes : st'.scopes = st.scopes
  faults : st'.faults = st.faults
  clock : st.clock ≤ st'.clock
  new : ∀ id ∈ ids, st.clock ≤ id ∧ id < st'.clock
  ascending : ids.Pairwise (· < ·)

namespace Store.Makes

variable {ids ids' : List Nat}

theorem refl (st : Store) : st.Makes st [] where
  scopes := rfl
  faults := rfl
  clock := Nat.le_refl _
  new := by simp
  ascending := .nil

theorem tick (st : Store) : st.Makes st.tick [] where
  scopes := rfl
  faults := rfl
  clock := Nat.le_succ _
  new := by simp
  ascending := .nil

/-- An object is made, at the present time. -/
theorem create (st : Store) : st.Makes st.tick [st.clock] where
  scopes := rfl
  faults := rfl
  clock := Nat.le_succ _
  new := by simp [Store.tick]
  ascending := List.pairwise_singleton _ _

theorem append (h : st.Makes mid ids) (h' : mid.Makes st' ids') : st.Makes st' (ids ++ ids') where
  scopes := h'.scopes.trans h.scopes
  faults := h'.faults.trans h.faults
  clock := Nat.le_trans h.clock h'.clock
  new := by
    intro id hid
    rcases List.mem_append.mp hid with hid | hid
    · exact ⟨(h.new id hid).1, Nat.lt_of_lt_of_le (h.new id hid).2 h'.clock⟩
    · exact ⟨Nat.le_trans h.clock (h'.new id hid).1, (h'.new id hid).2⟩
  ascending := by
    refine List.pairwise_append.mpr ⟨h.ascending, h'.ascending, ?_⟩
    intro id hid id' hid'
    exact Nat.lt_of_lt_of_le (h.new id hid).2 (h'.new id' hid').1

theorem after_tick (h : st.tick.Makes st' ids) : st.Makes st' ids :=
  (tick st).append h

end Store.Makes

section Evaluates

theorem Expr.Evaluates.unary {op : UnaryOp} (h : e.Evaluates scope st.tick v st')
    (hproceeds : v.isAbrupt = false) (hop : op.apply v = .ok w) :
    (Expr.unary op e).Evaluates scope st w st' := by
  obtain ⟨depth, he⟩ := h
  refine ⟨depth + 1, (andThen_of_some he hproceeds).trans ?_⟩
  rw [hop]
  rfl

/-- Expressions are evaluated from left to right, and none of their values is abrupt. -/
inductive EachEvaluate (scope : ScopeId) :
    List Expr → Store → List Value → Store → Prop where
  | nil (st : Store) : EachEvaluate scope [] st [] st
  | cons {st mid st' : Store} {e : Expr} {es : List Expr} {v : Value} {vs : List Value} :
      e.Evaluates scope st v mid → v.isAbrupt = false →
      EachEvaluate scope es mid vs st' → EachEvaluate scope (e :: es) st (v :: vs) st'

variable {es : List Expr} {vs : List Value}

theorem EachEvaluate.gather (h : EachEvaluate scope es st vs mid) :
    ∃ enough, ∀ depth ≥ enough, ∀ next,
      gather (fun e => eval depth (.expr e) scope) es next st = next vs mid := by
  induction h with
  | nil st => exact ⟨0, fun _ _ _ => rfl⟩
  | cons he hv _ ih =>
    obtain ⟨forFirst, he⟩ := he.enough
    obtain ⟨forRest, ih⟩ := ih
    refine ⟨max forFirst forRest, fun depth hle next => ?_⟩
    rw [ge_iff_le, Nat.max_le] at hle
    exact (andThen_of_some (he depth hle.1) hv).trans (ih depth hle.2 _)

theorem EachEvaluate.evaluates_vector (h : EachEvaluate scope es st.tick vs mid) :
    (Expr.vector es).Evaluates scope st (.vector mid.clock vs) mid.tick := by
  obtain ⟨enough, hgather⟩ := h.gather
  exact ⟨enough + 1, hgather enough (Nat.le_refl _) fun vs => create fun id => .vector id vs⟩

/-- A program that is one expression comes to what the expression comes to. -/
theorem Expr.Evaluates.program (h : e.Evaluates scope st.tick v st')
    (hproceeds : v.isAbrupt = false) :
    ∃ enough, ∀ depth ≥ enough,
      eval depth (.program [.expr e]) scope st = some (v, st') := by
  obtain ⟨depth, he⟩ := h
  have hblock : eval (depth + 2) (.block [.expr e]) scope st = some (v, st') :=
    andThen_of_some he hproceeds
  have hprogram := eval_program_of_block hblock hproceeds
  exact ⟨depth + 2, fun _ hle => eval_extends hle _ _ _ _ hprogram⟩

end Evaluates

theorem Integer.neg?_neg {n : Int64} (h : n ≠ Int64.minValue) : neg? (-n) = some n := by
  have hrange : Int64.minValue.toInt ≤ n.toInt ∧ n.toInt ≤ Int64.maxValue.toInt := by
    have hle := n.le_toInt
    have hlt := n.toInt_lt
    rw [Int64.toInt_minValue, Int64.toInt_maxValue]
    omega
  unfold neg? ofInt?
  rw [toInt_neg h, Int.neg_neg, if_pos hrange, Int64.ofInt_toInt]

theorem Integer.literal_evaluates {n : Int64} (h : n ≠ Int64.minValue) (scope : ScopeId)
    (st : Store) :
    ∃ st', (Integer.literal n).Evaluates scope st (.int n) st' ∧ st.Makes st' [] := by
  unfold literal
  split
  · exact ⟨st.tick, ⟨1, rfl⟩, .tick st⟩
  · have hnumeral : (Expr.int (-n)).Evaluates scope st.tick (.int (-n)) st.tick.tick := ⟨1, rfl⟩
    have happly : UnaryOp.minus.apply (.int (-n)) = .ok (.int n) := by
      simp only [UnaryOp.apply, neg?_neg h]
    exact ⟨st.tick.tick, hnumeral.unary rfl happly, (Store.Makes.tick st.tick).after_tick⟩

theorem Key.literal_evaluates {key : Key} (h : key.Readable) (scope : ScopeId) (st : Store) :
    ∃ u st', key.literal.Evaluates scope st u st' ∧ u.key? = some key ∧ st.Makes st' [] := by
  cases key with
  | int n =>
    obtain ⟨st', heval, hmakes⟩ := Integer.literal_evaluates h scope st
    exact ⟨.int n, st', heval, rfl, hmakes⟩
  | str text => cases h
  | bool b => exact ⟨.bool b, st.tick, ⟨1, rfl⟩, rfl, .tick st⟩

/-- Wherever the expression is evaluated, it makes the value anew and does nothing else. -/
def Expr.Remakes (e : Expr) (v : Value) : Prop :=
  ∀ scope st, ∃ w st', e.Evaluates scope st w st' ∧ v.RemadeIn scope w ∧
    st.Makes st' w.identities

namespace Value

mutual

theorem literal_remakes : (v : Value) → v.Readable → v.InOrder → v.literal.Remakes v
  | .int n, h, _ => fun scope st => by
    obtain ⟨st', heval, hmakes⟩ := Integer.literal_evaluates h scope st
    exact ⟨.int n, st', heval, rfl, hmakes⟩
  | .bool b, _, _ => fun _ st => ⟨.bool b, st.tick, ⟨1, rfl⟩, rfl, .tick st⟩
  | .function _ params body _, _, _ => fun scope st =>
    ⟨.function st.tick.clock params body scope, st.tick.tick, ⟨1, rfl⟩, ⟨rfl, rfl, rfl⟩,
      (Store.Makes.create st.tick).after_tick⟩
  | .vector _ vs, h, horder => fun scope st => by
    have hvs : ∀ v ∈ vs, v.InOrder := fun v hv => horder.of_mem_parts hv
    obtain ⟨ws, mid, heval, hremade, hmakes⟩ := literalEach_remakes vs h hvs scope st.tick
    exact ⟨.vector mid.clock ws, mid.tick, heval.evaluates_vector, hremade,
      (hmakes.append (.create mid)).after_tick⟩
  | .dict _ es, h, horder => fun scope st => by
    have hes : ∀ e ∈ es, e.2.InOrder := fun e he => horder.of_mem_parts (List.mem_map_of_mem he)
    obtain ⟨fs, mid, heval, hremade, hmakes⟩ := literalEntries_remakes es h hes scope st.tick
    -- The keys are the same ones, so they are still in order.
    have hsame : ofPairs fs = fs := by
      apply Sorted.ofPairs_eq
      unfold Sorted
      rw [hremade.keys_eq]
      exact horder.sorted
    have hdict := heval.evaluates_dict
    rw [hsame] at hdict
    exact ⟨.dict mid.clock fs, mid.tick, hdict, hremade, (hmakes.append (.create mid)).after_tick⟩

theorem literalEach_remakes : (vs : List Value) → EachReadable vs → (∀ v ∈ vs, v.InOrder) →
    ∀ scope st, ∃ ws st', EachEvaluate scope (literalEach vs) st ws st' ∧
      EachRemadeIn scope vs ws ∧ st.Makes st' (identitiesEach ws)
  | [], _, _ => fun _ st => ⟨[], st, .nil st, trivial, .refl st⟩
  | v :: vs, ⟨hv, hvs⟩, horder => fun scope st => by
    obtain ⟨hvOrder, hvsOrder⟩ := List.forall_mem_cons.mp horder
    obtain ⟨w, mid, heval, hremade, hmakes⟩ := v.literal_remakes hv hvOrder scope st
    obtain ⟨ws, st', hevals, hremades, hmakes'⟩ := literalEach_remakes vs hvs hvsOrder scope mid
    exact ⟨w :: ws, st', .cons heval hremade.isAbrupt_eq_false hevals, ⟨hremade, hremades⟩,
      hmakes.append hmakes'⟩

theorem literalEntries_remakes : (es : List (Key × Value)) → EntriesReadable es →
    (∀ e ∈ es, e.2.InOrder) → ∀ scope st, ∃ fs st',
      PairsEvaluate scope (literalEntries es) st fs st' ∧ EntriesRemadeIn scope es fs ∧
        st.Makes st' (identitiesEntries fs)
  | [], _, _ => fun _ st => ⟨[], st, .nil st, trivial, .refl st⟩
  | (key, v) :: es, ⟨hkey, hv, hes⟩, horder => fun scope st => by
    obtain ⟨hvOrder, hesOrder⟩ := List.forall_mem_cons.mp horder
    obtain ⟨u, afterKey, hkeyEval, hu, hmakesKey⟩ := Key.literal_evaluates hkey scope st
    obtain ⟨w, mid, heval, hremade, hmakes⟩ := v.literal_remakes hv hvOrder scope afterKey
    obtain ⟨fs, st', hevals, hremades, hmakes'⟩ := literalEntries_remakes es hes hesOrder scope mid
    exact ⟨(key, w) :: fs, st', .cons hkeyEval hu heval hremade.isAbrupt_eq_false hevals,
      ⟨rfl, hremade, hremades⟩, (hmakesKey.append hmakes).append hmakes'⟩

end

end Value

/-- What a readable value is shown as is parsed to one statement without errors, which makes
the value anew in any scope of any store: with the same plain values, parameters and bodies,
functions that have captured that scope, and objects with identities that nothing had before.
No binding is changed and no fault recorded. Values that come up in a run have their dicts in
order, and a function is shown as its literal is rendered. -/
theorem inspect_reads_back :
    (∀ v : Value, v.Readable → v.InOrder → ∃ s, parse v.inspect = ([s], []) ∧
      ∀ scope st, ∃ w st' enough,
        (∀ depth ≥ enough, eval depth (.program [s]) scope st = some (w, st')) ∧
        v.RemadeIn scope w ∧ st.Makes st' w.identities) ∧
    (∀ st vs, Moment st vs → ∀ v ∈ vs, v.InOrder) ∧
    ∀ id params body scope,
      (Value.function id params body scope).inspect = (Expr.function params body).render := by
  refine ⟨?_, fun _ _ hmoment => hmoment.inOrder, Value.inspect_function⟩
  intro v hv horder
  refine ⟨.expr v.literal, Value.parse_inspect hv, fun scope st => ?_⟩
  obtain ⟨w, st', heval, hremade, hmakes⟩ := v.literal_remakes hv horder scope st.tick
  obtain ⟨enough, hprogram⟩ := heval.program hremade.isAbrupt_eq_false
  exact ⟨w, st', enough, hprogram, hremade, hmakes.after_tick⟩

/-- A dict with a negative key, and a function and a negative integer inside of it; and what
`{1: true}` comes to in a fresh session. -/
theorem inspect_reads_back_nested :
    let f := Value.function 2 ["x"] [.expr (.binary .plus (.ident "x") (.int 1))] 7
    let v := Value.dict 5 [(.int (-3), .vector 4 [f, .int (-1)]), (.bool true, .bool false)]
    v.Readable ∧ v.InOrder ∧
      v.inspect = "\x7b-3: [fn(x) \x7b (x + 1) \x7d, -1], true: false\x7d" ∧
      (∃ s, parse v.inspect = ([s], []) ∧ ∃ w st' enough,
        (∀ depth ≥ enough, eval depth (.program [s]) 0 Session.fresh.store = some (w, st')) ∧
        v.RemadeIn 0 w ∧ Session.fresh.store.Makes st' w.identities) ∧
      (Value.dict 4 [(.int 1, .bool true)]).InOrder := by
  intro f v
  have hx : IsName "x" := by decide
  have hone : 0 ≤ (1 : Int64).toInt := by decide
  have hf : f.Readable := ⟨List.forall_mem_singleton.mpr hx, ⟨hx, hone⟩, trivial⟩
  have hkey : (-3 : Int64) ≠ Int64.minValue := by decide
  have helement : (-1 : Int64) ≠ Int64.minValue := by decide
  have hv : v.Readable := ⟨hkey, ⟨hf, helement, trivial⟩, trivial, trivial, trivial⟩
  have hvector : (Value.vector 4 [f, .int (-1)]).InOrder :=
    .vector 4 (List.forall_mem_cons.mpr
      ⟨.function .., List.forall_mem_singleton.mpr (.plain (.int (-1)))⟩)
  have horder : v.InOrder :=
    .dict 5 (List.pairwise_pair.mpr (.intBool (-3) true))
      (List.forall_mem_cons.mpr ⟨hvector, List.forall_mem_singleton.mpr (.plain (.bool false))⟩)
  obtain ⟨hread, hmoment, -⟩ := inspect_reads_back
  obtain ⟨s, hparse, hrun⟩ := hread v hv horder
  have heval : eval 5 (.program [.expr (.dict [(.int 1, .bool true)])]) 0 Session.fresh.store =
      some (.dict 4 [(.int 1, .bool true)], ⟨#[⟨none, []⟩], 5, []⟩) := rfl
  exact ⟨hv, horder, rfl, ⟨s, hparse, hrun 0 Session.fresh.store⟩,
    hmoment _ _ (Moment.fresh.eval (by decide) heval) _ List.mem_cons_self⟩

end Monkey
