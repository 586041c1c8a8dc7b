import Monkey.Proofs.Eval.Yields

/-!
Loops over a vector, written in the language. A function that is bound to a name in the scope
of a call finds itself there, after it has captured this scope, and calls itself with the rest
of the vector. Such a loop computes a fold, one element after the other, and the first error
that comes up is what it comes to. Map is the loop that pushes what a function makes of the
elements, and reduce is the loop that applies a function.
-/

open Monkey.Action

namespace Monkey

namespace MapReduce

/-- `if (len(arr) == 0) { acc } else { iter(rest(arr), next) }` -/
def loopBody (acc : String) (next : Expr) : Block :=
  [.expr (.cond (.binary .equal (.call (.ident "len") [.ident "arr"]) (.int 0))
    [.expr (.ident acc)]
    (some [.expr (.call (.ident "iter") [.call (.ident "rest") [.ident "arr"], next])]))]

/-- `let iter = fn(arr, acc) { … }; iter(arr, start)` -/
def loop (acc : String) (next start : Expr) : Block :=
  [.let "iter" (.function ["arr", acc] (loopBody acc next)),
    .expr (.call (.ident "iter") [.ident "arr", start])]

def firstElement : Expr := .call (.ident "first") [.ident "arr"]

/-- `push(accumulated, f(first(arr)))` -/
def mapNext : Expr :=
  .call (.ident "push") [.ident "accumulated", .call (.ident "f") [firstElement]]

/-- `f(result, first(arr))` -/
def reduceNext : Expr := .call (.ident "f") [.ident "result", firstElement]

def mapBody : Block := loop "accumulated" mapNext (.vector [])

def reduceBody : Block := loop "result" reduceNext (.ident "initial")

/-- What a computation comes to stands for its result, or is its error. -/
def IsOutcome {α : Type} (R : α → Value → Prop) : Except String α → Value → Prop
  | .ok a, v => R a v
  | .error message, v => v = .error message

def IsInt (n : Int64) (v : Value) : Prop := v = .int n

def IsVector (ns : List Int64) (v : Value) : Prop := ∃ id, v = .vector id (ns.map .int)

/-- No result is abrupt. -/
abbrev Proceeds {α : Type} (R : α → Value → Prop) : Prop := ∀ a v, R a v → v.isAbrupt = false

theorem isInt_proceeds : Proceeds IsInt := by
  rintro n _ rfl
  rfl

theorem isVector_proceeds : Proceeds IsVector := by
  rintro ns _ ⟨id, rfl⟩
  rfl

theorem IsOutcome.unwrap {α : Type} {R : α → Value → Prop} (hR : Proceeds R)
    {r : Except String α} {v : Value} (h : IsOutcome R r v) : IsOutcome R r v.unwrap := by
  cases v with
  | returned w =>
    cases r with
    | ok a => cases hR a _ h
    | error message => cases h
  | _ => exact h

section Outcomes

variable {α β : Type} {R : α → Value → Prop} {S : β → Value → Prop} {r : Except String α}
  {k : α → Except String β} {base : Store}

/-- An error in an argument is what the whole comes to, and otherwise the whole goes on from
the result. -/
theorem yields_gather_outcome (hR : Proceeds R) {e : Expr} {es : List Expr} {scope : ScopeId}
    {next : Nat → List Value → Action}
    (he : Yields (fun d => eval d (.expr e) scope) base (IsOutcome R r))
    (hnext : ∀ a v, r = .ok a → R a v →
      Yields (fun d => gather (fun e => eval d (.expr e) scope) es fun vs => next d (v :: vs))
        base (IsOutcome S (k a))) :
    Yields (fun d => gather (fun e => eval d (.expr e) scope) (e :: es) (next d)) base
      (IsOutcome S (r >>= k)) := by
  cases r with
  | ok a => exact yields_gather_of_proceeds he (hR a) fun v hv => hnext a v rfl hv
  | error message =>
    apply yields_gather he fun v hv _ => hv
    rintro _ rfl ⟨⟩

theorem settlesOn_let_outcome (hR : Proceeds R) {name : String} {e : Expr}
    {ss : List Statement} {scope : ScopeId} (hscope : scope < base.scopes.size) (hne : ss ≠ [])
    (he : Yields (fun d => eval d (.expr e) scope) base (IsOutcome R r))
    (hrest : ∀ a v st, r = .ok a → R a v → LetBinds scope name v base st →
      SettlesOn (fun d => eval d (.block ss) scope) st (IsOutcome S (k a))) :
    SettlesOn (fun d => eval d (.block (.let name e :: ss)) scope) base
      (IsOutcome S (r >>= k)) := by
  cases r with
  | ok a =>
    apply settlesOn_block_let hscope hne he
    · intro v hv habrupt
      rw [hR a v hv] at habrupt
      cases habrupt
    · exact fun v st hv _ hbinds => hrest a v st rfl hv hbinds
  | error message =>
    apply settlesOn_block_let hscope hne he fun v hv _ => hv
    rintro _ st rfl ⟨⟩

/-- A call of a function comes to what its body comes to in the scope of the call. -/
theorem yields_call_body (hR : Proceeds R) {id : Nat} {params : List String} {body : Block}
    {outer : ScopeId} {args : List Value} (harity : params.length = args.length)
    (hbody : ∀ st : Store, base.Agrees st →
      SettlesOn (fun d => eval d (.block body) st.scopes.size) (st.entry outer (params.zip args))
        (IsOutcome R r)) :
    Yields (fun d => call d (.function id params body outer) args) base (IsOutcome R r) := by
  apply yields_call_function harity
  intro st hst
  obtain ⟨w, st', hsettles, hw⟩ := hbody st hst
  exact ⟨w, st', hsettles, hw.unwrap hR⟩

end Outcomes

section Loop

variable {α : Type} {R : α → Value → Prop} {f : Value} {acc : String} {next : Expr}
  {compute : α → Int64 → Except String α}

/-- The builtins that loops call are not hidden. -/
def BuiltinsSeen (scope : ScopeId) (st : Store) : Prop :=
  ∀ b : Builtin, b ≠ .last → st.lookup scope b.name = none

theorem BuiltinsSeen.letBinds {scope : ScopeId} {name : String} {v : Value} {base st : Store}
    (h : BuiltinsSeen scope base) (hbinds : LetBinds scope name v base st)
    (hname : ∀ b : Builtin, b.name ≠ name) : BuiltinsSeen scope st := by
  intro b hb
  rw [hbinds.lookup_eq, if_neg (hname b), h b hb]

theorem BuiltinsSeen.entry {outer : ScopeId} {base st : Store} (h : BuiltinsSeen outer base)
    (hst : base.Agrees st) (houter : outer < base.scopes.size)
    {bindings : List (String × Value)}
    (hbindings : ∀ b : Builtin, bindings.reverse.lookup b.name = none) :
    BuiltinsSeen st.scopes.size (st.entry outer bindings) := by
  intro b hb
  rw [Store.lookup_entry (Nat.lt_of_lt_of_le houter hst.size_le), hbindings, Option.none_or,
    hst.lookup_eq outer houter, h b hb]

/-- The scope that a loop was made in. -/
structure LoopScope (acc : String) (next : Expr) (f : Value) (outer : ScopeId) (st : Store) :
    Prop where
  lt : outer < st.scopes.size
  iter : ∃ id, st.lookup outer "iter" =
    some (.function id ["arr", acc] (loopBody acc next) outer)
  f : st.lookup outer "f" = some f
  builtins : BuiltinsSeen outer st

/-- The scope of one turn of a loop, with the elements that are left and what has been
accumulated. -/
structure TurnScope (acc : String) (f : Value) (xs : List Int64) (v : Value) (scope : ScopeId)
    (st : Store) : Prop where
  lt : scope < st.scopes.size
  arr : ∃ id, st.lookup scope "arr" = some (.vector id (xs.map .int))
  acc : st.lookup scope acc = some v
  f : st.lookup scope "f" = some f
  builtins : BuiltinsSeen scope st

theorem LoopScope.of_agrees {st st' : Store} {outer : ScopeId}
    (h : LoopScope acc next f outer st) (hagrees : st.Agrees st') :
    LoopScope acc next f outer st' where
  lt := Nat.lt_of_lt_of_le h.lt hagrees.size_le
  iter := by simpa only [hagrees.lookup_eq outer h.lt] using h.iter
  f := by rw [hagrees.lookup_eq outer h.lt, h.f]
  builtins b hb := by rw [hagrees.lookup_eq outer h.lt, h.builtins b hb]

/-- The store in which a turn begins. -/
def turnStore (acc : String) (outer : ScopeId) (id : Nat) (xs : List Int64) (v : Value)
    (st : Store) : Store :=
  st.entry outer [("arr", .vector id (xs.map .int)), (acc, v)]

theorem LoopScope.lookup_turn {st : Store} {outer : ScopeId} (h : LoopScope acc next f outer st)
    (id : Nat) (xs : List Int64) (v : Value) (name : String) :
    (turnStore acc outer id xs v st).lookup st.scopes.size name =
      if name = acc then some v
      else if name = "arr" then some (.vector id (xs.map .int)) else st.lookup outer name := by
  rw [turnStore, Store.lookup_entry h.lt]
  simp only [List.reverse_cons, List.reverse_nil, List.nil_append, List.cons_append,
    Scope.lookup_cons]
  split
  · rfl
  · split <;> rfl

/-- The other names in a loop. -/
def otherNames : List String := ["arr", "iter", "f", "len", "first", "rest", "push"]

theorem ne_of_otherName (hacc : acc ∉ otherNames) {name : String} (h : name ∈ otherNames) :
    name ≠ acc :=
  fun heq => hacc (heq ▸ h)

theorem LoopScope.turn {st : Store} {outer : ScopeId} (h : LoopScope acc next f outer st)
    (hacc : acc ∉ otherNames) (id : Nat) (xs : List Int64) (v : Value) :
    TurnScope acc f xs v st.scopes.size (turnStore acc outer id xs v st) := by
  constructor
  · exact st.lt_size_entry outer _
  · refine ⟨id, ?_⟩
    rw [h.lookup_turn, if_neg (ne_of_otherName hacc (by decide)), if_pos rfl]
  · rw [h.lookup_turn, if_pos rfl]
  · rw [h.lookup_turn, if_neg (ne_of_otherName hacc (by decide)), if_neg (by decide), h.f]
  · intro b hb
    have hmem : b.name ∈ otherNames ∧ b.name ≠ "arr" := by
      cases b with
      | last => exact absurd rfl hb
      | _ => decide
    rw [h.lookup_turn, if_neg (ne_of_otherName hacc hmem.1), if_neg hmem.2, h.builtins b hb]

/-- The loop finds itself, from within each of its turns. -/
theorem LoopScope.iter_turn {st : Store} {outer : ScopeId} (h : LoopScope acc next f outer st)
    (hacc : acc ∉ otherNames) (id : Nat) (xs : List Int64) (v : Value) :
    ∃ iterId, (turnStore acc outer id xs v st).lookup st.scopes.size "iter" =
      some (.function iterId ["arr", acc] (loopBody acc next) outer) := by
  obtain ⟨iterId, hiter⟩ := h.iter
  refine ⟨iterId, ?_⟩
  rw [h.lookup_turn, if_neg (ne_of_otherName hacc (by decide)), if_neg (by decide), hiter]

section Turn

variable {xs : List Int64} {v : Value} {scope : ScopeId} {base : Store} {P : Value → Prop}

theorem TurnScope.yields_arr (h : TurnScope acc f xs v scope base) :
    Yields (fun d => eval d (.expr (.ident "arr")) scope) base (IsVector xs) := by
  obtain ⟨id, harr⟩ := h.arr
  exact (yields_ident h.lt harr).mono fun _ hv => ⟨id, hv⟩

/-- A builtin that is called with the elements that are left. -/
theorem TurnScope.yields_builtin (h : TurnScope acc f xs v scope base) {b : Builtin}
    (hb : b ≠ .last)
    (hcall : ∀ id id', ∃ r, b.call id [.vector id' (xs.map .int)] = .ok r ∧ P r) :
    Yields (fun d => eval d (.expr (.call (.ident b.name) [.ident "arr"])) scope) base P := by
  apply yields_call (Action.yields_builtin h.lt (h.builtins b hb)) rfl
  apply yields_gather_of_proceeds h.yields_arr (isVector_proceeds xs)
  rintro _ ⟨id', rfl⟩
  exact yields_call_builtin fun id => hcall id id'

theorem TurnScope.yields_rest {x : Int64} (h : TurnScope acc f (x :: xs) v scope base) :
    Yields (fun d => eval d (.expr (.call (.ident "rest") [.ident "arr"])) scope) base
      (IsVector xs) :=
  h.yields_builtin (b := .rest) (by decide) fun id _ => ⟨.vector id (xs.map .int), rfl, id, rfl⟩

theorem TurnScope.yields_first {x : Int64} (h : TurnScope acc f (x :: xs) v scope base) :
    Yields (fun d => eval d (.expr firstElement) scope) base (IsInt x) :=
  h.yields_builtin (b := .first) (by decide) fun _ _ => ⟨.int x, rfl, rfl⟩

theorem ofNat_length_beq_zero (hlen : xs.length < UInt64.size) :
    (Int64.ofNat xs.length == 0) = xs.isEmpty := by
  cases xs with
  | nil => rfl
  | cons x xs =>
    rw [List.isEmpty_cons, beq_eq_false_iff_ne]
    intro hzero
    have hbits := congrArg (fun n => n.toBitVec.toNat) hzero
    simp only [Int64.toBitVec_ofNat', BitVec.toNat_ofNat] at hbits
    rw [Nat.mod_eq_of_lt hlen] at hbits
    cases hbits

theorem TurnScope.yields_isEmpty (h : TurnScope acc f xs v scope base)
    (hlen : xs.length < UInt64.size) :
    Yields (fun d => eval d (.expr (.binary .equal (.call (.ident "len") [.ident "arr"])
      (.int 0))) scope) base (· = .bool xs.isEmpty) := by
  have hcount : Yields (fun d => eval d (.expr (.call (.ident "len") [.ident "arr"])) scope)
      base (· = .int (Int64.ofNat xs.length)) := by
    apply h.yields_builtin (b := .len) (by decide)
    intro id id'
    refine ⟨_, rfl, ?_⟩
    rw [List.length_map]
  apply yields_binary hcount rfl (yields_int 0) rfl
  apply yields_ofExcept
  · rintro _ ⟨⟩
    rw [ofNat_length_beq_zero hlen]
  · rintro _ ⟨⟩

end Turn

/-- What is asked of the expression that accumulates one more element. -/
abbrev NextComputes (R : α → Value → Prop) (f : Value) (acc : String) (next : Expr)
    (compute : α → Int64 → Except String α) : Prop :=
  ∀ {x xs a v scope base}, R a v → TurnScope acc f (x :: xs) v scope base →
    Yields (fun d => eval d (.expr next) scope) base (IsOutcome R (compute a x))

/-- A loop computes a fold. -/
theorem loop_yields (hR : Proceeds R) (hacc : acc ∉ otherNames)
    (hnext : NextComputes R f acc next compute) {xs : List Int64}
    (hlen : xs.length < UInt64.size) {a : α} {v : Value} (hv : R a v) {outer : ScopeId}
    {base : Store} (hbase : LoopScope acc next f outer base) (id id' : Nat) :
    Yields (fun d => call d (.function id ["arr", acc] (loopBody acc next) outer)
      [.vector id' (xs.map .int), v]) base (IsOutcome R (xs.foldlM compute a)) := by
  induction xs generalizing a v base id id' with
  | nil =>
    apply yields_call_body hR rfl
    intro st hst
    have hturn := (hbase.of_agrees hst).turn hacc id' [] v
    apply Yields.settlesOn
    apply yields_block_expr
    apply yields_cond (hturn.yields_isEmpty hlen)
    · intro _
      apply yields_block_expr
      exact (yields_ident hturn.lt hturn.acc).mono fun w hw => hw ▸ hv
    · rintro ⟨⟩
  | cons x xs ih =>
    apply yields_call_body hR rfl
    intro st hst
    have hloop := hbase.of_agrees hst
    have hturn := hloop.turn hacc id' (x :: xs) v
    obtain ⟨iterId, hiter⟩ := hloop.iter_turn hacc id' (x :: xs) v
    apply Yields.settlesOn
    apply yields_block_expr
    apply yields_cond (hturn.yields_isEmpty hlen)
    · rintro ⟨⟩
    intro _
    apply yields_block_expr
    apply yields_call (yields_ident hturn.lt hiter) rfl
    apply yields_gather_of_proceeds hturn.yields_rest (isVector_proceeds xs)
    rintro _ ⟨restId, rfl⟩
    rw [List.foldlM_cons]
    apply yields_gather_outcome hR (hnext hv hturn)
    intro b w _ hw
    have hlen' : xs.length < UInt64.size := Nat.lt_of_succ_lt hlen
    exact ih hlen' hw (hloop.of_agrees (st.agrees_entry outer _)) iterId restId

/-- The scope in which a function has just been bound to the name that it calls. -/
theorem LoopScope.of_letBinds {scope : ScopeId} {base st : Store} {id : Nat}
    (hscope : scope < base.scopes.size) (hf : base.lookup scope "f" = some f)
    (hbuiltins : BuiltinsSeen scope base)
    (hbinds : LetBinds scope "iter" (.function id ["arr", acc] (loopBody acc next) scope)
      base st) : LoopScope acc next f scope st where
  lt := Nat.lt_of_lt_of_le hscope hbinds.size_le
  iter := ⟨id, by rw [hbinds.lookup_eq, if_pos rfl]⟩
  f := by rw [hbinds.lookup_eq, if_neg (by decide), hf]
  builtins := hbuiltins.letBinds hbinds fun b => by cases b <;> decide

/-- A loop is made and called. -/
theorem loop_settlesOn (hR : Proceeds R) (hacc : acc ∉ otherNames)
    (hnext : NextComputes R f acc next compute) {xs : List Int64}
    (hlen : xs.length < UInt64.size) {a : α} {scope : ScopeId} {base : Store} {id : Nat}
    {start : Expr} (hscope : scope < base.scopes.size)
    (harr : base.lookup scope "arr" = some (.vector id (xs.map .int)))
    (hf : base.lookup scope "f" = some f) (hbuiltins : BuiltinsSeen scope base)
    (hstart : ∀ v st, LetBinds scope "iter" v base st →
      Yields (fun d => eval d (.expr start) scope) st (R a)) :
    SettlesOn (fun d => eval d (.block (loop acc next start)) scope) base
      (IsOutcome R (xs.foldlM compute a)) := by
  apply settlesOn_let_function hscope (List.cons_ne_nil _ _)
  intro iterId st hbinds
  have hloop : LoopScope acc next f scope st := .of_letBinds hscope hf hbuiltins hbinds
  have hiter : st.lookup scope "iter" =
      some (.function iterId ["arr", acc] (loopBody acc next) scope) := by
    rw [hbinds.lookup_eq, if_pos rfl]
  have harr' : st.lookup scope "arr" = some (.vector id (xs.map .int)) := by
    rw [hbinds.lookup_eq, if_neg (by decide), harr]
  apply Yields.settlesOn
  apply yields_block_expr
  apply yields_call (yields_ident hloop.lt hiter) rfl
  apply yields_gather_eq (yields_ident hloop.lt harr') rfl
  apply yields_gather_of_proceeds (hstart _ st hbinds) (hR a)
  intro v hv
  exact loop_yields hR hacc hnext hlen hv hloop iterId id

end Loop

section Functions

variable {f : Value} {xs : List Int64} {outer : ScopeId} {base : Store}

/-- Calls of the value with one integer come to what is computed. -/
structure Computes₁ (f : Value) (g : Int64 → Except String Int64) : Prop where
  proceeds : f.isAbrupt = false
  yields (n : Int64) (base : Store) :
    Yields (fun d => call d f [.int n]) base (IsOutcome IsInt (g n))

/-- Calls of the value with two integers come to what is computed. -/
structure Computes₂ (f : Value) (g : Int64 → Int64 → Except String Int64) : Prop where
  proceeds : f.isAbrupt = false
  yields (m n : Int64) (base : Store) :
    Yields (fun d => call d f [.int m, .int n]) base (IsOutcome IsInt (g m n))

theorem mapNext_computes {g : Int64 → Except String Int64} (hf : Computes₁ f g) :
    NextComputes IsVector f "accumulated" mapNext fun ns x => do return ns ++ [← g x] := by
  rintro x xs ns _ scope base ⟨id, rfl⟩ hturn
  have hmapped : Yields (fun d => eval d (.expr (.call (.ident "f") [firstElement])) scope)
      base (IsOutcome IsInt (g x)) := by
    apply yields_call (yields_ident hturn.lt hturn.f) hf.proceeds
    apply yields_gather_eq hturn.yields_first rfl
    exact hf.yields x base
  apply yields_call (yields_builtin hturn.lt (hturn.builtins .push (by decide))) rfl
  apply yields_gather_eq (yields_ident hturn.lt hturn.acc) rfl
  apply yields_gather_outcome isInt_proceeds hmapped
  rintro m _ - rfl
  apply yields_call_builtin
  intro id'
  refine ⟨_, rfl, id', ?_⟩
  rw [List.map_append]
  rfl

theorem reduceNext_computes {g : Int64 → Int64 → Except String Int64} (hf : Computes₂ f g) :
    NextComputes IsInt f "result" reduceNext g := by
  rintro x xs n _ scope base rfl hturn
  apply yields_call (yields_ident hturn.lt hturn.f) hf.proceeds
  apply yields_gather_eq (yields_ident hturn.lt hturn.acc) rfl
  apply yields_gather_eq hturn.yields_first rfl
  exact hf.yields n x base

theorem map_yields {g : Int64 → Except String Int64} (hf : Computes₁ f g)
    (hlen : xs.length < UInt64.size) (houter : outer < base.scopes.size)
    (hbuiltins : BuiltinsSeen outer base) (id id' : Nat) :
    Yields (fun d => call d (.function id ["arr", "f"] mapBody outer)
      [.vector id' (xs.map .int), f]) base
      (IsOutcome IsVector (xs.foldlM (fun ns x => do return ns ++ [← g x]) [])) := by
  apply yields_call_body isVector_proceeds rfl
  intro st hst
  apply loop_settlesOn isVector_proceeds (by decide) (mapNext_computes hf) hlen
    (st.lt_size_entry outer _)
  · exact Store.lookup_entry_of_bound outer rfl
  · exact Store.lookup_entry_of_bound outer rfl
  · exact hbuiltins.entry hst houter fun b => by cases b <;> rfl
  · exact fun _ _ _ => yields_nil

theorem reduce_yields {g : Int64 → Int64 → Except String Int64} (hf : Computes₂ f g)
    (hlen : xs.length < UInt64.size) (houter : outer < base.scopes.size)
    (hbuiltins : BuiltinsSeen outer base) (id id' : Nat) (n : Int64) :
    Yields (fun d => call d (.function id ["arr", "initial", "f"] reduceBody outer)
      [.vector id' (xs.map .int), .int n, f]) base (IsOutcome IsInt (xs.foldlM g n)) := by
  apply yields_call_body isInt_proceeds rfl
  intro st hst
  have hscope := st.lt_size_entry outer (["arr", "initial", "f"].zip
    [.vector id' (xs.map .int), .int n, f])
  apply loop_settlesOn isInt_proceeds (by decide) (reduceNext_computes hf) hlen hscope
  · exact Store.lookup_entry_of_bound outer rfl
  · exact Store.lookup_entry_of_bound outer rfl
  · exact hbuiltins.entry hst houter fun b => by cases b <;> rfl
  · intro v mid hbinds
    apply yields_ident (Nat.lt_of_lt_of_le hscope hbinds.size_le)
    rw [hbinds.lookup_eq, if_neg (by decide)]
    exact Store.lookup_entry_of_bound outer rfl

end Functions

end MapReduce

end Monkey
