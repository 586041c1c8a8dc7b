import Monkey.Proofs.Eval.Arithmetic
import Monkey.Proofs.Eval.Loop
import Monkey.Proofs.Grammar.Parse
import Monkey.Proofs.Names

/-!
A program with map and reduce in it, which doubles integers and adds them up. The two folds
that it does come to the failure of one list of operations, doubles before sums, or to the
exact sum.
-/

open Monkey.Action

namespace Monkey

open Integer Arithmetic

namespace MapReduce

def doubleBody : Block := [.expr (.binary .multiply (.ident "x") (.int 2))]

def addBody : Block := [.expr (.binary .plus (.ident "acc") (.ident "x"))]

/-- Doubles the integers in a vector, and adds them up. -/
def program (source : Expr) : Program :=
  [.let "map" (.function ["arr", "f"] mapBody),
    .let "reduce" (.function ["arr", "initial", "f"] reduceBody),
    .let "doubled" (.call (.ident "map") [source, .function ["x"] doubleBody]),
    .expr (.call (.ident "reduce")
      [.ident "doubled", .int 0, .function ["acc", "x"] addBody])]

theorem parse_ofList (cs : List Char) :
    parse (String.ofList cs) =
      ((Program.read (tokens cs)).node?.getD [], (Program.read (tokens cs)).errors) := by
  rw [parse_eq, String.toList_ofList]

set_option maxRecDepth 8000 in
example : parse "
        let map = fn(arr, f) \x7b
            let iter = fn(arr, accumulated) \x7b
                if (len(arr) == 0) \x7b
                    accumulated
                \x7d else \x7b
                    iter(rest(arr), push(accumulated, f(first(arr))))
                \x7d
            \x7d;
            iter(arr, [])
        \x7d;
        let reduce = fn(arr, initial, f) \x7b
            let iter = fn(arr, result) \x7b
                if (len(arr) == 0) \x7b result \x7d else \x7b
                    iter(rest(arr), f(result, first(arr)))
                \x7d
            \x7d;
            iter(arr, initial)
        \x7d;
        let doubled = map([1, 2, 3, 4], fn(x) \x7b x * 2 \x7d);
        reduce(doubled, 0, fn(acc, x) \x7b acc + x \x7d)
    " = (program (.vector [.int 1, .int 2, .int 3, .int 4]), []) := by
  refine (parse_ofList _).trans ?_
  decide +kernel

section Arithmetic

/-- What an operation comes to, as a computation. -/
def compute (o : Operation) : Except String Int64 :=
  if o.Succeeds then .ok (Int64.ofInt o.result) else .error o.message

theorem isOutcome_compute (o : Operation) : IsOutcome IsInt (compute o) o.outcome := by
  unfold compute
  split
  · rename_i h
    exact Operation.outcome_of_succeeds h
  · rename_i h
    exact Operation.outcome_of_fails h

theorem yields_arithmetic (op : ArithmeticOp) (a b : Int64) (base : Store) :
    Yields (fun _ => ofExcept (op.toBinaryOp.apply (.int a) (.int b))) base
      (IsOutcome IsInt (compute (.binary op a.toInt b.toInt))) := by
  have houtcome := isOutcome_compute (.binary op a.toInt b.toInt)
  obtain ⟨st', hrun⟩ := ofExcept_arithmetic base op a b
  cases hr : op.toBinaryOp.apply (.int a) (.int b) with
  | ok v =>
    rw [hr] at hrun
    cases hrun
    exact yields_pure houtcome
  | error e =>
    rw [hr] at hrun
    obtain ⟨hv, -⟩ := Prod.mk.inj (Option.some.inj hrun)
    rw [← hv] at houtcome
    apply yields_ofExcept
    · rintro _ ⟨⟩
    · rintro _ ⟨⟩
      exact houtcome

theorem double_computes (id : Nat) (scope : ScopeId) :
    Computes₁ (.function id ["x"] doubleBody scope) fun n =>
      compute (.binary .mul n.toInt 2) where
  proceeds := rfl
  yields n base := by
    apply yields_call_body isInt_proceeds rfl
    intro st _
    apply Yields.settlesOn
    apply yields_block_expr
    exact yields_binary (yields_bound rfl) rfl (yields_int 2) rfl (yields_arithmetic .mul n 2 _)

theorem add_computes (id : Nat) (scope : ScopeId) :
    Computes₂ (.function id ["acc", "x"] addBody scope) fun m n =>
      compute (.binary .add m.toInt n.toInt) where
  proceeds := rfl
  yields m n base := by
    apply yields_call_body isInt_proceeds rfl
    intro st _
    apply Yields.settlesOn
    apply yields_block_expr
    exact yields_binary (yields_bound rfl) rfl (yields_bound rfl) rfl (yields_arithmetic .add m n _)

/-- The doubles of some integers. -/
def doublings (xs : List Int64) : List Operation :=
  xs.map fun x => .binary .mul x.toInt 2

/-- Adding up the doubles from left to right. -/
def additions : Int → List Int64 → List Operation
  | _, [] => []
  | sum, x :: xs => .binary .add sum (x.toInt * 2) :: additions (sum + x.toInt * 2) xs

/-- All doubles come before any sum. -/
def operations (xs : List Int64) : List Operation := doublings xs ++ additions 0 xs

/-- The exact sum of the doubles. -/
def total : List Int64 → Int
  | [] => 0
  | x :: xs => x.toInt * 2 + total xs

/-- The first failure of some operations, if there is one, and otherwise a result. -/
def orFailure {α : Type} (os : List Operation) (result : α) : Except String α :=
  match firstFailure? os with
  | some o => .error o.message
  | none => .ok result

theorem orFailure_cons {α : Type} (o : Operation) (os : List Operation) (result : α) :
    orFailure (o :: os) result = compute o >>= fun _ => orFailure os result := by
  unfold orFailure compute firstFailure?
  rw [List.find?_cons]
  by_cases h : o.Succeeds
  · simp [h]
    rfl
  · simp [h]
    rfl

theorem of_compute_eq_ok {o : Operation} {n : Int64} (h : compute o = .ok n) :
    o.Succeeds ∧ n = Int64.ofInt o.result := by
  unfold compute at h
  split at h
  · rename_i hsucceeds
    exact ⟨hsucceeds, (Except.ok.inj h).symm⟩
  · cases h

theorem foldlM_doublings (xs ns : List Int64) :
    (xs.foldlM (fun ns x => do return ns ++ [← compute (.binary .mul x.toInt 2)]) ns :
      Except String (List Int64)) =
      orFailure (doublings xs) (ns ++ xs.map fun x => Int64.ofInt (x.toInt * 2)) := by
  induction xs generalizing ns with
  | nil => exact congrArg Except.ok (List.append_nil ns).symm
  | cons x xs ih =>
    rw [List.foldlM_cons, doublings, List.map_cons, orFailure_cons]
    cases hcompute : compute (.binary .mul x.toInt 2) with
    | error message => rfl
    | ok m =>
      obtain ⟨-, rfl⟩ := of_compute_eq_ok hcompute
      refine (ih _).trans ?_
      rw [List.append_assoc]
      rfl

theorem foldlM_additions {xs : List Int64} (hrange : ∀ x ∈ xs, InRange (x.toInt * 2))
    (sum : Int64) :
    (xs.map fun x => Int64.ofInt (x.toInt * 2)).foldlM
        (fun m n => compute (.binary .add m.toInt n.toInt)) sum =
      orFailure (additions sum.toInt xs) (Int64.ofInt (sum.toInt + total xs)) := by
  induction xs generalizing sum with
  | nil =>
    rw [total, Int.add_zero, Int64.ofInt_toInt]
    rfl
  | cons x xs ih =>
    obtain ⟨hx, hxs⟩ := List.forall_mem_cons.mp hrange
    rw [List.map_cons, List.foldlM_cons, toInt_ofInt hx, additions, orFailure_cons]
    cases hcompute : compute (.binary .add sum.toInt (x.toInt * 2)) with
    | error message => rfl
    | ok m =>
      obtain ⟨hsucceeds, rfl⟩ := of_compute_eq_ok hcompute
      have hexact : (Int64.ofInt (Operation.binary .add sum.toInt (x.toInt * 2)).result).toInt =
          sum.toInt + x.toInt * 2 := toInt_ofInt hsucceeds.2
      refine (ih hxs _).trans ?_
      rw [hexact, total, ← Int.add_assoc]
      rfl

theorem orFailure_append {α : Type} (os ps : List Operation) (result : α) :
    orFailure (os ++ ps) result = orFailure os () >>= fun _ => orFailure ps result := by
  unfold orFailure
  rw [firstFailure?_append]
  cases firstFailure? os <;> rfl

theorem doublings_succeed_iff {xs : List Int64} :
    (∀ o ∈ doublings xs, o.Succeeds) ↔ ∀ x ∈ xs, InRange (x.toInt * 2) := by
  rw [doublings, List.forall_mem_map]
  exact forall₂_congr fun _ _ => and_iff_right not_false

/-- All the sums on the way are in range, the first one included. -/
theorem additions_succeed_iff {xs : List Int64} {sum : Int} :
    InRange sum ∧ (∀ o ∈ additions sum xs, o.Succeeds) ↔
      ∀ ys, ys <+: xs → InRange (sum + total ys) := by
  induction xs generalizing sum with
  | nil => simp [additions, total]
  | cons x xs ih =>
    have hfirst : (Operation.binary .add sum (x.toInt * 2)).Succeeds ↔
        InRange (sum + x.toInt * 2) := and_iff_right not_false
    rw [additions, List.forall_mem_cons, hfirst, ih]
    simp only [List.prefix_cons_iff, or_imp, forall_and, forall_eq, total, Int.add_zero,
      and_congr_right_iff]
    intro _
    constructor
    · rintro h _ ⟨ys, rfl, hys⟩
      rw [total, ← Int.add_assoc]
      exact h ys hys
    · intro h ys hys
      have hsum := h (x :: ys) ⟨ys, rfl, hys⟩
      rwa [total, ← Int.add_assoc] at hsum

theorem operations_succeed_iff {xs : List Int64} :
    (∀ o ∈ operations xs, o.Succeeds) ↔
      (∀ x ∈ xs, InRange (x.toInt * 2)) ∧ ∀ ys, ys <+: xs → InRange (total ys) := by
  have hzero : InRange 0 := by decide
  have hadditions : (∀ o ∈ additions 0 xs, o.Succeeds) ↔
      ∀ ys, ys <+: xs → InRange (0 + total ys) :=
    (and_iff_right hzero).symm.trans additions_succeed_iff
  rw [operations, List.forall_mem_append, doublings_succeed_iff, hadditions]
  simp only [Int.zero_add]

/-- Every outcome is an integer or an error, and the first failure decides which. -/
theorem of_isOutcome_orFailure {os : List Operation} {n : Int64} {v : Value}
    (h : IsOutcome IsInt (orFailure os n) v) :
    (∀ m, v = .int m ↔ firstFailure? os = none ∧ m = n) ∧
      (∀ message, v = .error message ↔
        ∃ o, firstFailure? os = some o ∧ message = o.message) ∧
      ((∃ m, v = .int m) ∨ ∃ message, v = .error message) := by
  unfold orFailure at h
  cases hfirst : firstFailure? os with
  | some o =>
    rw [hfirst] at h
    obtain rfl : v = .error o.message := h
    exact ⟨by simp, by simp [eq_comm], .inr ⟨_, rfl⟩⟩
  | none =>
    rw [hfirst] at h
    obtain rfl : v = .int n := h
    exact ⟨by simp [eq_comm], by simp, .inl ⟨_, rfl⟩⟩

theorem eq_of_orFailure_eq_ok {α : Type} {os : List Operation} {a b : α}
    (h : orFailure os a = .ok b) : a = b := by
  unfold orFailure at h
  cases hfirst : firstFailure? os with
  | some o =>
    rw [hfirst] at h
    cases h
  | none =>
    rw [hfirst] at h
    exact Except.ok.inj h

theorem length_of_foldlM_doublings {xs ns : List Int64}
    (h : xs.foldlM (fun ns x => do return ns ++ [← compute (.binary .mul x.toInt 2)]) [] =
      .ok ns) : ns.length = xs.length := by
  rw [foldlM_doublings] at h
  rw [← eq_of_orFailure_eq_ok h, List.nil_append, List.length_map]

/-- The two folds that the program does. -/
def folds (xs : List Int64) : Except String Int64 := do
  let doubled ← xs.foldlM (fun ns x => do return ns ++ [← compute (.binary .mul x.toInt 2)]) []
  doubled.foldlM (fun m n => compute (.binary .add m.toInt n.toInt)) 0

theorem folds_eq (xs : List Int64) :
    folds xs = orFailure (operations xs) (Int64.ofInt (total xs)) := by
  rw [folds, foldlM_doublings, operations, orFailure_append, List.nil_append]
  unfold orFailure
  cases hfirst : firstFailure? (doublings xs) with
  | some o => rfl
  | none =>
    have hrange := doublings_succeed_iff.mp (firstFailure?_eq_none_iff.mp hfirst)
    change List.foldlM _ _ (xs.map fun x => Int64.ofInt (x.toInt * 2)) = _
    rw [foldlM_additions hrange, Int64.toInt_zero, Int.zero_add]
    rfl

end Arithmetic

section Program

variable {name : String} {xs : List Int64} {id : Nat} {base : Store}

/-- What the program does once both functions are there. -/
theorem program_tail_settlesOn (hlen : xs.length < UInt64.size) {scope : ScopeId}
    (hscope : scope < base.scopes.size) (hbuiltins : BuiltinsSeen scope base)
    {mapId reduceId : Nat}
    (hmap : base.lookup scope "map" = some (.function mapId ["arr", "f"] mapBody scope))
    (hreduce : base.lookup scope "reduce" =
      some (.function reduceId ["arr", "initial", "f"] reduceBody scope))
    (hsource : base.lookup scope name = some (.vector id (xs.map .int))) :
    SettlesOn (fun d => eval d (.block [.let "doubled" (.call (.ident "map")
        [.ident name, .function ["x"] doubleBody]), .expr (.call (.ident "reduce")
        [.ident "doubled", .int 0, .function ["acc", "x"] addBody])]) scope) base
      (IsOutcome IsInt (folds xs)) := by
  have hdoubled : Yields (fun d => eval d (.expr (.call (.ident "map")
      [.ident name, .function ["x"] doubleBody])) scope) base (IsOutcome IsVector
        (xs.foldlM (fun ns x => do return ns ++ [← compute (.binary .mul x.toInt 2)]) [])) := by
    apply yields_call (yields_ident hscope hmap) rfl
    apply yields_gather_eq (yields_ident hscope hsource) rfl
    apply yields_gather_function
    intro doubleId
    exact map_yields (double_computes doubleId scope) hlen hscope hbuiltins mapId id
  apply settlesOn_let_outcome isVector_proceeds hscope (List.cons_ne_nil _ _) hdoubled
  rintro ns _ st hns ⟨vectorId, rfl⟩ hbinds
  have hscope' : scope < st.scopes.size := Nat.lt_of_lt_of_le hscope hbinds.size_le
  have hreduce' : st.lookup scope "reduce" =
      some (.function reduceId ["arr", "initial", "f"] reduceBody scope) := by
    rw [hbinds.lookup_eq, if_neg (by decide), hreduce]
  have hvector : st.lookup scope "doubled" = some (.vector vectorId (ns.map .int)) := by
    rw [hbinds.lookup_eq, if_pos rfl]
  have hbuiltins' := hbuiltins.letBinds hbinds fun b => by cases b <;> decide
  have hlen' : ns.length < UInt64.size := by
    rw [length_of_foldlM_doublings hns]
    exact hlen
  apply Yields.settlesOn
  apply yields_block_expr
  apply yields_call (yields_ident hscope' hreduce') rfl
  apply yields_gather_eq (yields_ident hscope' hvector) rfl
  apply yields_gather_eq (yields_int 0) rfl
  apply yields_gather_function
  intro addId
  exact reduce_yields (add_computes addId scope) hlen' hscope' hbuiltins' reduceId vectorId 0

theorem program_settlesOn (hlen : xs.length < UInt64.size)
    (hname : name ∉ Block.names (program (.vector []))) (id : Nat) :
    SettlesOn (fun d => eval d (.block (program (.ident name))) 0)
      (Session.fresh.store.bind 0 name (.vector id (xs.map .int)))
      (IsOutcome IsInt (folds xs)) := by
  have hne : ∀ {x}, x ∈ Block.names (program (.vector [])) → x ≠ name :=
    fun hx h => hname (h ▸ hx)
  have hlookup : ∀ x, (Session.fresh.store.bind 0 name (.vector id (xs.map .int))).lookup 0 x =
      if x = name then some (.vector id (xs.map .int)) else none := by
    intro x
    rw [Store.lookup_bind_self Nat.one_pos, Store.lookup_eq_own?_or]
    rfl
  have hbuiltins : BuiltinsSeen 0
      (Session.fresh.store.bind 0 name (.vector id (xs.map .int))) := by
    intro b hb
    have hmem : b.name ∈ Block.names (program (.vector [])) := by
      cases b with
      | last => exact absurd rfl hb
      | _ => decide
    rw [hlookup, if_neg (hne hmem)]
  apply settlesOn_let_function Nat.one_pos (List.cons_ne_nil _ _)
  intro mapId st hmap
  have hscope : 0 < st.scopes.size := Nat.lt_of_lt_of_le Nat.one_pos hmap.size_le
  apply settlesOn_let_function hscope (List.cons_ne_nil _ _)
  intro reduceId st' hreduce
  have hbuiltins' := (hbuiltins.letBinds hmap fun b => by cases b <;> decide).letBinds hreduce
    fun b => by cases b <;> decide
  apply program_tail_settlesOn hlen (Nat.lt_of_lt_of_le hscope hreduce.size_le) hbuiltins'
  · rw [hreduce.lookup_eq, if_neg (by decide), hmap.lookup_eq, if_pos rfl]
  · rw [hreduce.lookup_eq, if_pos rfl]
  · rw [hreduce.lookup_eq, if_neg (hne (by decide)).symm, hmap.lookup_eq,
      if_neg (hne (by decide)).symm, hlookup, if_pos rfl]

end Program

end MapReduce

open MapReduce

theorem eval_program_eq (depth : Nat) (p : Program) (scope : ScopeId) :
    eval depth (.program p) scope = (eval depth (.block p) scope).unwrapped := by
  cases depth <;> rfl

/-- Map and reduce, written in the language, double the integers of a vector and add them up.
The vector has any length that `len` can count in 64 bits, and there are no longer ones. From
some depth on the program comes to one value: the exact sum or, if an operation leaves the
integers of the language, the error of the first that does, all doubles before any sum. -/
theorem map_reduce_sums_doubles (xs : List Int64) (hlen : xs.length < UInt64.size)
    {name : String} (hname : name ∉ Block.names (program (.vector []))) (id : Nat) :
    ∃ v st', (∃ enough, ∀ depth ≥ enough,
        eval depth (.program (program (.ident name))) Session.fresh.root
          (Session.fresh.store.bind Session.fresh.root name (.vector id (xs.map .int))) =
            some (v, st')) ∧
      (∀ n, v = .int n ↔ (∀ x ∈ xs, InRange (x.toInt * 2)) ∧
        (∀ ys, ys <+: xs → InRange (total ys)) ∧ n.toInt = total xs) ∧
      (∀ message, v = .error message ↔
        ∃ o, firstFailure? (operations xs) = some o ∧ message = o.message) ∧
      ((∃ n, v = .int n) ∨ ∃ message, v = .error message) := by
  obtain ⟨v, st', hsettles, hv⟩ := program_settlesOn hlen hname id
  obtain ⟨enough, hrun⟩ := settles_unwrapped hsettles
  refine ⟨v.unwrap, st', ⟨enough, fun depth hle => ?_⟩, ?_⟩
  · rw [eval_program_eq]
    exact hrun depth hle
  replace hv := hv.unwrap isInt_proceeds
  rw [folds_eq] at hv
  obtain ⟨hint, herror, hcases⟩ := of_isOutcome_orFailure hv
  refine ⟨fun n => ?_, herror, hcases⟩
  rw [hint, ← and_assoc, ← operations_succeed_iff, ← firstFailure?_eq_none_iff]
  apply and_congr_right
  intro hnone
  have hsums := (operations_succeed_iff.mp (firstFailure?_eq_none_iff.mp hnone)).2
  rw [← Int64.toInt_inj, toInt_ofInt (hsums xs (List.prefix_refl xs))]

/-- The first two doubles have no sum, but before that the third one does not exist. -/
theorem map_reduce_sums_doubles_overflow :
    ([4611686018427387903, 1, 4611686018427387904] : List Int64).length < UInt64.size ∧
      "v" ∉ Block.names (program (.vector [])) ∧
      ∃ st', ∃ enough, ∀ depth ≥ enough,
        eval depth (.program (program (.ident "v"))) Session.fresh.root
          (Session.fresh.store.bind Session.fresh.root "v" (.vector 0
            [.int 4611686018427387903, .int 1, .int 4611686018427387904])) =
            some (.error "integer overflow: 4611686018427387904 * 2", st') := by
  have hlen : ([4611686018427387903, 1, 4611686018427387904] : List Int64).length <
      UInt64.size := by decide
  have hname : "v" ∉ Block.names (program (.vector [])) := by decide
  obtain ⟨v, st', hrun, -, herror, -⟩ := map_reduce_sums_doubles _ hlen hname 0
  obtain rfl : v = .error "integer overflow: 4611686018427387904 * 2" :=
    (herror _).mpr ⟨.binary .mul 4611686018427387904 2, by decide, by decide⟩
  exact ⟨hlen, hname, st', hrun⟩

end Monkey
