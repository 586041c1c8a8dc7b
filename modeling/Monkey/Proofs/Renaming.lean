import Mathlib.Logic.Function.Basic
import Monkey.Operation
import Monkey.Store

/-!
Renaming objects and scopes. A renaming gives objects and scopes other
identities, and never the same one to two of them. No operation of the language
can tell a value from its renaming, because identities are only ever compared:
operators, indexing and the builtins commute with every renaming.
-/

namespace Monkey

structure Renaming where
  object : Nat → Nat
  scope : ScopeId → ScopeId
  object_injective : Function.Injective object
  scope_injective : Function.Injective scope

/-- Everything keeps its identity. -/
def Renaming.refl : Renaming := ⟨id, id, Function.injective_id, Function.injective_id⟩

namespace Value

variable (ρ : Renaming)

mutual

def rename : Value → Value
  | .returned v => .returned v.rename
  | .function id params body scope => .function (ρ.object id) params body (ρ.scope scope)
  | .vector id vs => .vector (ρ.object id) (renameEach vs)
  | .dict id es => .dict (ρ.object id) (renameEntries es)
  | .int n => .int n
  | .str text => .str text
  | .bool b => .bool b
  | .null => .null
  | .builtin b => .builtin b
  | .error message => .error message

def renameEach : List Value → List Value
  | [] => []
  | v :: vs => v.rename :: renameEach vs

def renameEntries : List (Key × Value) → List (Key × Value)
  | [] => []
  | (k, v) :: es => (k, v.rename) :: renameEntries es

end

theorem renameEach_eq_map (vs : List Value) : renameEach ρ vs = vs.map (rename ρ) := by
  induction vs with
  | nil => rfl
  | cons v vs ih => rw [renameEach, ih, List.map_cons]

theorem renameEntries_eq_map (es : List (Key × Value)) :
    renameEntries ρ es = es.map (Prod.map id (rename ρ)) := by
  induction es with
  | nil => rfl
  | cons e es ih => rw [renameEntries, ih, List.map_cons]; rfl

mutual

theorem rename_refl : (v : Value) → v.rename .refl = v
  | .returned v => by rw [rename, rename_refl v]
  | .function .. => rfl
  | .vector _ vs => congrArg (Value.vector _) (renameEach_refl vs)
  | .dict _ es => congrArg (Value.dict _) (renameEntries_refl es)
  | .int _ | .str _ | .bool _ | .null | .builtin _ | .error _ => rfl

theorem renameEach_refl : (vs : List Value) → renameEach .refl vs = vs
  | [] => rfl
  | v :: vs => by rw [renameEach, rename_refl v, renameEach_refl vs]

theorem renameEntries_refl : (es : List (Key × Value)) → renameEntries .refl es = es
  | [] => rfl
  | (_, v) :: es => by rw [renameEntries, rename_refl v, renameEntries_refl es]

end

variable (v w : Value)

@[simp] theorem type_rename : (v.rename ρ).type = v.type := by
  cases v <;> rfl

@[simp] theorem isAbrupt_rename : (v.rename ρ).isAbrupt = v.isAbrupt := by
  cases v <;> rfl

@[simp] theorem isTruthy_rename : (v.rename ρ).isTruthy = v.isTruthy := by
  cases v with
  | bool b => cases b <;> rfl
  | _ => rfl

@[simp] theorem key?_rename : (v.rename ρ).key? = v.key? := by
  cases v <;> rfl

@[simp] theorem unwrap_rename : (v.rename ρ).unwrap = v.unwrap.rename ρ := by
  cases v <;> rfl

theorem rename_eq_int_iff (n : Int64) : v.rename ρ = .int n ↔ v = .int n := by
  cases v <;> simp [rename]

theorem rename_eq_str_iff (text : String) : v.rename ρ = .str text ↔ v = .str text := by
  cases v <;> simp [rename]

/-- Whether two values are the same object does not depend on how objects are
numbered. -/
@[simp] theorem isIdentical_rename :
    (v.rename ρ).isIdentical (w.rename ρ) = v.isIdentical w := by
  cases v <;> cases w <;> simp [rename, isIdentical, ρ.object_injective.eq_iff]

end Value

/-- What a key is bound to does not depend on what other keys are. -/
theorem lookup_map {κ α β : Type} [BEq κ] (f : α → β) (key : κ) (entries : List (κ × α)) :
    (entries.map (Prod.map id f)).lookup key = (entries.lookup key).map f := by
  induction entries with
  | nil => rfl
  | cons e entries ih =>
    obtain ⟨k, v⟩ := e
    rw [List.map_cons, Prod.map_apply, id_eq, List.lookup_cons, List.lookup_cons, ih]
    split <;> rfl

namespace Dict

variable {α β : Type} (f : α → β)

theorem insert_map (key : Key) (value : α) (entries : List (Key × α)) :
    insert key (f value) (entries.map (Prod.map id f)) =
      (insert key value entries).map (Prod.map id f) := by
  induction entries with
  | nil => rfl
  | cons e entries ih =>
    obtain ⟨k, v⟩ := e
    simp only [List.map_cons, Prod.map_apply, id_eq, insert]
    split
    · rfl
    · rfl
    · rw [ih, List.map_cons, Prod.map_apply, id_eq]

theorem ofPairs_map (pairs : List (Key × α)) :
    ofPairs (pairs.map (Prod.map id f)) = (ofPairs pairs).map (Prod.map id f) := by
  have hfold : ∀ entries : List (Key × α),
      (pairs.map (Prod.map id f)).foldl (fun entries p => insert p.1 p.2 entries)
          (entries.map (Prod.map id f)) =
        (pairs.foldl (fun entries p => insert p.1 p.2 entries) entries).map (Prod.map id f) := by
    induction pairs with
    | nil =>
      intro entries
      rfl
    | cons p pairs ih =>
      intro entries
      obtain ⟨k, v⟩ := p
      have hrest := ih (insert k v entries)
      rw [← insert_map] at hrest
      exact hrest
  exact hfold []

theorem get?_map (entries : List (Key × α)) (key : Key) :
    get? (entries.map (Prod.map id f)) key = (get? entries key).map f :=
  lookup_map f key entries

end Dict

section Operations

variable (ρ : Renaming) (v w : Value)

theorem UnaryOp.apply_rename (op : UnaryOp) :
    op.apply (v.rename ρ) = (op.apply v).map (Value.rename ρ) := by
  cases op with
  | bang =>
    simp only [UnaryOp.apply, Value.isTruthy_rename]
    rfl
  | minus =>
    cases v with
    | int n =>
      simp only [Value.rename, UnaryOp.apply]
      split <;> rfl
    | _ => rfl

theorem BinaryOp.checked_rename (op : BinaryOp) (a b : Int64) (n? : Option Int64) :
    (op.checked a b n?).map (Value.rename ρ) = op.checked a b n? := by
  cases n? <;> rfl

/-- Results of integer operators are no objects. -/
theorem BinaryOp.applyInt_rename (op : BinaryOp) (a b : Int64) :
    (op.applyInt a b).map (Value.rename ρ) = op.applyInt a b := by
  cases op with
  | plus | minus | multiply => exact BinaryOp.checked_rename ρ _ a b _
  | divide =>
    simp only [BinaryOp.applyInt]
    split
    · rfl
    · exact BinaryOp.checked_rename ρ _ a b _
  | equal | notEqual | lessThan | greaterThan => rfl

theorem BinaryOp.applyStr_rename (op : BinaryOp) (s t : String) :
    (op.applyStr s t).map (Value.rename ρ) = op.applyStr s t := by
  cases op <;> rfl

theorem BinaryOp.apply_rename (op : BinaryOp) :
    op.apply (v.rename ρ) (w.rename ρ) = (op.apply v w).map (Value.rename ρ) := by
  by_cases hint : ∃ a b, v = .int a ∧ w = .int b
  · obtain ⟨a, b, rfl, rfl⟩ := hint
    exact (BinaryOp.applyInt_rename ρ op a b).symm
  by_cases hstr : ∃ s t, v = .str s ∧ w = .str t
  · obtain ⟨s, t, rfl, rfl⟩ := hstr
    exact (BinaryOp.applyStr_rename ρ op s t).symm
  -- Other values are compared by identity and by type only.
  have hint : ∀ a b, v = .int a → w = .int b → False := fun a b hv hw => hint ⟨a, b, hv, hw⟩
  have hstr : ∀ s t, v = .str s → w = .str t → False := fun s t hv hw => hstr ⟨s, t, hv, hw⟩
  have hint' : ∀ a b, v.rename ρ = .int a → w.rename ρ = .int b → False := by
    simpa only [Value.rename_eq_int_iff] using hint
  have hstr' : ∀ s t, v.rename ρ = .str s → w.rename ρ = .str t → False := by
    simpa only [Value.rename_eq_str_iff] using hstr
  cases op with
  | equal =>
    rw [apply.eq_3 _ _ hint' hstr', apply.eq_3 _ _ hint hstr, Value.isIdentical_rename]
    rfl
  | notEqual =>
    rw [apply.eq_4 _ _ hint' hstr', apply.eq_4 _ _ hint hstr, Value.isIdentical_rename]
    rfl
  | _ =>
    rw [apply.eq_5 _ _ _ hint' hstr', apply.eq_5 _ _ _ hint hstr, Value.type_rename,
      Value.type_rename]
    · split <;> rfl
    all_goals exact nofun

theorem Value.elementAt?_rename (elements : List Value) (i : Int64) :
    elementAt? (elements.map (rename ρ)) i = (elementAt? elements i).map (rename ρ) := by
  unfold elementAt?
  split
  · rw [List.getElem?_map]
  · rfl

theorem Value.getD_rename (v? : Option Value) :
    (v?.map (rename ρ)).getD .null = (v?.getD .null).rename ρ := by
  cases v? <;> rfl

theorem Value.index_rename :
    (v.rename ρ).index (w.rename ρ) = (v.index w).map (rename ρ) := by
  cases v with
  | vector id elements =>
    rw [rename, renameEach_eq_map]
    cases w with
    | int i =>
      simp only [rename, index, elementAt?_rename, getD_rename]
      rfl
    | _ => rfl
  | dict id entries =>
    rw [rename, renameEntries_eq_map]
    simp only [index, key?_rename, type_rename]
    cases w.key? with
    | none => rfl
    | some key =>
      simp only [Dict.get?_map, getD_rename]
      rfl
  | _ =>
    simp only [rename, index, type_rename]
    rfl

theorem Builtin.elements_rename (b : Builtin) :
    b.elements (v.rename ρ) = (b.elements v).map (List.map (Value.rename ρ)) := by
  cases v with
  | vector id vs =>
    rw [Value.rename, Value.renameEach_eq_map]
    rfl
  | _ => rfl

theorem Builtin.callLen_rename :
    Builtin.callLen (v.rename ρ) = (Builtin.callLen v).map (Value.rename ρ) := by
  cases v with
  | vector id vs =>
    rw [Value.rename, Value.renameEach_eq_map, callLen, List.length_map]
    rfl
  | dict id es =>
    rw [Value.rename, Value.renameEntries_eq_map, callLen, List.length_map]
    rfl
  | _ => rfl

theorem Builtin.call_rename (b : Builtin) (id : Nat) (args : List Value) :
    b.call (ρ.object id) (args.map (Value.rename ρ)) =
      (b.call id args).map (Value.rename ρ) := by
  match args with
  | [] => cases b <;> rfl
  | [v] =>
    cases b with
    | len => exact Builtin.callLen_rename ρ v
    | first =>
      simp only [List.map_cons, List.map_nil, call, elements_rename]
      cases Builtin.first.elements v with
      | error e => rfl
      | ok vs =>
        simp only [Except.map, bind, Except.bind, List.head?_map, Value.getD_rename]
        rfl
    | last =>
      simp only [List.map_cons, List.map_nil, call, elements_rename]
      cases Builtin.last.elements v with
      | error e => rfl
      | ok vs =>
        simp only [Except.map, bind, Except.bind, List.getLast?_map, Value.getD_rename]
        rfl
    | rest =>
      simp only [List.map_cons, List.map_nil, call, elements_rename]
      cases Builtin.rest.elements v with
      | error e => rfl
      | ok vs =>
        cases vs with
        | nil => rfl
        | cons u vs =>
          simp only [Except.map, bind, Except.bind, List.map_cons]
          rw [← Value.renameEach_eq_map]
          rfl
    | push => rfl
  | [v, w] =>
    cases b with
    | push =>
      simp only [List.map_cons, List.map_nil, call, elements_rename]
      cases Builtin.push.elements v with
      | error e => rfl
      | ok vs =>
        have happend : vs.map (Value.rename ρ) ++ [w.rename ρ] =
            Value.renameEach ρ (vs ++ [w]) := by
          rw [Value.renameEach_eq_map, List.map_append]
          rfl
        simp only [Except.map, bind, Except.bind, happend]
        rfl
    | _ => rfl
  | u :: v :: w :: args =>
    cases b <;> simp only [List.map_cons, call, List.length_cons, List.length_map] <;> rfl

end Operations

namespace Scope

variable (ρ : Renaming)

def rename (sc : Scope) : Scope where
  outer := sc.outer.map ρ.scope
  bindings := sc.bindings.map (Prod.map id (Value.rename ρ))

theorem get?_rename (sc : Scope) (name : String) :
    (sc.rename ρ).get? name = (sc.get? name).map (Value.rename ρ) :=
  lookup_map (Value.rename ρ) name sc.bindings

theorem bind_rename (sc : Scope) (name : String) (v : Value) :
    (sc.bind name v).rename ρ = (sc.rename ρ).bind name (v.rename ρ) := by
  obtain ⟨outer, bindings⟩ := sc
  have hinsert : (insert name v bindings).map (Prod.map id (Value.rename ρ)) =
      insert name (v.rename ρ) (bindings.map (Prod.map id (Value.rename ρ))) := by
    induction bindings with
    | nil => rfl
    | cons b bindings ih =>
      obtain ⟨x, w⟩ := b
      simp only [insert, List.map_cons, Prod.map_apply, id_eq]
      split
      · rfl
      · rw [List.map_cons, Prod.map_apply, id_eq, ih]
  simp only [rename, bind, hinsert]

end Scope

namespace Value

/-- Not a function, and with none in it at any depth. -/
inductive FunctionFree : Value → Prop where
  | int (n : Int64) : FunctionFree (.int n)
  | str (text : String) : FunctionFree (.str text)
  | bool (b : Bool) : FunctionFree (.bool b)
  | null : FunctionFree .null
  | returned {v : Value} : FunctionFree v → FunctionFree (.returned v)
  | vector (id : Nat) {elements : List Value} :
      (∀ v ∈ elements, FunctionFree v) → FunctionFree (.vector id elements)
  | dict (id : Nat) {entries : List (Key × Value)} :
      (∀ e ∈ entries, FunctionFree e.2) → FunctionFree (.dict id entries)
  | builtin (b : Builtin) : FunctionFree (.builtin b)
  | error (message : String) : FunctionFree (.error message)

theorem equalsList_renameEach (ρ : Renaming) {vs : List Value}
    (h : ∀ v ∈ vs, v.equals (v.rename ρ) = true) : equalsList vs (renameEach ρ vs) = true := by
  induction vs with
  | nil => rfl
  | cons v vs ih =>
    obtain ⟨hv, hvs⟩ := List.forall_mem_cons.mp h
    rw [renameEach, equalsList, hv, ih hvs]
    rfl

theorem equalsEntries_renameEntries (ρ : Renaming) {es : List (Key × Value)}
    (h : ∀ e ∈ es, e.2.equals (e.2.rename ρ) = true) :
    equalsEntries es (renameEntries ρ es) = true := by
  induction es with
  | nil => rfl
  | cons e es ih =>
    obtain ⟨k, v⟩ := e
    obtain ⟨hv, hes⟩ := List.forall_mem_cons.mp h
    rw [renameEntries, equalsEntries, hv, ih hes, beq_self_eq_true]
    rfl

/-- Without functions, contents are all that equality looks at. -/
theorem FunctionFree.equals_rename (ρ : Renaming) {v : Value} (h : v.FunctionFree) :
    v.equals (v.rename ρ) = true := by
  induction h with
  | int n => exact beq_self_eq_true n
  | str text => exact beq_self_eq_true text
  | bool b => exact beq_self_eq_true b
  | null => rfl
  | returned _ ih => exact ih
  | vector id _ ih => exact equalsList_renameEach ρ ih
  | dict id _ ih => exact equalsEntries_renameEntries ρ ih
  | builtin b => exact beq_self_eq_true b
  | error message => exact beq_self_eq_true message

end Value

end Monkey
