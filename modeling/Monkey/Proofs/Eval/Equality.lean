import Monkey.Proofs.Eval.Ledger
import Monkey.Proofs.Eval.Moment
import Monkey.Proofs.Key

/-!
The equalities of the language. Identity, which `==` stands for, looks at plain values and
at the identities of objects. Equality of contents looks at plain values, at what is inside
of vectors and dicts, and at the identities of functions. Each is sameness of what it looks
at, and so it is an equivalence. For keys of dicts both are the equality of the keys, and
for all values but vectors and dicts both are one.

That identical vectors and dicts have the same contents is not a matter of the two values
alone, but of the run that they come up in: it has a ledger of its objects.
-/

namespace Monkey

namespace Value

/-- What identity looks at. -/
def handle : Value → Value
  | .function id .. => .function id [] [] 0
  | .vector id _ => .vector id []
  | .dict id _ => .dict id []
  | v => v

mutual

/-- What equality of contents looks at. -/
def contents : Value → Value
  | .returned v => .returned v.contents
  | .function id .. => .function id [] [] 0
  | .vector _ vs => .vector 0 (contentsEach vs)
  | .dict _ es => .dict 0 (contentsEntries es)
  | v => v

def contentsEach : List Value → List Value
  | [] => []
  | v :: vs => v.contents :: contentsEach vs

def contentsEntries : List (Key × Value) → List (Key × Value)
  | [] => []
  | (k, v) :: es => (k, v.contents) :: contentsEntries es

end

/-- Whether the value is a vector or a dict. -/
def isCollection : Value → Bool
  | .vector .. | .dict .. => true
  | _ => false

theorem isIdentical_iff {v w : Value} :
    v.isIdentical w = true ↔ v.isAbrupt = false ∧ v.handle = w.handle := by
  cases v <;> cases w <;> simp [isIdentical, isAbrupt, handle]

mutual

theorem equals_iff : (v w : Value) → (v.equals w = true ↔ v.contents = w.contents)
  | .int _, w => by cases w <;> simp [equals, contents]
  | .str _, w => by cases w <;> simp [equals, contents]
  | .bool _, w => by cases w <;> simp [equals, contents]
  | .null, w => by cases w <;> simp [equals, contents]
  | .returned v, w => by cases w <;> simp [equals, contents, equals_iff v]
  | .function .., w => by cases w <;> simp [equals, contents]
  | .vector _ vs, w => by cases w <;> simp [equals, contents, equalsList_iff vs]
  | .dict _ es, w => by cases w <;> simp [equals, contents, equalsEntries_iff es]
  | .builtin _, w => by cases w <;> simp [equals, contents]
  | .error _, w => by cases w <;> simp [equals, contents]

theorem equalsList_iff :
    (vs ws : List Value) → (equalsList vs ws = true ↔ contentsEach vs = contentsEach ws)
  | [], ws => by cases ws <;> simp [equalsList, contentsEach]
  | v :: vs, ws => by
    cases ws <;> simp [equalsList, contentsEach, equals_iff v, equalsList_iff vs]

theorem equalsEntries_iff : (es fs : List (Key × Value)) →
    (equalsEntries es fs = true ↔ contentsEntries es = contentsEntries fs)
  | [], fs => by cases fs <;> simp [equalsEntries, contentsEntries]
  | (k, v) :: es, fs => by
    rcases fs with _ | ⟨⟨l, w⟩, fs⟩ <;>
      simp [equalsEntries, contentsEntries, equals_iff v, equalsEntries_iff es]

end

variable {u v w : Value} {k l : Key}

theorem isAbrupt_handle (v : Value) : v.handle.isAbrupt = v.isAbrupt := by
  cases v <;> rfl

theorem isIdentical_self (h : v.isAbrupt = false) : v.isIdentical v = true :=
  isIdentical_iff.mpr ⟨h, rfl⟩

theorem isIdentical_symm (h : v.isIdentical w = true) : w.isIdentical v = true := by
  obtain ⟨habrupt, hhandle⟩ := isIdentical_iff.mp h
  rw [← isAbrupt_handle, hhandle, isAbrupt_handle] at habrupt
  exact isIdentical_iff.mpr ⟨habrupt, hhandle.symm⟩

theorem isIdentical_trans (h : u.isIdentical v = true) (h' : v.isIdentical w = true) :
    u.isIdentical w = true := by
  obtain ⟨habrupt, huv⟩ := isIdentical_iff.mp h
  obtain ⟨-, hvw⟩ := isIdentical_iff.mp h'
  exact isIdentical_iff.mpr ⟨habrupt, huv.trans hvw⟩

theorem equals_self (v : Value) : v.equals v = true := (equals_iff v v).mpr rfl

theorem equals_symm (h : v.equals w = true) : w.equals v = true :=
  (equals_iff w v).mpr ((equals_iff v w).mp h).symm

theorem equals_trans (h : u.equals v = true) (h' : v.equals w = true) : u.equals w = true :=
  (equals_iff u w).mpr (((equals_iff u v).mp h).trans ((equals_iff v w).mp h'))

theorem isCollection_contents (v : Value) : v.contents.isCollection = v.isCollection := by
  cases v <;> rfl

/-- Both look at the same, except in vectors and dicts. -/
theorem contents_eq_handle (habrupt : v.isAbrupt = false) (hsingle : v.isCollection = false) :
    v.contents = v.handle := by
  cases v with
  | vector | dict => cases hsingle
  | returned => cases habrupt
  | _ => rfl

theorem isAbrupt_contents (v : Value) : v.contents.isAbrupt = v.isAbrupt := by
  cases v <;> rfl

theorem isIdentical_of_equals (habrupt : v.isAbrupt = false)
    (hsingle : v.isCollection = false ∨ w.isCollection = false) (h : v.equals w = true) :
    v.isIdentical w = true := by
  have hcontents := (equals_iff v w).mp h
  have hcollection : v.isCollection = w.isCollection := by
    rw [← isCollection_contents, hcontents, isCollection_contents]
  have habrupt' : w.isAbrupt = false := by
    rw [← habrupt, ← isAbrupt_contents w, ← hcontents, isAbrupt_contents]
  have hsingle' : v.isCollection = false ∧ w.isCollection = false := by
    rcases hsingle with hv | hw
    · exact ⟨hv, hcollection ▸ hv⟩
    · exact ⟨hcollection.trans hw, hw⟩
  rw [contents_eq_handle habrupt hsingle'.1, contents_eq_handle habrupt' hsingle'.2] at hcontents
  exact isIdentical_iff.mpr ⟨habrupt, hcontents⟩

theorem eq_value_of_key? (h : v.key? = some k) : v = k.value := by
  cases v <;> cases h <;> rfl

end Value

open Value

theorem Key.isIdentical_value (k l : Key) : k.value.isIdentical l.value = decide (k = l) := by
  cases k <;> cases l <;> simp [Key.value, isIdentical, Bool.beq_eq_decide_eq]

theorem Key.equals_value (k l : Key) : k.value.equals l.value = decide (k = l) := by
  cases k <;> cases l <;> simp [Key.value, equals, Bool.beq_eq_decide_eq]

/-- Whatever comes up in a run, two values are one and the same if they are identical. -/
theorem Moment.eq_of_isIdentical {st : Store} {vs : List Value} (h : Moment st vs) {v w : Value}
    (hv : v ∈ vs) (hw : w ∈ vs) (hvw : v.isIdentical w = true) : v = w := by
  obtain ⟨ledger, -, hvs⟩ := h.exists_world Ledger.growth Ledger.fresh rfl
  exact (hvs v hv).filed.eq_of_isIdentical (hvs w hw).filed hvw

/-- `==` says whether two values are identical, which is an equivalence on all values that
are not abrupt, as equality of contents is on all values. At any moment of a run identical
values have the same contents, and the converse holds unless both are vectors or both dicts.
For values that dicts have as keys both mean that the keys are the same, and comparison of
keys decides a strict order. -/
theorem equalities_agree :
    (∀ v w, BinaryOp.equal.apply v w = .ok (.bool (v.isIdentical w)) ∧
      BinaryOp.notEqual.apply v w = .ok (.bool !(v.isIdentical w))) ∧
    ((∀ v : Value, v.isAbrupt = false → v.isIdentical v = true) ∧
      (∀ v w : Value, v.isIdentical w = true → w.isIdentical v = true) ∧
      ∀ u v w : Value, u.isIdentical v = true → v.isIdentical w = true →
        u.isIdentical w = true) ∧
    ((∀ v : Value, v.equals v = true) ∧
      (∀ v w : Value, v.equals w = true → w.equals v = true) ∧
      ∀ u v w : Value, u.equals v = true → v.equals w = true → u.equals w = true) ∧
    (∀ st vs, Moment st vs → ∀ v ∈ vs, ∀ w ∈ vs, v.isIdentical w = true →
      v.equals w = true) ∧
    (∀ v w : Value, v.isAbrupt = false → v.isCollection = false ∨ w.isCollection = false →
      v.equals w = true → v.isIdentical w = true) ∧
    (∀ (v w : Value) (k l : Key), v.key? = some k → w.key? = some l →
      v.isIdentical w = decide (k = l) ∧ v.equals w = decide (k = l)) ∧
    (∀ k l : Key, (k.compare l = .lt ↔ k.Before l) ∧ (k.compare l = .eq ↔ k = l) ∧
      (k.compare l = .gt ↔ l.Before k)) ∧
    (∀ k : Key, ¬ k.Before k) ∧ (∀ k l m : Key, k.Before l → l.Before m → k.Before m) ∧
    ∀ k l : Key, k.Before l ∨ k = l ∨ l.Before k := by
  refine ⟨fun v w => ⟨BinaryOp.apply_equal v w, BinaryOp.apply_notEqual v w⟩,
    ⟨fun _ => isIdentical_self, fun _ _ => isIdentical_symm, fun _ _ _ => isIdentical_trans⟩,
    ⟨equals_self, fun _ _ => equals_symm, fun _ _ _ => equals_trans⟩, ?_, ?_, ?_, ?_,
    Key.not_before_self, fun _ _ _ => Key.Before.trans, Key.before_or_eq_or_before⟩
  · intro st vs h v hv w hw hvw
    rw [h.eq_of_isIdentical hv hw hvw]
    exact equals_self w
  · intro v w habrupt hsingle h
    exact isIdentical_of_equals habrupt hsingle h
  · intro v w k l hk hl
    rw [eq_value_of_key? hk, eq_value_of_key? hl]
    exact ⟨Key.isIdentical_value k l, Key.equals_value k l⟩
  · exact fun k l => ⟨Key.compare_eq_lt_iff, Key.compare_eq_eq_iff, Key.compare_eq_gt_iff⟩

/-- The program `[1]`, run twice: two vectors with the same contents. The keys `4` and
`"4"` are different. -/
theorem equalities_agree_vectors :
    let v := Value.vector 3 [.int 1]
    let w := Value.vector 7 [.int 1]
    (∃ st, Moment st [w, v] ∧ v.isIdentical v = true ∧ v.equals v = true) ∧
      v.equals w = true ∧ v.isIdentical w = false ∧
      BinaryOp.equal.apply v w = .ok (.bool false) ∧
      (Value.int 4).equals (.str "4") = false ∧ (Key.int 4).Before (.str "4") := by
  intro v w
  obtain ⟨hequal, ⟨hself, -, -⟩, -, hmoment, -, hkeys, horder, -⟩ := equalities_agree
  have hfirst : eval 4 (.program [.expr (.vector [.int 1])]) 0 Session.fresh.store =
      some (v, ⟨#[⟨none, []⟩], 4, []⟩) := rfl
  have hsecond : eval 4 (.program [.expr (.vector [.int 1])]) 0 ⟨#[⟨none, []⟩], 4, []⟩ =
      some (w, ⟨#[⟨none, []⟩], 8, []⟩) := rfl
  have hrun : Moment ⟨#[⟨none, []⟩], 8, []⟩ [w, v] :=
    (Moment.fresh.eval (by decide) hfirst).eval (by decide) hsecond
  have hv : v ∈ [w, v] := List.mem_cons_of_mem _ List.mem_cons_self
  have hvv := hself v rfl
  have hfour := hkeys (.int 4) (.str "4") (.int 4) (.str "4") rfl rfl
  exact ⟨⟨_, hrun, hvv, hmoment _ _ hrun v hv v hv hvv⟩, rfl, rfl, (hequal v w).1, hfour.2,
    (horder _ _).1.mp rfl⟩

end Monkey
