import Monkey.Eval.Depth
import Monkey.Proofs.Dict
import Monkey.Proofs.Eval.Action
import Monkey.Proofs.Eval.Equality
import Monkey.Session
import Monkey.Value.Inspect

/-!
Dict literals. The pairs of a literal are evaluated from left to right, the key of each
before its value, and a key is found unusable before its value is looked at. What fails
first ends the literal. If nothing fails, the literal is the map of its pairs, in which of
the pairs with one key the last one wins.
-/

open Monkey.Action

namespace Monkey

open Dict Text

variable {scope : ScopeId} {st mid st' : Store} {v w : Value} {k e : Expr}
  {ps later : List (Expr × Expr)} {pairs : List (Key × Value)}

/-- The expression comes to an end, with this value and this store. -/
def Expr.Evaluates (e : Expr) (scope : ScopeId) (st : Store) (v : Value) (st' : Store) : Prop :=
  ∃ depth, eval depth (.expr e) scope st = some (v, st')

theorem Expr.Evaluates.enough (h : e.Evaluates scope st v st') :
    ∃ enough, ∀ depth ≥ enough, eval depth (.expr e) scope st = some (v, st') := by
  obtain ⟨depth, heval⟩ := h
  exact ⟨depth, fun _ hle => eval_extends hle _ _ _ _ heval⟩

theorem Expr.Evaluates.unique {st'' : Store} (h : e.Evaluates scope st v st')
    (h' : e.Evaluates scope st w st'') : w = v ∧ st'' = st' := by
  obtain ⟨enough, heval⟩ := h.enough
  obtain ⟨enough', heval'⟩ := h'.enough
  have hsame := (heval' _ (Nat.le_max_right enough enough')).symm.trans
    (heval _ (Nat.le_max_left enough enough'))
  exact Prod.mk.inj (Option.some.inj hsame)

/-- What has one outcome has no other. -/
theorem Expr.Evaluates.iff_eq (h : e.Evaluates scope st v st') (w : Value) (st'' : Store) :
    e.Evaluates scope st w st'' ↔ w = v ∧ st'' = st' := by
  constructor
  · exact h.unique
  · rintro ⟨rfl, rfl⟩
    exact h

/-- The pairs are evaluated from left to right, each key before its value, and nothing
fails: the keys are usable, and no value is abrupt. -/
inductive PairsEvaluate (scope : ScopeId) :
    List (Expr × Expr) → Store → List (Key × Value) → Store → Prop where
  | nil (st : Store) : PairsEvaluate scope [] st [] st
  | cons {st afterKey afterValue st' : Store} {k e : Expr} {ps : List (Expr × Expr)}
      {u v : Value} {key : Key} {pairs : List (Key × Value)} :
      k.Evaluates scope st u afterKey → u.key? = some key →
      e.Evaluates scope afterKey v afterValue → v.isAbrupt = false →
      PairsEvaluate scope ps afterValue pairs st' →
      PairsEvaluate scope ((k, e) :: ps) st ((key, v) :: pairs) st'

/-- A pair fails: its key is abrupt, or it is nothing that dicts have as a key, or its value
is abrupt. -/
inductive PairFails (scope : ScopeId) (k e : Expr) (st : Store) : Value → Store → Prop where
  | key {w : Value} {st' : Store} :
      k.Evaluates scope st w st' → w.isAbrupt = true → PairFails scope k e st w st'
  | unusable {u : Value} {afterKey : Store} :
      k.Evaluates scope st u afterKey → u.isAbrupt = false → u.key? = none →
      PairFails scope k e st (.error ("unusable as dict key: " ++ u.type.name))
        (afterKey.fail ("unusable as dict key: " ++ u.type.name))
  | value {u w : Value} {key : Key} {afterKey st' : Store} :
      k.Evaluates scope st u afterKey → u.key? = some key →
      e.Evaluates scope afterKey w st' → w.isAbrupt = true → PairFails scope k e st w st'

theorem Value.isAbrupt_of_key? {key : Key} (h : v.key? = some key) : v.isAbrupt = false := by
  cases v with
  | returned | error => cases h
  | _ => rfl

/-- Gathering goes on with whatever pairs come later. -/
theorem PairsEvaluate.gatherPairs_append (h : PairsEvaluate scope ps st pairs mid) :
    ∃ enough, ∀ depth ≥ enough, ∀ later next,
      gatherPairs (fun e => eval depth (.expr e) scope) (ps ++ later) next st =
        gatherPairs (fun e => eval depth (.expr e) scope) later
          (fun more => next (pairs ++ more)) mid := by
  induction h with
  | nil st => exact ⟨0, fun _ _ _ _ => rfl⟩
  | cons hk hkey he hv _ ih =>
    obtain ⟨forKey, hk⟩ := hk.enough
    obtain ⟨forValue, he⟩ := he.enough
    obtain ⟨forRest, ih⟩ := ih
    refine ⟨max forKey (max forValue forRest), fun depth hle later next => ?_⟩
    rw [ge_iff_le, Nat.max_le, Nat.max_le] at hle
    refine (andThen_of_some (hk depth hle.1) (Value.isAbrupt_of_key? hkey)).trans ?_
    rw [hkey]
    refine (andThen_of_some (he depth hle.2.1) hv).trans ?_
    exact ih depth hle.2.2 later _

/-- Gathering ends with the pair, whatever comes later. -/
theorem PairFails.gatherPairs_cons (h : PairFails scope k e st w st') :
    ∃ enough, ∀ depth ≥ enough, ∀ later next,
      gatherPairs (fun e => eval depth (.expr e) scope) ((k, e) :: later) next st =
        some (w, st') := by
  cases h with
  | key hk hw =>
    obtain ⟨enough, hk⟩ := hk.enough
    exact ⟨enough, fun depth hle later next => andThen_of_abrupt (hk depth hle) hw⟩
  | unusable hk hu hkey =>
    obtain ⟨enough, hk⟩ := hk.enough
    refine ⟨enough, fun depth hle later next => ?_⟩
    refine (andThen_of_some (hk depth hle) hu).trans ?_
    rw [hkey]
    rfl
  | value hk hkey he hw =>
    obtain ⟨forKey, hk⟩ := hk.enough
    obtain ⟨forValue, he⟩ := he.enough
    refine ⟨max forKey forValue, fun depth hle later next => ?_⟩
    rw [ge_iff_le, Nat.max_le] at hle
    refine (andThen_of_some (hk depth hle.1) (Value.isAbrupt_of_key? hkey)).trans ?_
    rw [hkey]
    exact andThen_of_abrupt (he depth hle.2) hw

/-- Either all pairs are evaluated, or one is the first to fail. -/
theorem gatherPairs_cases {depth : Nat} {next : List (Key × Value) → Action}
    (h : gatherPairs (fun e => eval depth (.expr e) scope) ps next st = some (w, st')) :
    (∃ pairs mid, PairsEvaluate scope ps st pairs mid ∧ next pairs mid = some (w, st')) ∨
      ∃ done k e later pairs mid, ps = done ++ (k, e) :: later ∧
        PairsEvaluate scope done st pairs mid ∧ PairFails scope k e mid w st' := by
  induction ps generalizing st next with
  | nil => exact .inl ⟨[], st, .nil st, h⟩
  | cons p ps ih =>
    obtain ⟨k, e⟩ := p
    obtain ⟨hk, hw⟩ | ⟨u, afterKey, hk, hu, h⟩ := andThen_cases h
    · exact .inr ⟨[], k, e, ps, [], st, rfl, .nil st, .key ⟨depth, hk⟩ hw⟩
    · cases hkey : u.key? with
      | none =>
        rw [hkey] at h
        cases h
        exact .inr ⟨[], k, e, ps, [], st, rfl, .nil st, .unusable ⟨depth, hk⟩ hu hkey⟩
      | some key =>
        rw [hkey] at h
        obtain ⟨he, hw⟩ | ⟨v, afterValue, he, hv, h⟩ := andThen_cases h
        · exact .inr ⟨[], k, e, ps, [], st, rfl, .nil st,
            .value ⟨depth, hk⟩ hkey ⟨depth, he⟩ hw⟩
        · obtain ⟨pairs, mid, hps, h⟩ | ⟨done, k', e', later, pairs, mid, rfl, hdone, hfails⟩ :=
            ih h
          · exact .inl ⟨(key, v) :: pairs, mid,
              .cons ⟨depth, hk⟩ hkey ⟨depth, he⟩ hv hps, h⟩
          · exact .inr ⟨(k, e) :: done, k', e', later, (key, v) :: pairs, mid, rfl,
              .cons ⟨depth, hk⟩ hkey ⟨depth, he⟩ hv hdone, hfails⟩

theorem eval_dict (depth : Nat) (ps : List (Expr × Expr)) (scope : ScopeId) (st : Store) :
    eval (depth + 1) (.expr (.dict ps)) scope st =
      gatherPairs (fun e => eval depth (.expr e) scope) ps
        (fun pairs => create fun id => .dict id (ofPairs pairs)) st.tick := rfl

theorem PairsEvaluate.evaluates_dict (h : PairsEvaluate scope ps st.tick pairs mid) :
    (Expr.dict ps).Evaluates scope st (.dict mid.clock (ofPairs pairs)) mid.tick := by
  obtain ⟨enough, hgather⟩ := h.gatherPairs_append
  refine ⟨enough + 1, ?_⟩
  have hrun := hgather enough (Nat.le_refl _) [] fun pairs =>
    create fun id => .dict id (ofPairs pairs)
  rw [List.append_nil] at hrun
  rw [eval_dict, hrun]
  simp only [gatherPairs, List.append_nil]
  rfl

theorem PairFails.evaluates_dict {done : List (Expr × Expr)}
    (hdone : PairsEvaluate scope done st.tick pairs mid) (h : PairFails scope k e mid w st')
    (later : List (Expr × Expr)) :
    (Expr.dict (done ++ (k, e) :: later)).Evaluates scope st w st' := by
  obtain ⟨enough, hgather⟩ := hdone.gatherPairs_append
  obtain ⟨forPair, hpair⟩ := h.gatherPairs_cons
  refine ⟨max enough forPair + 1, ?_⟩
  rw [eval_dict, hgather _ (Nat.le_max_left _ _), hpair _ (Nat.le_max_right _ _)]

theorem evaluates_dict_cases (h : (Expr.dict ps).Evaluates scope st w st') :
    (∃ pairs mid, PairsEvaluate scope ps st.tick pairs mid) ∨
      ∃ done k e later pairs mid, ps = done ++ (k, e) :: later ∧
        PairsEvaluate scope done st.tick pairs mid ∧ PairFails scope k e mid w st' := by
  obtain ⟨depth, h⟩ := h
  cases depth with
  | zero => cases h
  | succ depth =>
    obtain ⟨pairs, mid, hps, -⟩ | hfails := gatherPairs_cases h
    · exact .inl ⟨pairs, mid, hps⟩
    · exact .inr hfails

namespace Value

theorem inspectEntries_eq_map (es : List (Key × Value)) :
    inspectEntries es = es.map fun p => p.1.inspect ++ ": " ++ p.2.inspect := by
  induction es with
  | nil => rfl
  | cons p es ih =>
    obtain ⟨key, v⟩ := p
    rw [inspectEntries, ih, List.map_cons]

/-- The identity of a dict is no part of its contents. -/
theorem equals_dict (i j : Nat) (es : List (Key × Value)) :
    (Value.dict i es).equals (.dict j es) = true :=
  (equals_iff _ _).mpr (by simp only [contents])

theorem index_dict {u : Value} {key : Key} (hu : u.key? = some key) (id : Nat)
    (es : List (Key × Value)) :
    (Value.dict id es).index u = .ok ((get? es key).getD .null) := by
  simp only [index, hu]

/-- The value is a map of the pairs: a key stands for the value of its last pair, and every
other key for `null`. There are as many entries as there are different keys, and they are
shown in the order of the keys. -/
structure IsMapOf (D : Value) (pairs : List (Key × Value)) : Prop where
  index_last : ∀ u key v, u.key? = some key → IsLast pairs key v → D.index u = .ok v
  index_absent : ∀ u key, u.key? = some key → key ∉ pairs.map Prod.fst → D.index u = .ok .null
  len : ∀ id, Builtin.len.call id [D] =
    .ok (.int (Int64.ofNat (pairs.map Prod.fst).dedup.length))
  inspect : ∃ entries, Sorted entries ∧ (∀ key v, (key, v) ∈ entries ↔ IsLast pairs key v) ∧
    D.inspect = "\x7b" ++ commaSeparated
      (entries.map fun p => p.1.inspect ++ ": " ++ p.2.inspect) ++ "\x7d"

theorem isMapOf_ofPairs (id : Nat) (pairs : List (Key × Value)) :
    (Value.dict id (ofPairs pairs)).IsMapOf pairs where
  index_last := by
    intro u key v hu hv
    rw [index_dict hu, get?_ofPairs_eq_some_iff.mpr hv]
    rfl
  index_absent := by
    intro u key hu habsent
    rw [index_dict hu, get?_eq_none_iff.mpr (mem_keys_ofPairs.not.mpr habsent)]
    rfl
  len := by
    intro id
    rw [← length_ofPairs]
    rfl
  inspect := by
    refine ⟨ofPairs pairs, sorted_ofPairs pairs, fun _ _ => mem_ofPairs_iff, ?_⟩
    rw [← inspectEntries_eq_map]
    rfl

end Value

/-- A dict literal whose pairs are all evaluated comes to one dict, and this is the map of
the pairs. Any other literal with the same pairs, in an order in which those with one key
come as before, gives a dict that has the same contents and is shown in the same way. If a
pair fails after others were evaluated, that is the one outcome of the literal, whatever
pairs come later. There is no other way for a dict literal to come to an end. -/
theorem dict_literal_is_map (ps : List (Expr × Expr)) (scope : ScopeId) (st : Store) :
    (∀ pairs mid, PairsEvaluate scope ps st.tick pairs mid →
      ∃ D : Value, D.type = .dict ∧ D.IsMapOf pairs ∧
        (∀ w st', (Expr.dict ps).Evaluates scope st w st' ↔ w = D ∧ st' = mid.tick) ∧
        ∀ ps' scope' st₀ pairs' mid', PairsEvaluate scope' ps' st₀.tick pairs' mid' →
          Reorders pairs pairs' → ∀ D' st', (Expr.dict ps').Evaluates scope' st₀ D' st' →
            D.equals D' = true ∧ D'.inspect = D.inspect) ∧
    (∀ done k e later pairs mid w st', ps = done ++ (k, e) :: later →
      PairsEvaluate scope done st.tick pairs mid → PairFails scope k e mid w st' →
      ∀ r st'', (Expr.dict ps).Evaluates scope st r st'' ↔ r = w ∧ st'' = st') ∧
    ∀ w st', (Expr.dict ps).Evaluates scope st w st' →
      (∃ pairs mid, PairsEvaluate scope ps st.tick pairs mid) ∨
        ∃ done k e later pairs mid, ps = done ++ (k, e) :: later ∧
          PairsEvaluate scope done st.tick pairs mid ∧ PairFails scope k e mid w st' := by
  refine ⟨?_, ?_, fun _ _ => evaluates_dict_cases⟩
  · intro pairs mid hps
    refine ⟨.dict mid.clock (ofPairs pairs), rfl, Value.isMapOf_ofPairs _ _,
      hps.evaluates_dict.iff_eq, ?_⟩
    intro ps' scope' st₀ pairs' mid' hps' hreorders D' st' hD'
    obtain ⟨rfl, -⟩ := hps'.evaluates_dict.unique hD'
    rw [hreorders.ofPairs_eq]
    exact ⟨Value.equals_dict _ _ _, rfl⟩
  · rintro done k e later pairs mid w st' rfl hdone hfails
    exact (hfails.evaluates_dict hdone later).iff_eq

/-- `{true: 3, 1: 2, true: 4}`, the same with the first two pairs swapped, and
`{1: 2, []: x, 3: y}`. -/
theorem dict_literal_is_map_true_twice :
    let st := Session.fresh.store
    let ps := [(Expr.bool true, Expr.int 3), (.int 1, .int 2), (.bool true, .int 4)]
    let swapped := [(Expr.int 1, Expr.int 2), (.bool true, .int 3), (.bool true, .int 4)]
    (∃ D D' mid mid', (Expr.dict ps).Evaluates 0 st D mid ∧
      (Expr.dict swapped).Evaluates 0 st D' mid' ∧ D.index (.bool true) = .ok (.int 4) ∧
      D.index (.str "1") = .ok .null ∧ Builtin.len.call 0 [D] = .ok (.int 2) ∧
      D.equals D' = true) ∧
    ∃ st', ∀ r st'',
      (Expr.dict [(.int 1, .int 2), (.vector [], .ident "x"), (.int 3, .ident "y")]).Evaluates
          0 st r st'' ↔
        r = .error "unusable as dict key: vector" ∧ st'' = st' := by
  intro st ps swapped
  constructor
  · obtain ⟨hmap, -⟩ := dict_literal_is_map ps 0 st
    let pairs : List (Key × Value) :=
      [(.bool true, .int 3), (.int 1, .int 2), (.bool true, .int 4)]
    let pairs' : List (Key × Value) :=
      [(.int 1, .int 2), (.bool true, .int 3), (.bool true, .int 4)]
    have hps : PairsEvaluate 0 ps st.tick pairs _ :=
      .cons ⟨1, rfl⟩ rfl ⟨1, rfl⟩ rfl (.cons ⟨1, rfl⟩ rfl ⟨1, rfl⟩ rfl
        (.cons ⟨1, rfl⟩ rfl ⟨1, rfl⟩ rfl (.nil _)))
    have hswapped : PairsEvaluate 0 swapped st.tick pairs' _ :=
      .cons ⟨1, rfl⟩ rfl ⟨1, rfl⟩ rfl (.cons ⟨1, rfl⟩ rfl ⟨1, rfl⟩ rfl
        (.cons ⟨1, rfl⟩ rfl ⟨1, rfl⟩ rfl (.nil _)))
    have hreorders : Reorders pairs pairs' := Reorders.swap (by decide) _
    obtain ⟨D, -, hD, hevaluates, hreordered⟩ := hmap pairs _ hps
    have hsame := hreordered swapped 0 st pairs' _ hswapped hreorders _ _ hswapped.evaluates_dict
    refine ⟨D, _, _, _, (hevaluates D _).mpr ⟨rfl, rfl⟩, hswapped.evaluates_dict,
      hD.index_last _ _ _ rfl ⟨[(.bool true, .int 3), (.int 1, .int 2)], [], rfl, by simp⟩,
      hD.index_absent _ _ rfl (by decide), hD.len 0, hsame.1⟩
  · obtain ⟨-, hfails, -⟩ :=
      dict_literal_is_map [(.int 1, .int 2), (.vector [], .ident "x"), (.int 3, .ident "y")] 0 st
    exact ⟨_, hfails [(.int 1, .int 2)] (.vector []) (.ident "x") [(.int 3, .ident "y")]
      [(.int 1, .int 2)] _ _ _ rfl (.cons ⟨1, rfl⟩ rfl ⟨1, rfl⟩ rfl (.nil _))
      (.unusable (u := .vector 4 []) ⟨1, rfl⟩ rfl rfl)⟩

end Monkey
