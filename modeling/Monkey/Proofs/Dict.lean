import Mathlib.Data.List.Dedup
import Mathlib.Data.List.Induction
import Monkey.Proofs.Key

/-!
Dicts as maps. The dict of some pairs has each key once and its keys in order, and it binds
a key to the value of the last pair with this key. Entries in order are settled by what
they bind; so pairs may change places without changing their dict, as long as those with
the same key stay in the same order.
-/

namespace Monkey.Dict

variable {α : Type} {entries entries' pairs pairs' : List (Key × α)} {key k : Key} {x : α}

/-- The keys are in order, and each is there once. -/
def Sorted (entries : List (Key × α)) : Prop :=
  (entries.map Prod.fst).Pairwise Key.Before

/-- Of the pairs with this key, the last one has this value. -/
def IsLast (pairs : List (Key × α)) (key : Key) (x : α) : Prop :=
  ∃ before after, pairs = before ++ (key, x) :: after ∧ ∀ p ∈ after, p.1 ≠ key

/-- The second list has the pairs of the first one, perhaps in another order, in which the
pairs with one and the same key come in the same order. -/
def Reorders (pairs pairs' : List (Key × α)) : Prop :=
  ∀ key, pairs'.filter (·.1 = key) = pairs.filter (·.1 = key)

theorem get?_cons (k : Key) (x : α) (entries : List (Key × α)) (key : Key) :
    get? ((k, x) :: entries) key = if key = k then some x else get? entries key := by
  unfold get?
  by_cases h : key = k
  · simp [h]
  · have hne : (key == k) = false := beq_eq_false_iff_ne.mpr h
    simp [List.lookup_cons, h, hne]

theorem get?_eq_none_iff : get? entries key = none ↔ key ∉ entries.map Prod.fst := by
  induction entries with
  | nil => simp [get?]
  | cons e entries ih =>
    obtain ⟨k, x⟩ := e
    rw [get?_cons]
    by_cases h : key = k
    · simp [h]
    · simp [h, ih]

theorem mem_of_get? (h : get? entries key = some x) : (key, x) ∈ entries := by
  unfold get? at h
  obtain ⟨l₁, l₂, rfl, -⟩ := List.lookup_eq_some_iff.mp h
  exact List.mem_append_right _ List.mem_cons_self

section Insert

theorem get?_insert (entries : List (Key × α)) (key : Key) (x : α) (k : Key) :
    get? (insert key x entries) k = if k = key then some x else get? entries k := by
  induction entries with
  | nil => exact get?_cons key x [] k
  | cons e entries ih =>
    obtain ⟨l, y⟩ := e
    unfold insert
    split
    · rw [get?_cons]
    · rename_i heq
      rw [get?_cons, get?_cons, ← Key.compare_eq_eq_iff.mp heq]
      split <;> rfl
    · rename_i hgt
      have hne : l ≠ key := (Key.compare_eq_gt_iff.mp hgt).ne
      rw [get?_cons, get?_cons, ih]
      by_cases hk : k = l
      · rw [if_pos hk, if_pos hk, if_neg (hk ▸ hne)]
      · rw [if_neg hk, if_neg hk]

theorem mem_keys_insert : k ∈ (insert key x entries).map Prod.fst ↔
    k = key ∨ k ∈ entries.map Prod.fst := by
  rw [← not_iff_not, ← get?_eq_none_iff, get?_insert, not_or, ← get?_eq_none_iff]
  split
  · rename_i h
    simp [h]
  · rename_i h
    simp [h]

theorem Sorted.insert (h : Sorted entries) (key : Key) (x : α) : Sorted (insert key x entries) := by
  induction entries with
  | nil => exact List.pairwise_singleton _ _
  | cons e entries ih =>
    obtain ⟨l, y⟩ := e
    obtain ⟨hl, hentries⟩ := List.pairwise_cons.mp h
    unfold Dict.insert
    split
    · rename_i hlt
      have hbefore := Key.compare_eq_lt_iff.mp hlt
      refine List.pairwise_cons.mpr ⟨?_, h⟩
      intro k hk
      rcases List.mem_cons.mp hk with rfl | hk
      · exact hbefore
      · exact hbefore.trans (hl k hk)
    · rename_i heq
      obtain rfl := Key.compare_eq_eq_iff.mp heq
      exact List.pairwise_cons.mpr ⟨hl, hentries⟩
    · rename_i hgt
      refine List.pairwise_cons.mpr ⟨?_, ih hentries⟩
      intro k hk
      rcases mem_keys_insert.mp hk with rfl | hk
      · exact Key.compare_eq_gt_iff.mp hgt
      · exact hl k hk

end Insert

section Sorted

variable {l : Key} {y : α}

/-- The first key is not there again. -/
theorem Sorted.get?_tail (h : Sorted ((k, x) :: entries)) : get? entries k = none :=
  get?_eq_none_iff.mpr fun hmem => Key.not_before_self k ((List.pairwise_cons.mp h).1 k hmem)

theorem mem_keys_iff_of_get?_eq (hget : ∀ key, get? entries key = get? entries' key) (key : Key) :
    key ∈ entries.map Prod.fst ↔ key ∈ entries'.map Prod.fst := by
  rw [← not_iff_not, ← get?_eq_none_iff, ← get?_eq_none_iff, hget key]

/-- Of the same keys, the first one is the same, because it is before all others. -/
theorem Sorted.head_eq (h : Sorted ((k, x) :: entries)) (h' : Sorted ((l, y) :: entries'))
    (hkeys : ∀ key, key ∈ k :: entries.map Prod.fst ↔ key ∈ l :: entries'.map Prod.fst) :
    k = l := by
  rcases List.mem_cons.mp ((hkeys k).mp List.mem_cons_self) with hkl | hkl
  · exact hkl
  · rcases List.mem_cons.mp ((hkeys l).mpr List.mem_cons_self) with hlk | hlk
    · exact hlk.symm
    · have hkBefore := (List.pairwise_cons.mp h).1 l hlk
      have hlBefore := (List.pairwise_cons.mp h').1 k hkl
      exact absurd (hkBefore.trans hlBefore) (Key.not_before_self k)

/-- Entries in order are settled by what they bind. -/
theorem Sorted.ext (h : Sorted entries) (h' : Sorted entries')
    (hget : ∀ key, get? entries key = get? entries' key) : entries = entries' := by
  induction entries generalizing entries' with
  | nil =>
    cases entries' with
    | nil => rfl
    | cons e entries' => exact absurd List.mem_cons_self (get?_eq_none_iff.mp (hget e.1).symm)
  | cons e entries ih =>
    obtain ⟨k, x⟩ := e
    cases entries' with
    | nil => exact absurd List.mem_cons_self (get?_eq_none_iff.mp (hget k))
    | cons e' entries' =>
      obtain ⟨l, y⟩ := e'
      obtain rfl : k = l := h.head_eq h' (mem_keys_iff_of_get?_eq hget)
      obtain rfl : x = y := by
        have hfirst := hget k
        rw [get?_cons, get?_cons, if_pos rfl, if_pos rfl] at hfirst
        exact Option.some.inj hfirst
      rw [ih (List.pairwise_cons.mp h).2 (List.pairwise_cons.mp h').2]
      intro key
      by_cases hkey : key = k
      · rw [hkey, h.get?_tail, h'.get?_tail]
      · have hrest := hget key
        rwa [get?_cons, get?_cons, if_neg hkey, if_neg hkey] at hrest

/-- What entries in order bind is what they are. -/
theorem Sorted.mem_iff (h : Sorted entries) : (key, x) ∈ entries ↔ get? entries key = some x := by
  induction entries with
  | nil => simp [get?]
  | cons e entries ih =>
    obtain ⟨k, y⟩ := e
    rw [List.mem_cons, get?_cons, ih (List.pairwise_cons.mp h).2]
    by_cases hkey : key = k
    · simp [hkey, h.get?_tail, eq_comm]
    · simp [hkey]

end Sorted

theorem ofPairs_concat (pairs : List (Key × α)) (key : Key) (x : α) :
    ofPairs (pairs ++ [(key, x)]) = insert key x (ofPairs pairs) := by
  simp [ofPairs]

theorem sorted_ofPairs (pairs : List (Key × α)) : Sorted (ofPairs pairs) := by
  induction pairs using List.reverseRecOn with
  | nil => exact List.Pairwise.nil
  | append_singleton pairs p ih =>
    rw [ofPairs_concat]
    exact ih.insert p.1 p.2

/-- After all keys, a binding is added at the end. -/
theorem insert_eq_append (h : ∀ k ∈ entries.map Prod.fst, k.Before key) (x : α) :
    insert key x entries = entries ++ [(key, x)] := by
  induction entries with
  | nil => rfl
  | cons e entries ih =>
    obtain ⟨l, y⟩ := e
    obtain ⟨hl, hentries⟩ := List.forall_mem_cons.mp h
    simp only [insert, Key.compare_eq_gt_iff.mpr hl, ih hentries, List.cons_append]

/-- Entries in order are the dict of themselves. -/
theorem Sorted.ofPairs_eq (h : Sorted entries) : ofPairs entries = entries := by
  induction entries using List.reverseRecOn with
  | nil => rfl
  | append_singleton entries e ih =>
    obtain ⟨key, x⟩ := e
    rw [Sorted, List.map_append, List.pairwise_append] at h
    obtain ⟨hentries, -, hlast⟩ := h
    rw [ofPairs_concat, ih hentries]
    exact insert_eq_append (fun k hk => hlast k hk key List.mem_cons_self) x

theorem get?_ofPairs (pairs : List (Key × α)) (key : Key) :
    get? (ofPairs pairs) key = get? pairs.reverse key := by
  induction pairs using List.reverseRecOn with
  | nil => rfl
  | append_singleton pairs p ih =>
    rw [ofPairs_concat, get?_insert, ih, List.reverse_concat, get?_cons]

theorem mem_keys_ofPairs : key ∈ (ofPairs pairs).map Prod.fst ↔ key ∈ pairs.map Prod.fst := by
  rw [← not_iff_not, ← get?_eq_none_iff, get?_ofPairs, get?_eq_none_iff]
  simp

/-- There are as many entries as there are different keys. -/
theorem length_ofPairs (pairs : List (Key × α)) :
    (ofPairs pairs).length = (pairs.map Prod.fst).dedup.length := by
  have hnodup : ((ofPairs pairs).map Prod.fst).Nodup := (sorted_ofPairs pairs).imp Key.Before.ne
  have hperm : ((ofPairs pairs).map Prod.fst).Perm (pairs.map Prod.fst).dedup := by
    apply (List.perm_ext_iff_of_nodup hnodup (List.nodup_dedup _)).mpr
    intro key
    rw [List.mem_dedup, mem_keys_ofPairs]
  rw [← hperm.length_eq, List.length_map]

theorem get?_reverse_eq_some_iff : get? pairs.reverse key = some x ↔ IsLast pairs key x := by
  unfold get?
  rw [List.lookup_eq_some_iff]
  constructor
  · rintro ⟨after, before, hpairs, hafter⟩
    refine ⟨before.reverse, after.reverse, ?_, ?_⟩
    · rw [← List.reverse_reverse pairs, hpairs]
      simp
    · intro p hp heq
      simpa [heq] using hafter p (List.mem_reverse.mp hp)
  · rintro ⟨before, after, rfl, hafter⟩
    refine ⟨after.reverse, before.reverse, by simp, ?_⟩
    intro p hp
    exact bne_iff_ne.mpr (hafter p (List.mem_reverse.mp hp)).symm

theorem get?_ofPairs_eq_some_iff : get? (ofPairs pairs) key = some x ↔ IsLast pairs key x := by
  rw [get?_ofPairs, get?_reverse_eq_some_iff]

/-- A dict is made of the last pairs of the keys. -/
theorem mem_ofPairs_iff : (key, x) ∈ ofPairs pairs ↔ IsLast pairs key x := by
  rw [(sorted_ofPairs pairs).mem_iff, get?_ofPairs_eq_some_iff]

theorem IsLast.mem (h : IsLast pairs key x) : (key, x) ∈ pairs := by
  obtain ⟨before, after, rfl, -⟩ := h
  exact List.mem_append_right _ List.mem_cons_self

theorem mem_of_mem_ofPairs {p : Key × α} (h : p ∈ ofPairs pairs) : p ∈ pairs :=
  (mem_ofPairs_iff.mp h).mem

theorem get?_filter (pairs : List (Key × α)) (key : Key) :
    get? (pairs.filter (·.1 = key)) key = get? pairs key := by
  induction pairs with
  | nil => rfl
  | cons p pairs ih =>
    obtain ⟨k, x⟩ := p
    rw [get?_cons]
    by_cases h : key = k
    · rw [if_pos h, List.filter_cons_of_pos (by simp [h]), get?_cons, if_pos h]
    · rw [if_neg h, List.filter_cons_of_neg (by simpa [eq_comm] using h), ih]

/-- Two neighbours with different keys may change places. -/
theorem Reorders.swap {p q : Key × α} (h : p.1 ≠ q.1) (pairs : List (Key × α)) :
    Reorders (p :: q :: pairs) (q :: p :: pairs) := by
  intro key
  by_cases hp : p.1 = key
  · have hq : q.1 ≠ key := fun hq => h (hp.trans hq.symm)
    simp [hp, hq]
  · simp [hp, List.filter_cons]

theorem Reorders.ofPairs_eq (h : Reorders pairs pairs') : ofPairs pairs' = ofPairs pairs := by
  apply (sorted_ofPairs pairs').ext (sorted_ofPairs pairs)
  intro key
  rw [get?_ofPairs, get?_ofPairs, ← get?_filter pairs'.reverse, ← get?_filter pairs.reverse,
    List.filter_reverse, List.filter_reverse, h key]

end Monkey.Dict
