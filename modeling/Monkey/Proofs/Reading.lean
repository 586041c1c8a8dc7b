import Monkey.Syntax.Reading

/-!
Reasoning about readings. `Finds` says what a reading has found if it met no
error, and each way to put readings together has a rule that says what the
whole finds from what its parts find. The equations after it go the other way:
they follow a reading whose parts are known.
-/

namespace Monkey

variable {α β : Type} {m n : Nat}

namespace Reading

/-- A reading without errors. -/
def ok (a : α) (rest : List Token) : Reading α := ⟨some a, [], rest⟩

/-- Unless it met an error, the reading found a node, which together with the
rest satisfies `P`. -/
def Finds (r : Reading α) (P : α → List Token → Prop) : Prop :=
  r.errors = [] → ∃ a, r.node? = some a ∧ P a r.rest

theorem Finds.mono {r : Reading α} {P Q : α → List Token → Prop} (h : r.Finds P)
    (himp : ∀ a rest, P a rest → Q a rest) : r.Finds Q := by
  intro herrors
  obtain ⟨a, hnode, ha⟩ := h herrors
  exact ⟨a, hnode, himp a _ ha⟩

end Reading

namespace ReadingWithin

open Reading

variable {P : α → List Token → Prop} {Q : β → List Token → Prop}

theorem finds_done {a : α} {rest : List Token} (h : P a rest) :
    (done a rest).toReading.Finds P :=
  fun _ => ⟨a, rfl, h⟩

theorem finds_fail (e : SyntaxError) (rest : List Token) :
    (fail e rest : ReadingWithin rest.length α).toReading.Finds P := by
  intro herrors
  cases herrors

theorem finds_weaken {r : ReadingWithin n α} {hle : n ≤ m} (h : r.toReading.Finds P) :
    (r.weaken hle).toReading.Finds P := h

theorem finds_map {r : ReadingWithin n α} {f : α → β} (h : r.toReading.Finds P)
    (himp : ∀ a rest, P a rest → Q (f a) rest) : (r.map f).toReading.Finds Q := by
  intro herrors
  obtain ⟨a, hnode, ha⟩ := h herrors
  exact ⟨f a, congrArg (Option.map f) hnode, himp a _ ha⟩

theorem finds_andThen {r : ReadingWithin n α}
    {next : α → (rest : List Token) → rest.length ≤ n → ReadingWithin rest.length β}
    (h : r.toReading.Finds P)
    (hnext : ∀ a rest hle, P a rest → (next a rest hle).toReading.Finds Q) :
    (r.andThen next).toReading.Finds Q := by
  intro herrors
  unfold andThen at herrors ⊢
  cases hr : r.node? with
  | none =>
    simp only [hr] at herrors
    obtain ⟨a, hnode, _⟩ := h herrors
    rw [hr] at hnode
    cases hnode
  | some a =>
    simp only [hr] at herrors ⊢
    obtain ⟨hfirst, hsecond⟩ := List.append_eq_nil_iff.mp herrors
    obtain ⟨a', hnode, ha⟩ := h hfirst
    obtain rfl : a = a' := Option.some.inj (hr.symm.trans hnode)
    exact hnext a r.rest r.rest_le ha hsecond

theorem finds_regardless {r : ReadingWithin n α}
    {next : Option α → (rest : List Token) → rest.length ≤ n → ReadingWithin rest.length β}
    (h : r.toReading.Finds P)
    (hnext : ∀ a rest hle, P a rest → (next (some a) rest hle).toReading.Finds Q) :
    (r.regardless next).toReading.Finds Q := by
  intro herrors
  obtain ⟨hfirst, hsecond⟩ := List.append_eq_nil_iff.mp herrors
  obtain ⟨a, hnode, ha⟩ := h hfirst
  unfold regardless
  simp only [hnode] at hsecond ⊢
  exact hnext a r.rest r.rest_le ha hsecond

theorem finds_dropSemicolon {r : ReadingWithin n α} {Q : α → List Token → Prop}
    (h : r.toReading.Finds P)
    (hended : ∀ a rest, P a (.symbol .semicolon :: rest) → Q a rest)
    (hunended : ∀ a rest, P a rest → Q a rest) : r.dropSemicolon.toReading.Finds Q := by
  unfold dropSemicolon
  split
  · intro herrors
    obtain ⟨a, hnode, ha⟩ := h herrors
    exact ⟨a, hnode, hended a _ ha⟩
  · exact h.mono hunended

variable {r : ReadingWithin n α} {a : α} {node? : Option α} {errors : List SyntaxError}
  {mid : List Token}

/-! The errors that a reading met before it went on stay in front. -/

theorem toReading_weaken (r : ReadingWithin n α) (hle : n ≤ m) :
    (r.weaken hle).toReading = r.toReading := rfl

theorem rest_le_of_eq (h : r.toReading = ⟨node?, errors, mid⟩) : mid.length ≤ n := by
  have hle := r.rest_le
  rw [h] at hle
  exact hle

theorem map_of_eq (h : r.toReading = ⟨node?, errors, mid⟩) (f : α → β) :
    (r.map f).toReading = ⟨node?.map f, errors, mid⟩ := by
  obtain ⟨r, hle⟩ := r
  subst h
  rfl

theorem andThen_of_node (h : r.toReading = ⟨some a, errors, mid⟩)
    (next : α → (rest : List Token) → rest.length ≤ n → ReadingWithin rest.length β)
    {s : Reading β} (hs : (next a mid (rest_le_of_eq h)).toReading = s) :
    (r.andThen next).toReading = ⟨s.node?, errors ++ s.errors, s.rest⟩ := by
  have hmid := rest_le_of_eq h
  change (next a mid hmid).toReading = s at hs
  obtain ⟨r, hle⟩ := r
  subst h hs
  rfl

theorem andThen_of_none (h : r.toReading = ⟨none, errors, mid⟩)
    (next : α → (rest : List Token) → rest.length ≤ n → ReadingWithin rest.length β) :
    (r.andThen next).toReading = ⟨none, errors, mid⟩ := by
  obtain ⟨r, hle⟩ := r
  subst h
  rfl

theorem regardless_of_eq (h : r.toReading = ⟨node?, errors, mid⟩)
    (next : Option α → (rest : List Token) → rest.length ≤ n → ReadingWithin rest.length β)
    {s : Reading β} (hs : (next node? mid (rest_le_of_eq h)).toReading = s) :
    (r.regardless next).toReading = ⟨s.node?, errors ++ s.errors, s.rest⟩ := by
  have hmid := rest_le_of_eq h
  change (next node? mid hmid).toReading = s at hs
  obtain ⟨r, hle⟩ := r
  subst h hs
  rfl

theorem dropSemicolon_of_node (h : r.toReading = ⟨some a, errors, .symbol .semicolon :: mid⟩) :
    r.dropSemicolon.toReading = ⟨some a, errors, mid⟩ := by
  obtain ⟨r, hle⟩ := r
  subst h
  rfl

theorem dropSemicolon_of_none (h : r.toReading = ⟨none, errors, mid⟩) :
    r.dropSemicolon.toReading = ⟨none, errors, mid⟩ := by
  obtain ⟨r, hle⟩ := r
  subst h
  rfl

theorem dropSemicolon_of_head (h : r.toReading = ⟨node?, errors, mid⟩)
    (hmid : mid.head? ≠ some (.symbol .semicolon)) :
    r.dropSemicolon.toReading = ⟨node?, errors, mid⟩ := by
  obtain ⟨r, hle⟩ := r
  subst h
  unfold dropSemicolon
  split
  · rename_i heq
    cases heq
    exact absurd rfl hmid
  · rfl

/-! A reading that found a node without errors leaves everything to what comes next. -/

theorem map_of_ok (h : r.toReading = .ok a mid) (f : α → β) :
    (r.map f).toReading = .ok (f a) mid :=
  map_of_eq h f

theorem andThen_of_ok (h : r.toReading = .ok a mid)
    (next : α → (rest : List Token) → rest.length ≤ n → ReadingWithin rest.length β) :
    (r.andThen next).toReading = (next a mid (rest_le_of_eq h)).toReading :=
  andThen_of_node h next rfl

theorem weaken_andThen_of_ok (h : r.toReading = .ok a mid) {hle : n ≤ m}
    (next : α → (rest : List Token) → rest.length ≤ m → ReadingWithin rest.length β) :
    ((r.weaken hle).andThen next).toReading =
      (next a mid (Nat.le_trans (rest_le_of_eq h) hle)).toReading := by
  have hweaken : (r.weaken hle).toReading = .ok a mid := h
  exact andThen_of_ok hweaken next

theorem regardless_of_ok (h : r.toReading = .ok a mid)
    (next : Option α → (rest : List Token) → rest.length ≤ n → ReadingWithin rest.length β) :
    (r.regardless next).toReading = (next (some a) mid (rest_le_of_eq h)).toReading :=
  regardless_of_eq h next rfl

theorem dropSemicolon_of_ended (h : r.toReading = .ok a (.symbol .semicolon :: mid)) :
    r.dropSemicolon.toReading = .ok a mid :=
  dropSemicolon_of_node h

theorem dropSemicolon_of_unended (h : r.toReading = .ok a mid)
    (hmid : mid.head? ≠ some (.symbol .semicolon)) : r.dropSemicolon.toReading = .ok a mid :=
  dropSemicolon_of_head h hmid

end ReadingWithin

end Monkey
