import Monkey.Dict

/-!
The order of the keys of dicts. It is said here without comparing anything: integers come
before strings and strings before truth values, integers are in the order of numbers,
strings in that of dictionaries, letter by letter and each letter by its code point, and
`false` comes before `true`. Comparison decides this order, which is strict and leaves no
two different keys without one.
-/

namespace Monkey.Key

/-- Comes before another text in a dictionary. -/
def TextBefore (s t : String) : Prop :=
  List.Lex (fun c d : Char => c.toNat < d.toNat) s.toList t.toList

inductive Before : Key → Key → Prop where
  | int {m n : Int64} : m.toInt < n.toInt → Before (.int m) (.int n)
  | intStr (m : Int64) (t : String) : Before (.int m) (.str t)
  | intBool (m : Int64) (c : Bool) : Before (.int m) (.bool c)
  | str {s t : String} : TextBefore s t → Before (.str s) (.str t)
  | strBool (s : String) (c : Bool) : Before (.str s) (.bool c)
  | bool : Before (.bool false) (.bool true)

theorem compare_toInt_eq_lt_iff {m n : Int} : Ord.compare m n = .lt ↔ m < n :=
  compareOfLessAndEq_eq_lt

theorem compare_text_eq_lt_iff {s t : String} : Ord.compare s t = .lt ↔ TextBefore s t := by
  have hpoints : (fun c d : Char => c.toNat < d.toNat) = (· < ·) := by
    funext c d
    exact propext (UInt32.lt_iff_toNat_lt (a := c.val) (b := d.val)).symm
  unfold TextBefore
  rw [hpoints]
  exact compareOfLessAndEq_eq_lt

variable {k l m : Key}

theorem compare_eq_eq_iff : k.compare l = .eq ↔ k = l := by
  cases k with
  | int a =>
    cases l with
    | int b => simp [compare, Int64.toInt_inj]
    | _ => simp [compare]
  | str s =>
    cases l with
    | str t => simp [compare]
    | _ => simp [compare]
  | bool b =>
    cases l with
    | bool c => simp [compare]
    | _ => simp [compare]

theorem compare_swap (k l : Key) : (k.compare l).swap = l.compare k := by
  cases k with
  | int a =>
    cases l with
    | int b => exact Std.OrientedOrd.eq_swap.symm
    | _ => rfl
  | str s =>
    cases l with
    | str t => exact Std.OrientedOrd.eq_swap.symm
    | _ => rfl
  | bool b =>
    cases l with
    | bool c => exact Std.OrientedOrd.eq_swap.symm
    | _ => rfl

theorem compare_eq_lt_iff : k.compare l = .lt ↔ k.Before l := by
  constructor
  · intro h
    cases k with
    | int a =>
      cases l with
      | int b => exact .int (compare_toInt_eq_lt_iff.mp h)
      | str t => exact .intStr a t
      | bool c => exact .intBool a c
    | str s =>
      cases l with
      | int b => cases h
      | str t => exact .str (compare_text_eq_lt_iff.mp h)
      | bool c => exact .strBool s c
    | bool b =>
      cases l with
      | int _ | str _ => cases h
      | bool c =>
        cases b <;> cases c
        · cases h
        · exact .bool
        · cases h
        · cases h
  · intro h
    cases h with
    | int h => exact compare_toInt_eq_lt_iff.mpr h
    | str h => exact compare_text_eq_lt_iff.mpr h
    | _ => rfl

theorem compare_eq_gt_iff : k.compare l = .gt ↔ l.Before k := by
  rw [← compare_eq_lt_iff, ← compare_swap k l, Ordering.swap_eq_lt]

theorem not_before_self (k : Key) : ¬ k.Before k := by
  rw [← compare_eq_lt_iff, compare_eq_eq_iff.mpr rfl]
  nofun

theorem Before.ne (h : k.Before l) : k ≠ l := by
  rintro rfl
  exact not_before_self k h

theorem Before.trans (h : k.Before l) (h' : l.Before m) : k.Before m := by
  cases h with
  | int hab =>
    cases h' with
    | int hbc => exact .int (Int.lt_trans hab hbc)
    | intStr _ u => exact .intStr _ u
    | intBool _ d => exact .intBool _ d
  | intStr a t =>
    cases h' with
    | str _ => exact .intStr a _
    | strBool _ d => exact .intBool a d
  | intBool a _ =>
    cases h'
    exact .intBool a true
  | str hst =>
    cases h' with
    | str htu =>
      rw [← compare_text_eq_lt_iff] at hst htu
      exact .str (compare_text_eq_lt_iff.mp (Std.TransCmp.lt_trans hst htu))
    | strBool _ d => exact .strBool _ d
  | strBool s _ =>
    cases h'
    exact .strBool s true
  | bool => cases h'

/-- Of two different keys one comes before the other. -/
theorem before_or_eq_or_before (k l : Key) : k.Before l ∨ k = l ∨ l.Before k := by
  cases h : k.compare l with
  | lt => exact .inl (compare_eq_lt_iff.mp h)
  | eq => exact .inr (.inl (compare_eq_eq_iff.mp h))
  | gt => exact .inr (.inr (compare_eq_gt_iff.mp h))

end Monkey.Key
