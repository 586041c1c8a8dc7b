import Monkey.Proofs.Lexing.Drawing
import Monkey.Proofs.Readers

/-!
The trees that can be written. A canonical tree names things by names, holds no
negative integer and no string with a quote in it; for the rest it is free.

The parser produces no others, whatever text it is given. That is not a matter
of what was written being right: a reading that goes wrong may still come with a
node, and so `Yields` speaks of every node of a reading, and of the tokens that
are left for the next one.
-/

namespace Monkey

mutual

def Expr.Canonical : Expr → Prop
  | .ident name => IsName name
  | .int n => 0 ≤ n.toInt
  | .str text => '"' ∉ text.toList
  | .bool _ => True
  | .unary _ a => a.Canonical
  | .binary _ a b => a.Canonical ∧ b.Canonical
  | .cond c t none => c.Canonical ∧ Block.Canonical t
  | .cond c t (some e) => c.Canonical ∧ Block.Canonical t ∧ Block.Canonical e
  | .function params body => (∀ name ∈ params, IsName name) ∧ Block.Canonical body
  | .call f args => f.Canonical ∧ Expr.EachCanonical args
  | .vector es => Expr.EachCanonical es
  | .dict ps => Expr.PairsCanonical ps
  | .index a i => a.Canonical ∧ i.Canonical

def Statement.Canonical : Statement → Prop
  | .let name e => IsName name ∧ e.Canonical
  | .return e => e.Canonical
  | .expr e => e.Canonical

def Block.Canonical : List Statement → Prop
  | [] => True
  | s :: ss => s.Canonical ∧ Block.Canonical ss

def Expr.EachCanonical : List Expr → Prop
  | [] => True
  | e :: es => e.Canonical ∧ Expr.EachCanonical es

def Expr.PairsCanonical : List (Expr × Expr) → Prop
  | [] => True
  | (k, v) :: ps => k.Canonical ∧ v.Canonical ∧ Expr.PairsCanonical ps

end

theorem Block.canonical_append_toList {s? : Option Statement} {ss : List Statement}
    (hs : ∀ s, s? = some s → s.Canonical) (hss : Block.Canonical ss) :
    Block.Canonical (s?.toList ++ ss) := by
  cases s? with
  | none => exact hss
  | some s => exact ⟨hs s rfl, hss⟩

/-- All these tokens can be written. -/
def AllWellFormed (ts : List Token) : Prop :=
  ∀ t ∈ ts, t.WellFormed

theorem allWellFormed_cons {t : Token} {ts : List Token} :
    AllWellFormed (t :: ts) ↔ t.WellFormed ∧ AllWellFormed ts :=
  List.forall_mem_cons

theorem allWellFormed_nil : AllWellFormed [] := by
  intro t ht
  cases ht

variable {α β : Type} {m n : Nat}

/-- The node, if there is one, satisfies `P`, and the tokens that are left can be
written. -/
structure Reading.Yields (r : Reading α) (P : α → Prop) : Prop where
  node : ∀ a, r.node? = some a → P a
  rest : AllWellFormed r.rest

namespace ReadingWithin

open Reading

variable {P : α → Prop} {Q : β → Prop}

theorem yields_done {a : α} {rest : List Token} (ha : P a) (hrest : AllWellFormed rest) :
    (done a rest).toReading.Yields P := by
  refine ⟨?_, hrest⟩
  rintro _ ⟨⟩
  exact ha

theorem yields_fail (e : SyntaxError) {rest : List Token} (hrest : AllWellFormed rest) :
    (fail e rest : ReadingWithin rest.length α).toReading.Yields P := by
  refine ⟨?_, hrest⟩
  rintro _ ⟨⟩

theorem yields_weaken {r : ReadingWithin n α} {hle : n ≤ m} (h : r.toReading.Yields P) :
    (r.weaken hle).toReading.Yields P := h

theorem yields_map {r : ReadingWithin n α} {f : α → β} (h : r.toReading.Yields P)
    (himp : ∀ a, P a → Q (f a)) : (r.map f).toReading.Yields Q := by
  refine ⟨?_, h.rest⟩
  intro b hb
  obtain ⟨a, ha, rfl⟩ := Option.map_eq_some_iff.mp hb
  exact himp a (h.node a ha)

theorem yields_regardless {r : ReadingWithin n α}
    {next : Option α → (rest : List Token) → rest.length ≤ n → ReadingWithin rest.length β}
    (h : r.toReading.Yields P)
    (hnext : ∀ a? rest hle, (∀ a, a? = some a → P a) → AllWellFormed rest →
      (next a? rest hle).toReading.Yields Q) : (r.regardless next).toReading.Yields Q := by
  have hsecond := hnext r.node? r.rest r.rest_le h.node h.rest
  exact ⟨hsecond.node, hsecond.rest⟩

theorem yields_andThen {r : ReadingWithin n α}
    {next : α → (rest : List Token) → rest.length ≤ n → ReadingWithin rest.length β}
    (h : r.toReading.Yields P)
    (hnext : ∀ a rest hle, P a → AllWellFormed rest → (next a rest hle).toReading.Yields Q) :
    (r.andThen next).toReading.Yields Q := by
  unfold andThen
  cases hr : r.node? with
  | none =>
    refine ⟨?_, h.rest⟩
    rintro _ ⟨⟩
  | some a =>
    have hsecond := hnext a r.rest r.rest_le (h.node a hr) h.rest
    exact ⟨hsecond.node, hsecond.rest⟩

theorem yields_dropSemicolon {r : ReadingWithin n α} (h : r.toReading.Yields P) :
    r.dropSemicolon.toReading.Yields P := by
  unfold dropSemicolon
  split
  · exact ⟨h.node, (allWellFormed_cons.mp h.rest).2⟩
  · exact h

end ReadingWithin

open ReadingWithin

theorem Kind.read_yields (kind : Kind) {ts : List Token} (hts : AllWellFormed ts) :
    (kind.read ts).toReading.Yields fun _ => True := by
  unfold Kind.read
  split
  · exact yields_fail _ allWellFormed_nil
  · split
    · exact yields_weaken (yields_done trivial (allWellFormed_cons.mp hts).2)
    · exact yields_fail _ hts

theorem readName_yields {ts : List Token} (hts : AllWellFormed ts) :
    (readName ts).toReading.Yields IsName := by
  unfold readName
  split
  · obtain ⟨hname, hrest⟩ := allWellFormed_cons.mp hts
    exact yields_weaken (yields_done hname hrest)
  · exact yields_fail _ hts

theorem readMoreParams_yields {ts : List Token} (hts : AllWellFormed ts) :
    (readMoreParams ts).toReading.Yields fun names => ∀ name ∈ names, IsName name := by
  induction ts using readMoreParams.induct with
  | case1 name ts ih =>
    rw [readMoreParams_name]
    obtain ⟨-, hts⟩ := allWellFormed_cons.mp hts
    obtain ⟨hname, hts⟩ := allWellFormed_cons.mp hts
    refine yields_weaken (yields_map (ih hts) ?_)
    intro names hnames
    exact List.forall_mem_cons.mpr ⟨hname, hnames⟩
  | case2 ts hname =>
    rw [readMoreParams_comma hname]
    obtain ⟨-, hts⟩ := allWellFormed_cons.mp hts
    exact yields_weaken (yields_fail _ hts)
  | case3 ts _ hcomma =>
    rw [readMoreParams_end hcomma]
    refine yields_map (Kind.read_yields _ hts) ?_
    intro _ _ name hname
    cases hname

theorem readParams_yields {ts : List Token} (hts : AllWellFormed ts) :
    (readParams ts).toReading.Yields fun names => ∀ name ∈ names, IsName name := by
  unfold readParams
  split
  · refine yields_weaken (yields_done ?_ (allWellFormed_cons.mp hts).2)
    intro name hname
    cases hname
  · refine yields_andThen (readName_yields hts) ?_
    intro name us hle hname hus
    refine yields_map (readMoreParams_yields hus) ?_
    intro names hnames
    exact List.forall_mem_cons.mpr ⟨hname, hnames⟩

/-- What a numeral stands for is not negative. -/
theorem Integer.ofDigits?_nonneg {digits : String} {n : Int64}
    (h : Integer.ofDigits? digits = some n) : 0 ≤ n.toInt := by
  unfold Integer.ofDigits? at h
  simp only at h
  split at h
  · rename_i hle
    have hlt := Nat.lt_succ_of_le hle
    cases h
    rw [Int64.toInt_ofNat_of_lt hlt]
    exact Int.natCast_nonneg _
  · cases h

theorem yields_unary (op : UnaryOp) {ts : List Token}
    (h : (Expr.read UnaryOp.power ts).toReading.Yields Expr.Canonical) :
    (Expr.readOperand (.symbol op.symbol :: ts)).toReading.Yields Expr.Canonical := by
  rw [Expr.readOperand_unary]
  exact yields_weaken (yields_map h fun a ha => ha)

mutual

theorem Expr.read_yields (power : Nat) (ts : List Token) (hts : AllWellFormed ts) :
    (Expr.read power ts).toReading.Yields Expr.Canonical := by
  rw [Expr.read]
  apply yields_andThen (Expr.readOperand_yields ts hts)
  intro left rest hle hleft hrest
  exact Expr.readSuffixes_yields power left rest hleft hrest
termination_by 4 * ts.length + 1
decreasing_by
  all_goals
    simp only [List.length_tail] at *
    omega

theorem Expr.readOperand_yields (ts : List Token) (hts : AllWellFormed ts) :
    (Expr.readOperand ts).toReading.Yields Expr.Canonical := by
  cases ts with
  | nil =>
    rw [Expr.readOperand_nil]
    exact yields_fail _ allWellFormed_nil
  | cons t us =>
    obtain ⟨ht, hus⟩ := allWellFormed_cons.mp hts
    by_cases hstarts : t.startsExpr = true
    · cases t with
      | ident name =>
        rw [Expr.readOperand_ident]
        exact yields_done ht hus
      | int digits =>
        cases hdigits : Integer.ofDigits? digits with
        | none =>
          rw [Expr.readOperand_tooLarge us hdigits]
          exact yields_fail _ hus
        | some n =>
          rw [Expr.readOperand_int us hdigits]
          exact yields_done (Integer.ofDigits?_nonneg hdigits) hus
      | str text =>
        rw [Expr.readOperand_str]
        exact yields_done ht hus
      | keyword k =>
        cases k with
        | true =>
          rw [Expr.readOperand_true]
          exact yields_done trivial hus
        | false =>
          rw [Expr.readOperand_false]
          exact yields_done trivial hus
        | «if» =>
          rw [Expr.readOperand_if]
          apply yields_andThen (Kind.read_yields _ hus)
          intro _ us₁ hle₁ _ hus₁
          apply yields_andThen (yields_weaken (Expr.read_yields 0 us₁ hus₁))
          intro c us₂ hle₂ hc hus₂
          apply yields_andThen (Kind.read_yields _ hus₂)
          intro _ us₃ hle₃ _ hus₃
          apply yields_andThen (Kind.read_yields _ hus₃)
          intro _ us₄ hle₄ _ hus₄
          apply yields_andThen (Block.read_yields us₄ hus₄)
          intro t us₅ hle₅ ht hus₅
          split
          · rename_i us₆ _
            have hus₆ := (allWellFormed_cons.mp hus₅).2
            apply yields_weaken
            apply yields_andThen (Kind.read_yields _ hus₆)
            intro _ us₇ hle₇ _ hus₇
            apply yields_map (Block.read_yields us₇ hus₇)
            intro e he
            exact ⟨hc, ht, he⟩
          · exact yields_done ⟨hc, ht⟩ hus₅
        | fn =>
          rw [Expr.readOperand_fn]
          apply yields_andThen (Kind.read_yields _ hus)
          intro _ us₁ hle₁ _ hus₁
          apply yields_andThen (readParams_yields hus₁)
          intro params us₂ hle₂ hparams hus₂
          apply yields_andThen (Kind.read_yields _ hus₂)
          intro _ us₃ hle₃ _ hus₃
          apply yields_map (Block.read_yields us₃ hus₃)
          intro body hbody
          exact ⟨hparams, hbody⟩
        | «let» | «else» | «return» => cases hstarts
      | symbol s =>
        cases s with
        | bang => exact yields_unary .bang (Expr.read_yields UnaryOp.power us hus)
        | minus => exact yields_unary .minus (Expr.read_yields UnaryOp.power us hus)
        | lparen =>
          rw [Expr.readOperand_lparen]
          apply yields_weaken
          apply yields_andThen (Expr.read_yields 0 us hus)
          intro e us₁ hle₁ he hus₁
          exact yields_map (Kind.read_yields _ hus₁) fun _ _ => he
        | lbracket =>
          rw [Expr.readOperand_lbracket]
          exact yields_map (Expr.readList_yields _ us hus) fun es hes => hes
        | lbrace =>
          rw [Expr.readOperand_lbrace]
          exact yields_map (Expr.readPairs_yields us hus) fun ps hps => hps
        | _ => cases hstarts
      | illegal | eof => cases hstarts
    · rw [Expr.readOperand_of_not_starts us (Bool.eq_false_iff.mpr hstarts)]
      exact yields_fail _ hus
termination_by 4 * ts.length + 0
decreasing_by
  all_goals
    subst_vars
    simp only [List.length_cons] at *
    omega

theorem Expr.readSuffixes_yields (power : Nat) (left : Expr) (ts : List Token)
    (hleft : left.Canonical) (hts : AllWellFormed ts) :
    (Expr.readSuffixes power left ts).toReading.Yields Expr.Canonical := by
  by_cases hle : nextPower ts ≤ power
  · rw [Expr.readSuffixes_of_le left hle]
    exact yields_done hleft hts
  · obtain ⟨s, us, rfl, hpower⟩ := exists_suffix_of_lt_nextPower (Nat.not_le.mp hle)
    have hus := (allWellFormed_cons.mp hts).2
    cases s with
    | operator op =>
      rw [Suffix.token, Expr.readSuffixes_operator left hpower]
      apply yields_weaken
      apply yields_andThen (yields_weaken (Expr.read_yields _ us hus))
      intro right vs hvs hright hvs'
      exact Expr.readSuffixes_yields power _ vs ⟨hleft, hright⟩ hvs'
    | call =>
      rw [Suffix.token, Expr.readSuffixes_call left hpower]
      apply yields_weaken
      apply yields_andThen (Expr.readList_yields _ us hus)
      intro args vs hvs hargs hvs'
      exact Expr.readSuffixes_yields power _ vs ⟨hleft, hargs⟩ hvs'
    | index =>
      rw [Suffix.token, Expr.readSuffixes_index left hpower]
      apply yields_weaken
      apply yields_andThen (yields_weaken (Expr.read_yields 0 us hus))
      intro key vs hvs hkey hvs'
      apply yields_andThen (Kind.read_yields _ hvs')
      intro _ ws hws _ hws'
      exact Expr.readSuffixes_yields power _ ws ⟨hleft, hkey⟩ hws'
termination_by 4 * ts.length + 0
decreasing_by
  all_goals
    subst_vars
    simp only [List.length_cons] at *
    omega

theorem Expr.readList_yields (close : Kind) (ts : List Token) (hts : AllWellFormed ts) :
    (Expr.readList close ts).toReading.Yields Expr.EachCanonical := by
  rw [Expr.readList]
  split
  · apply yields_weaken
    exact yields_done trivial fun t ht => hts t (List.mem_of_mem_tail ht)
  · apply yields_andThen (yields_weaken (Expr.read_yields 0 ts hts))
    intro e us hle he hus
    apply yields_map (Expr.readMoreList_yields close us hus)
    intro es hes
    exact ⟨he, hes⟩
termination_by 4 * ts.length + 2
decreasing_by
  all_goals omega

theorem Expr.readMoreList_yields (close : Kind) (ts : List Token) (hts : AllWellFormed ts) :
    (Expr.readMoreList close ts).toReading.Yields Expr.EachCanonical := by
  rw [Expr.readMoreList.eq_def]
  split
  · rename_i us
    have hus := (allWellFormed_cons.mp hts).2
    apply yields_weaken
    apply yields_andThen (Expr.read_yields 0 us hus)
    intro e vs hle he hvs
    apply yields_map (Expr.readMoreList_yields close vs hvs)
    intro es hes
    exact ⟨he, hes⟩
  · exact yields_map (Kind.read_yields _ hts) fun _ _ => trivial
termination_by 4 * ts.length + 0
decreasing_by
  all_goals
    subst_vars
    simp only [List.length_cons, List.length_tail] at *
    omega

theorem Expr.readPairs_yields (ts : List Token) (hts : AllWellFormed ts) :
    (Expr.readPairs ts).toReading.Yields Expr.PairsCanonical := by
  rw [Expr.readPairs.eq_def]
  split
  · exact yields_weaken (yields_done trivial (allWellFormed_cons.mp hts).2)
  · apply yields_andThen (yields_weaken (Expr.read_yields 0 ts hts))
    intro k us₁ hle₁ hk hus₁
    apply yields_andThen (Kind.read_yields _ hus₁)
    intro _ us₂ hle₂ _ hus₂
    apply yields_andThen (yields_weaken (Expr.read_yields 0 us₂ hus₂))
    intro v us₃ hle₃ hv hus₃
    split
    · exact yields_weaken (yields_done ⟨hk, hv, trivial⟩ (allWellFormed_cons.mp hus₃).2)
    · rename_i us₄ _
      have hus₄ := (allWellFormed_cons.mp hus₃).2
      apply yields_weaken
      apply yields_map (Expr.readPairs_yields us₄ hus₄)
      intro ps hps
      exact ⟨hk, hv, hps⟩
    · exact yields_fail _ hus₃
termination_by 4 * ts.length + 2
decreasing_by
  all_goals
    subst_vars
    simp only [List.length_cons] at *
    omega

theorem Block.read_yields (ts : List Token) (hts : AllWellFormed ts) :
    (Block.read ts).toReading.Yields Block.Canonical := by
  rw [Block.read.eq_def]
  split
  · exact yields_fail _ allWellFormed_nil
  · exact yields_weaken (yields_done trivial (allWellFormed_cons.mp hts).2)
  · rename_i t us _
    apply yields_weaken
    apply yields_regardless (Statement.read_yields (t :: us) hts)
    intro s? vs hle hs hvs
    apply yields_map (Block.read_yields vs hvs)
    intro ss hss
    exact Block.canonical_append_toList hs hss
termination_by 4 * ts.length + 3
decreasing_by
  all_goals
    subst_vars
    simp only [List.length_cons, List.length_tail] at *
    omega

theorem Statement.read_yields (ts : List Token) (hts : AllWellFormed ts) :
    (Statement.read ts).toReading.Yields Statement.Canonical := by
  by_cases hlet : ∃ us, ts = .keyword .let :: us
  · obtain ⟨us, rfl⟩ := hlet
    have hus := (allWellFormed_cons.mp hts).2
    rw [Statement.read_let]
    apply yields_dropSemicolon
    apply yields_andThen (readName_yields hus)
    intro name us₁ hle₁ hname hus₁
    apply yields_andThen (Kind.read_yields _ hus₁)
    intro _ us₂ hle₂ _ hus₂
    apply yields_weaken
    apply yields_map (Expr.read_yields 0 us₂ hus₂)
    intro e he
    exact ⟨hname, he⟩
  · by_cases hreturn : ∃ us, ts = .keyword .return :: us
    · obtain ⟨us, rfl⟩ := hreturn
      have hus := (allWellFormed_cons.mp hts).2
      rw [Statement.read_return]
      apply yields_dropSemicolon
      apply yields_weaken
      exact yields_map (Expr.read_yields 0 us hus) fun e he => he
    · rw [Statement.read_expr ts (not_exists.mp hlet) (not_exists.mp hreturn)]
      apply yields_dropSemicolon
      exact yields_map (Expr.read_yields 0 ts hts) fun e he => he
termination_by 4 * ts.length + 2
decreasing_by
  all_goals
    subst_vars
    simp only [List.length_cons] at *
    omega

end

theorem Program.read_yields (ts : List Token) (hts : AllWellFormed ts) :
    (Program.read ts).Yields Block.Canonical := by
  fun_induction Program.read ts with
  | case1 =>
    constructor
    · intro p hp
      obtain rfl : [] = p := Option.some.inj hp
      trivial
    · exact allWellFormed_nil
  | case2 t ts s p ih =>
    have hs : s.toReading.Yields Statement.Canonical := Statement.read_yields (t :: ts) hts
    have hp : p.Yields Block.Canonical := ih hs.rest
    constructor
    · intro q hq
      obtain ⟨ss, hss, rfl⟩ := Option.map_eq_some_iff.mp hq
      exact Block.canonical_append_toList hs.node (hp.node ss hss)
    · exact hp.rest

/-- Whatever the text, the statements that are read of it are canonical. -/
theorem parse_canonical (source : String) : Block.Canonical (parse source).1 := by
  have h := Program.read_yields _ (tokens_wellFormed source.toList)
  rw [parse_eq]
  cases hnode : (Program.read (tokens source.toList)).node? with
  | none => trivial
  | some p => exact h.node p hnode

end Monkey
