import Monkey.Proofs.Grammar.Parse
import Monkey.Proofs.Lexing.Apart

/-!
How far a mistake reaches. Without braces before it, a token that ends statements
or blocks is passed over by no reading but one: where an expression is to start,
reading fails and leaves the token behind all the same. So a block whose statements
go wrong ends at its closing brace, and holds the statements that are right, unless
it comes to the brace where an expression is to start. Then it goes on without end.
-/

namespace Monkey

open ReadingWithin

/-- There are neither blocks nor dicts in the tokens. -/
def Braceless (ts : List Token) : Prop :=
  ∀ t ∈ ts, t ≠ .symbol .lbrace ∧ t ≠ .symbol .rbrace

/-- An expression was to start at a closing brace. -/
def braceTaken : SyntaxError := .noExpression (.symbol .rbrace)

theorem Braceless.tail {t : Token} {ts : List Token} (h : Braceless (t :: ts)) : Braceless ts :=
  fun u hu => h u (List.mem_cons_of_mem t hu)

theorem Braceless.noExpression_ne {t : Token} {ts : List Token} (h : Braceless (t :: ts)) :
    .noExpression t.kind ≠ braceTaken := by
  intro heq
  have hkind : t.kind = .symbol .rbrace := SyntaxError.noExpression.inj heq
  exact (h t List.mem_cons_self).2 (Token.eq_symbol_of_kind hkind)

/-- What comes behind a few tokens: nothing more, or what ends them. -/
inductive AtEnd (stop : Symbol) : List Token → Prop where
  | nothing : AtEnd stop []
  | stops (us : List Token) : AtEnd stop (.symbol stop :: us)

/-- How a reading meets the end of a few tokens. Either it stays before the end, and
what comes there is at most named in its errors; or it takes along what ends them. -/
inductive Meets {α : Type} (stop : Symbol) (outcome : List Token → Reading α) : Prop where
  | before (node? : Option α) (rest : List Token) (errors : Kind → List SyntaxError) :
      Braceless rest → (∀ found, braceTaken ∉ errors found) →
      (∀ us, AtEnd stop us → outcome us = ⟨node?, errors (Kind.ofHead us), rest ++ us⟩) →
      Meets stop outcome
  | takes (errors : List SyntaxError) :
      (∀ us, outcome (.symbol stop :: us) =
        ⟨none, errors ++ [.noExpression (.symbol stop)], us⟩) →
      Meets stop outcome

/-- All tokens without braces, up to a number of them, are read so. -/
def MeetsWithin {α : Type} (stop : Symbol) (bound : Nat) (read : List Token → Reading α) : Prop :=
  ∀ ts : List Token, Braceless ts → ts.length ≤ bound → Meets stop fun us => read (ts ++ us)

section Rules

variable {α β : Type} {stop : Symbol} {n : List Token → Nat}
  {r : (us : List Token) → ReadingWithin (n us) α} {bound : Nat}

theorem Meets.congr {outcome outcome' : List Token → Reading α} (h : Meets stop outcome')
    (heq : ∀ us, AtEnd stop us → outcome us = outcome' us) : Meets stop outcome := by
  cases h with
  | before node? rest errors hrest herrors h =>
    exact .before node? rest errors hrest herrors fun us hus => (heq us hus).trans (h us hus)
  | takes errors h => exact .takes errors fun us => (heq _ (.stops us)).trans (h us)

theorem meets_ok (a : α) {ts : List Token} (hts : Braceless ts) :
    Meets stop fun us => .ok a (ts ++ us) :=
  .before (some a) ts (fun _ => []) hts (fun _ => List.not_mem_nil) fun _ _ => rfl

theorem meets_fail (e : SyntaxError) (he : e ≠ braceTaken) {ts : List Token}
    (hts : Braceless ts) :
    Meets stop fun us => (fail e (ts ++ us) : ReadingWithin _ α).toReading :=
  .before none ts (fun _ => [e]) hts (fun _ h => he (List.mem_singleton.mp h).symm)
    fun _ _ => rfl

theorem meets_map {f : α → β} (h : Meets stop fun us => (r us).toReading) :
    Meets stop fun us => ((r us).map f).toReading := by
  cases h with
  | before node? rest errors hrest herrors h =>
    exact .before (node?.map f) rest errors hrest herrors fun us hus => map_of_eq (h us hus) f
  | takes errors h => exact .takes errors fun us => map_of_eq (h us) f

theorem meets_weaken {m : List Token → Nat} (hle : ∀ us, n us ≤ m us)
    (h : Meets stop fun us => (r us).toReading) :
    Meets stop fun us => ((r us).weaken (hle us)).toReading := h

variable {next : (us : List Token) → α → (rest : List Token) → rest.length ≤ n us →
    ReadingWithin rest.length β} {step : α → List Token → Reading β}

theorem meets_andThen
    (hstep : ∀ us a rest hle, (next us a rest hle).toReading = step a rest)
    (hn : n [] ≤ bound) (h : Meets stop fun us => (r us).toReading)
    (hnext : ∀ a, MeetsWithin stop bound (step a)) :
    Meets stop fun us => ((r us).andThen (next us)).toReading := by
  cases h with
  | takes errors h => exact .takes errors fun us => andThen_of_none (h us) _
  | before node? rest errors hrest herrors h =>
    cases node? with
    | none =>
      exact .before none rest errors hrest herrors fun us hus => andThen_of_none (h us hus) _
    | some a =>
      have hlength : rest.length ≤ bound := by
        have hle := rest_le_of_eq (h [] .nothing)
        rw [List.append_nil] at hle
        exact Nat.le_trans hle hn
      cases hnext a rest hrest hlength with
      | before node? rest' errors' hrest' herrors' h' =>
        refine .before node? rest' (fun found => errors found ++ errors' found) hrest' ?_ ?_
        · intro found hmem
          exact (List.mem_append.mp hmem).elim (herrors found) (herrors' found)
        · intro us hus
          exact andThen_of_node (h us hus) _ ((hstep _ _ _ _).trans (h' us hus))
      | takes errors' h' =>
        refine .takes (errors (.symbol stop) ++ errors') fun us => ?_
        rw [andThen_of_node (h _ (.stops us)) _ ((hstep _ _ _ _).trans (h' us)),
          List.append_assoc]
        rfl

theorem MeetsWithin.map {f : α → β} (h : MeetsWithin stop bound fun ts => (r ts).toReading) :
    MeetsWithin stop bound fun ts => ((r ts).map f).toReading :=
  fun ts hts hle => meets_map (h ts hts hle)

theorem MeetsWithin.andThen
    (hstep : ∀ us a rest hle, (next us a rest hle).toReading = step a rest)
    (hn : ∀ ts, n ts ≤ ts.length) (h : MeetsWithin stop bound fun ts => (r ts).toReading)
    (hnext : ∀ a, MeetsWithin stop bound (step a)) :
    MeetsWithin stop bound fun ts => ((r ts).andThen (next ts)).toReading := by
  intro ts hts hle
  have hbound : n (ts ++ []) ≤ bound := by
    have hlength := hn (ts ++ [])
    rw [List.append_nil] at hlength ⊢
    exact Nat.le_trans hlength hle
  exact meets_andThen (fun us => hstep (ts ++ us)) hbound (h ts hts hle) hnext

/-- A closing brace is no semicolon, and one that was read before it is dropped as
anywhere. -/
theorem meets_dropSemicolon (h : Meets .rbrace fun us => (r us).toReading) :
    Meets .rbrace fun us => (r us).dropSemicolon.toReading := by
  cases h with
  | takes errors h => exact .takes errors fun us => dropSemicolon_of_none (h us)
  | before node? rest errors hrest herrors h =>
    cases rest with
    | nil =>
      refine .before node? [] errors hrest herrors fun us hus => ?_
      apply dropSemicolon_of_head (h us hus)
      cases hus with
      | nothing => exact nofun
      | stops us => simp
    | cons t rest =>
      by_cases ht : t = .symbol .semicolon
      · subst ht
        cases node? with
        | none =>
          exact .before none _ errors hrest herrors fun us hus => dropSemicolon_of_none (h us hus)
        | some a =>
          exact .before (some a) rest errors hrest.tail herrors fun us hus =>
            dropSemicolon_of_node (h us hus)
      · refine .before node? (t :: rest) errors hrest herrors fun us hus => ?_
        exact dropSemicolon_of_head (h us hus) fun hhead => ht (Option.some.inj hhead)

end Rules

section Parts

variable {stop : Symbol} {ts us : List Token}

theorem AtEnd.kind_ne (h : AtEnd stop us) {s : Symbol} (hs : s ≠ stop) :
    Kind.ofHead us ≠ .symbol s := by
  cases h with
  | nothing => exact nofun
  | stops us => exact fun heq => hs (Kind.symbol.inj heq).symm

theorem AtEnd.head_ne (h : AtEnd stop us) {s : Symbol} (hs : s ≠ stop) :
    us.head? ≠ some (.symbol s) := by
  cases h with
  | nothing => exact nofun
  | stops us => exact fun heq => hs (Token.symbol.inj (Option.some.inj heq)).symm

theorem AtEnd.nextPower_eq (h : AtEnd stop us) (hstop : (Token.symbol stop).power = 0) :
    nextPower us = 0 := by
  cases h with
  | nothing => rfl
  | stops us => exact hstop

theorem ne_stop (hstop : stop = .rbrace ∨ stop = .semicolon) {s : Symbol}
    (hs : s ≠ .rbrace ∧ s ≠ .semicolon) : s ≠ stop := by
  rcases hstop with rfl | rfl
  · exact hs.1
  · exact hs.2

theorem Kind.read_of_ne {kind : Kind} (h : Kind.ofHead ts ≠ kind) :
    (kind.read ts).toReading = ⟨none, [.unexpected kind (Kind.ofHead ts)], ts⟩ := by
  cases ts with
  | nil => rfl
  | cons t ts =>
    have hkind : t.kind ≠ kind := h
    rw [Kind.read, if_neg hkind]
    rfl

theorem readName_of_ne (h : ∀ name us, ts ≠ .ident name :: us) :
    (readName ts).toReading = ⟨none, [.unexpected .ident (Kind.ofHead ts)], ts⟩ := by
  cases ts with
  | nil => rfl
  | cons t ts =>
    cases t with
    | ident name => exact absurd rfl (h name ts)
    | _ => rfl

theorem unexpected_ne {expected found : Kind} : .unexpected expected found ≠ braceTaken := nofun

theorem meets_unexpected {α : Type} (kind : Kind) :
    Meets stop fun us => (⟨none, [.unexpected kind (Kind.ofHead us)], us⟩ : Reading α) := by
  refine .before none [] (fun found => [.unexpected kind found]) ?_ ?_ fun us _ => rfl
  · exact fun t ht => absurd ht List.not_mem_nil
  · exact fun found hmem => unexpected_ne (List.mem_singleton.mp hmem).symm

theorem meets_symbol {s : Symbol} (hs : s ≠ stop) (hts : Braceless ts) :
    Meets stop fun us => ((Kind.symbol s).read (ts ++ us)).toReading := by
  cases ts with
  | nil => exact (meets_unexpected (.symbol s)).congr fun us hus => Kind.read_of_ne (hus.kind_ne hs)
  | cons t ts =>
    by_cases hkind : t.kind = .symbol s
    · rw [Token.eq_symbol_of_kind hkind]
      exact (meets_ok () hts.tail).congr fun us _ => Kind.read_symbol s (ts ++ us)
    · refine (meets_fail (.unexpected (.symbol s) t.kind) unexpected_ne hts).congr fun us _ => ?_
      exact Kind.read_of_ne hkind

/-- No opening brace comes. -/
theorem meets_lbrace {β : Type} (hstop : .lbrace ≠ stop) (hts : Braceless ts)
    {next : (us : List Token) → Unit → (rest : List Token) → rest.length ≤ (ts ++ us).length →
      ReadingWithin rest.length β} :
    Meets stop fun us => (((Kind.symbol .lbrace).read (ts ++ us)).andThen (next us)).toReading := by
  have hread : ∀ us, AtEnd stop us → ((Kind.symbol .lbrace).read (ts ++ us)).toReading =
      ⟨none, [.unexpected (.symbol .lbrace) (Kind.ofHead (ts ++ us))], ts ++ us⟩ := by
    intro us hus
    apply Kind.read_of_ne
    cases ts with
    | nil => exact hus.kind_ne hstop
    | cons t ts => exact fun hkind => (hts t List.mem_cons_self).1 (Token.eq_symbol_of_kind hkind)
  cases ts with
  | nil => exact (meets_unexpected _).congr fun us hus => andThen_of_none (hread us hus) _
  | cons t ts =>
    refine (meets_fail (.unexpected (.symbol .lbrace) t.kind) unexpected_ne hts).congr ?_
    exact fun us hus => andThen_of_none (hread us hus) _

theorem meets_name (hts : Braceless ts) :
    Meets stop fun us => (readName (ts ++ us)).toReading := by
  cases ts with
  | nil =>
    refine (meets_unexpected .ident).congr fun us hus => readName_of_ne ?_
    rintro name us rfl
    cases hus
  | cons t ts =>
    cases t with
    | ident name => exact (meets_ok name hts.tail).congr fun us _ => rfl
    | _ => exact (meets_fail (.unexpected .ident _) unexpected_ne hts).congr fun us _ => rfl

theorem meets_moreParams (hstop : stop = .rbrace ∨ stop = .semicolon) (hts : Braceless ts) :
    Meets stop fun us => (readMoreParams (ts ++ us)).toReading := by
  have hcomma := ne_stop hstop (s := .comma) (by decide)
  have hrparen := ne_stop hstop (s := .rparen) (by decide)
  induction ts using readMoreParams.induct with
  | case1 name ts ih =>
    refine Meets.congr ?_ fun us _ => congrArg toReading (readMoreParams_name name (ts ++ us))
    exact meets_map (ih hts.tail.tail)
  | case2 ts hname =>
    cases ts with
    | nil =>
      refine (meets_unexpected .ident).congr fun us hus => ?_
      refine congrArg toReading (readMoreParams_comma ?_)
      rintro name us rfl
      cases hus
    | cons t ts =>
      refine (meets_fail (.unexpected .ident t.kind) unexpected_ne hts.tail).congr fun us _ => ?_
      refine congrArg toReading (readMoreParams_comma ?_)
      rintro name us ⟨⟩
      exact hname name ts rfl
  | case3 ts _ hend =>
    have hread : Meets stop fun us => (((Kind.symbol .rparen).read (ts ++ us)).map
        fun _ => ([] : List String)).toReading := meets_map (meets_symbol hrparen hts)
    refine hread.congr fun us hus => ?_
    refine congrArg toReading (readMoreParams_end ?_)
    cases ts with
    | nil =>
      rintro us rfl
      exact hus.head_ne hcomma rfl
    | cons t ts =>
      rintro us ⟨⟩
      exact hend ts rfl

theorem meets_params (hstop : stop = .rbrace ∨ stop = .semicolon) (hts : Braceless ts) :
    Meets stop fun us => (readParams (ts ++ us)).toReading := by
  have hread : Meets stop fun us => ((readName (ts ++ us)).andThen fun name ts _ =>
      (readMoreParams ts).map (name :: ·)).toReading := by
    refine meets_andThen (fun _ _ _ _ => rfl) (Nat.le_refl _) (meets_name hts) fun name => ?_
    exact fun rest hrest _ => meets_map (meets_moreParams hstop hrest)
  cases ts with
  | nil =>
    refine hread.congr fun us hus => ?_
    cases hus with
    | nothing => rfl
    | stops us =>
      exact congrArg toReading (readParams_cons (by rcases hstop with rfl | rfl <;> simp) us)
  | cons t ts =>
    by_cases ht : t = .symbol .rparen
    · subst ht
      exact (meets_ok [] hts.tail).congr fun us _ => rfl
    · exact hread.congr fun us _ => congrArg toReading (readParams_cons ht (ts ++ us))

end Parts

section Expressions

variable {stop : Symbol}

theorem power_eq_zero_of_stop (hstop : stop = .rbrace ∨ stop = .semicolon) :
    (Token.symbol stop).power = 0 := by
  rcases hstop with rfl | rfl <;> rfl

theorem not_starts_of_stop (hstop : stop = .rbrace ∨ stop = .semicolon) :
    (Token.symbol stop).startsExpr = false := by
  rcases hstop with rfl | rfl <;> rfl

theorem length_tail_append_le (ts : List Token) : (ts ++ []).tail.length ≤ ts.tail.length := by
  rw [List.append_nil]

mutual

theorem Expr.read_meets (hstop : stop = .rbrace ∨ stop = .semicolon) (power : Nat)
    {ts : List Token} (hts : Braceless ts) :
    Meets stop fun us => (Expr.read power (ts ++ us)).toReading := by
  refine Meets.congr ?_ fun us _ => congrArg toReading (Expr.read.eq_def power (ts ++ us))
  refine meets_andThen (fun _ _ _ _ => rfl) (length_tail_append_le ts)
    (Expr.readOperand_meets hstop hts) fun left rest hrest hle => ?_
  exact Expr.readSuffixes_meets hstop power left hrest
termination_by 4 * ts.length + 1
decreasing_by
  all_goals
    simp only [List.length_tail] at *
    omega

theorem Expr.readOperand_meets (hstop : stop = .rbrace ∨ stop = .semicolon) {ts : List Token}
    (hts : Braceless ts) : Meets stop fun us => (Expr.readOperand (ts ++ us)).toReading := by
  have hrparen := ne_stop hstop (s := .rparen) (by decide)
  have hlparen := ne_stop hstop (s := .lparen) (by decide)
  have hlbrace := ne_stop hstop (s := .lbrace) (by decide)
  cases ts with
  | nil =>
    refine .takes [] fun us => ?_
    rw [List.nil_append, Expr.readOperand_of_not_starts us (not_starts_of_stop hstop)]
    rfl
  | cons t ts =>
    by_cases hstarts : t.startsExpr = true
    · cases t with
      | ident name =>
        exact (meets_ok (.ident name) hts.tail).congr fun us _ =>
          congrArg toReading (Expr.readOperand_ident (ts ++ us) name)
      | int digits =>
        cases hdigits : Integer.ofDigits? digits with
        | none =>
          exact (meets_fail (.integerTooLarge digits) nofun hts.tail).congr fun us _ =>
            congrArg toReading (Expr.readOperand_tooLarge (ts ++ us) hdigits)
        | some n =>
          exact (meets_ok (.int n) hts.tail).congr fun us _ =>
            congrArg toReading (Expr.readOperand_int (ts ++ us) hdigits)
      | str text =>
        exact (meets_ok (.str text) hts.tail).congr fun us _ =>
          congrArg toReading (Expr.readOperand_str (ts ++ us) text)
      | keyword k =>
        cases k with
        | true =>
          exact (meets_ok (.bool true) hts.tail).congr fun us _ =>
            congrArg toReading (Expr.readOperand_true (ts ++ us))
        | false =>
          exact (meets_ok (.bool false) hts.tail).congr fun us _ =>
            congrArg toReading (Expr.readOperand_false (ts ++ us))
        | «if» =>
          refine Meets.congr ?_ fun us _ => congrArg toReading (Expr.readOperand_if (ts ++ us))
          refine meets_andThen (fun _ _ _ _ => rfl) (length_append_nil_le ts)
            (meets_symbol hlparen hts.tail) fun _ => ?_
          refine .andThen (fun _ _ _ _ => rfl) (fun ts => Nat.le_refl _)
            (fun rest hrest hle => Expr.read_meets hstop 0 hrest) fun c => ?_
          refine .andThen (fun _ _ _ _ => rfl) (fun ts => Nat.le_refl _)
            (fun rest hrest hle => meets_symbol hrparen hrest) fun _ => ?_
          exact fun rest hrest hle => meets_lbrace hlbrace hrest
        | fn =>
          refine Meets.congr ?_ fun us _ => congrArg toReading (Expr.readOperand_fn (ts ++ us))
          refine meets_andThen (fun _ _ _ _ => rfl) (length_append_nil_le ts)
            (meets_symbol hlparen hts.tail) fun _ => ?_
          refine .andThen (fun _ _ _ _ => rfl) (fun ts => Nat.le_refl _)
            (fun rest hrest hle => meets_params hstop hrest) fun params => ?_
          exact fun rest hrest hle => meets_lbrace hlbrace hrest
        | «let» | «else» | «return» => cases hstarts
      | symbol s =>
        cases s with
        | bang =>
          refine Meets.congr ?_ fun us _ =>
            congrArg toReading (Expr.readOperand_unary (ts ++ us) .bang)
          exact meets_weaken _ (meets_map (Expr.read_meets hstop UnaryOp.power hts.tail))
        | minus =>
          refine Meets.congr ?_ fun us _ =>
            congrArg toReading (Expr.readOperand_unary (ts ++ us) .minus)
          exact meets_weaken _ (meets_map (Expr.read_meets hstop UnaryOp.power hts.tail))
        | lparen =>
          refine Meets.congr ?_ fun us _ =>
            congrArg toReading (Expr.readOperand_lparen (ts ++ us))
          refine meets_weaken _ (meets_andThen (fun _ _ _ _ => rfl) (Nat.le_refl _)
            (Expr.read_meets hstop 0 hts.tail) fun e => ?_)
          exact .map fun rest hrest hle => meets_symbol hrparen hrest
        | lbracket =>
          refine Meets.congr ?_ fun us _ =>
            congrArg toReading (Expr.readOperand_lbracket (ts ++ us))
          exact meets_map (Expr.readList_meets hstop (.inr rfl) hts.tail)
        | lbrace => exact absurd rfl (hts _ List.mem_cons_self).1
        | _ => cases hstarts
      | illegal | eof => cases hstarts
    · refine (meets_fail (.noExpression t.kind) hts.noExpression_ne hts.tail).congr fun us _ => ?_
      have hread := Expr.readOperand_of_not_starts (ts ++ us) (Bool.eq_false_iff.mpr hstarts)
      exact congrArg toReading hread
termination_by 4 * ts.length + 0
decreasing_by
  all_goals
    subst_vars
    simp only [List.length_cons] at *
    omega

theorem Expr.readSuffixes_meets (hstop : stop = .rbrace ∨ stop = .semicolon) (power : Nat)
    (left : Expr) {ts : List Token} (hts : Braceless ts) :
    Meets stop fun us => (Expr.readSuffixes power left (ts ++ us)).toReading := by
  have hends : ∀ us, nextPower us ≤ power →
      (Expr.readSuffixes power left us).toReading = .ok left us :=
    fun us hle => congrArg toReading (Expr.readSuffixes_of_le left hle)
  cases ts with
  | nil =>
    refine (meets_ok left hts).congr fun us hus => hends us ?_
    rw [hus.nextPower_eq (power_eq_zero_of_stop hstop)]
    exact Nat.zero_le power
  | cons t ts =>
    by_cases hle : nextPower (t :: ts) ≤ power
    · exact (meets_ok left hts).congr fun us _ => hends (t :: (ts ++ us)) hle
    · obtain ⟨s, us, heq, hpower⟩ := exists_suffix_of_lt_nextPower (Nat.not_le.mp hle)
      cases heq
      have hsuffixes : ∀ left, MeetsWithin stop ts.length fun ts =>
          (Expr.readSuffixes power left ts).toReading :=
        fun left rest hrest hle => Expr.readSuffixes_meets hstop power left hrest
      cases s with
      | operator op =>
        refine Meets.congr ?_ fun us _ =>
          congrArg toReading (Expr.readSuffixes_operator left hpower)
        refine meets_weaken _ (meets_andThen (fun _ _ _ _ => rfl) (length_append_nil_le ts)
          (meets_weaken _ (Expr.read_meets hstop (Suffix.operator op).power hts.tail)) ?_)
        exact fun right => hsuffixes _
      | call =>
        refine Meets.congr ?_ fun us _ => congrArg toReading (Expr.readSuffixes_call left hpower)
        refine meets_weaken _ (meets_andThen (fun _ _ _ _ => rfl) (length_append_nil_le ts)
          (Expr.readList_meets hstop (.inl rfl) hts.tail) fun args => hsuffixes _)
      | index =>
        refine Meets.congr ?_ fun us _ => congrArg toReading (Expr.readSuffixes_index left hpower)
        refine meets_weaken _ (meets_andThen (fun _ _ _ _ => rfl) (length_append_nil_le ts)
          (meets_weaken _ (Expr.read_meets hstop 0 hts.tail)) fun key => ?_)
        refine .andThen (fun _ _ _ _ => rfl) (fun ts => Nat.le_refl _)
          (fun rest hrest hle => ?_) fun _ => hsuffixes _
        exact meets_symbol (ne_stop hstop (by decide)) hrest
termination_by 4 * ts.length + 0
decreasing_by
  all_goals
    subst_vars
    simp only [List.length_cons] at *
    omega

theorem Expr.readList_meets (hstop : stop = .rbrace ∨ stop = .semicolon) {close : Symbol}
    (hclose : close = .rparen ∨ close = .rbracket) {ts : List Token} (hts : Braceless ts) :
    Meets stop fun us => (Expr.readList (.symbol close) (ts ++ us)).toReading := by
  have hread : Meets stop fun us =>
      (((Expr.read 0 (ts ++ us)).weaken (length_tail_le _)).andThen fun e ts _ =>
        (Expr.readMoreList (.symbol close) ts).map (e :: ·)).toReading := by
    refine meets_andThen (fun _ _ _ _ => rfl) (length_append_nil_le ts)
      (meets_weaken _ (Expr.read_meets hstop 0 hts)) fun e => ?_
    exact fun rest hrest hle => meets_map (Expr.readMoreList_meets hstop hclose hrest)
  cases ts with
  | nil =>
    refine hread.congr fun us hus => congrArg toReading (Expr.readList_cons (hus.kind_ne ?_))
    rcases hclose with rfl | rfl <;> exact ne_stop hstop (by decide)
  | cons t ts =>
    by_cases hhead : t.kind = .symbol close
    · refine (meets_ok [] hts.tail).congr fun us _ => ?_
      have hhead' : Kind.ofHead (t :: (ts ++ us)) = .symbol close := hhead
      exact Expr.readList_nil_of_head hhead'
    · have hhead' : ∀ us, Kind.ofHead (t :: (ts ++ us)) ≠ .symbol close := fun us => hhead
      exact hread.congr fun us _ => congrArg toReading (Expr.readList_cons (hhead' us))
termination_by 4 * ts.length + 2
decreasing_by all_goals omega

theorem Expr.readMoreList_meets (hstop : stop = .rbrace ∨ stop = .semicolon) {close : Symbol}
    (hclose : close = .rparen ∨ close = .rbracket) {ts : List Token} (hts : Braceless ts) :
    Meets stop fun us => (Expr.readMoreList (.symbol close) (ts ++ us)).toReading := by
  have hclose' : close ≠ stop := by
    rcases hclose with rfl | rfl <;> exact ne_stop hstop (by decide)
  have hread : Meets stop fun us => (((Kind.symbol close).read (ts ++ us)).map
      fun _ => ([] : List Expr)).toReading := meets_map (meets_symbol hclose' hts)
  cases ts with
  | nil =>
    refine hread.congr fun us hus => ?_
    exact congrArg toReading
      (Expr.readMoreList_end (hus.head_ne (ne_stop hstop (by decide))))
  | cons t ts =>
    by_cases hcomma : t = .symbol .comma
    · subst hcomma
      refine Meets.congr ?_ fun us _ =>
        congrArg toReading (Expr.readMoreList_comma (.symbol close) (ts ++ us))
      refine meets_weaken _ (meets_andThen (fun _ _ _ _ => rfl) (length_tail_append_le ts)
        (Expr.read_meets hstop 0 hts.tail) fun e => ?_)
      exact fun rest hrest hle => meets_map (Expr.readMoreList_meets hstop hclose hrest)
    · refine hread.congr fun us _ => ?_
      exact congrArg toReading
        (Expr.readMoreList_end fun h => hcomma (Option.some.inj h))
termination_by 4 * ts.length + 0
decreasing_by
  all_goals
    subst_vars
    simp only [List.length_cons, List.length_tail] at *
    omega

end

end Expressions

section Blocks

/-- A statement is a reading that stops behind an expression, and then a semicolon. -/
theorem Statement.exists_clause_meets {stop : Symbol} (hstop : stop = .rbrace ∨ stop = .semicolon)
    {t : Token} {ts : List Token} (hts : Braceless (t :: ts)) :
    ∃ clause : (us : List Token) → ReadingWithin (ts ++ us).length Statement,
      (∀ us, Statement.read (t :: (ts ++ us)) = (clause us).dropSemicolon) ∧
      Meets stop fun us => (clause us).toReading := by
  by_cases hlet : t = .keyword .let
  · subst hlet
    refine ⟨_, fun us => Statement.read_let (ts ++ us), ?_⟩
    refine meets_andThen (fun _ _ _ _ => rfl) (length_append_nil_le ts) (meets_name hts.tail)
      fun name => ?_
    refine .andThen (fun _ _ _ _ => rfl) (fun ts => Nat.le_refl _)
      (fun rest hrest hle => meets_symbol (ne_stop hstop (by decide)) hrest) fun _ => ?_
    exact fun rest hrest hle => meets_weaken _ (meets_map (Expr.read_meets hstop 0 hrest))
  · by_cases hreturn : t = .keyword .return
    · subst hreturn
      refine ⟨_, fun us => Statement.read_return (ts ++ us), ?_⟩
      exact meets_weaken _ (meets_map (Expr.read_meets hstop 0 hts.tail))
    · refine ⟨_, fun us => Statement.read_expr (t :: (ts ++ us))
        (fun vs h => hlet (List.cons.inj h).1) fun vs h => hreturn (List.cons.inj h).1, ?_⟩
      exact meets_map (Expr.read_meets hstop 0 hts)

theorem Statement.read_meets {t : Token} {ts : List Token} (hts : Braceless (t :: ts)) :
    Meets .rbrace fun us => (Statement.read (t :: (ts ++ us))).toReading := by
  obtain ⟨clause, hread, hclause⟩ := Statement.exists_clause_meets (.inl rfl) hts
  exact (meets_dropSemicolon hclause).congr fun us _ => congrArg toReading (hread us)

theorem Program.read_cons_node? (t : Token) (ts : List Token) :
    (Program.read (t :: ts)).node? =
      (Program.read (Statement.read (t :: ts)).rest).node?.map
        ((Statement.read (t :: ts)).node?.toList ++ ·) := by
  rw [Program.read]

/-- A block with no other blocks and no dicts in it ends at its closing brace, and
holds the statements that its tokens make on their own; or an expression was to start
at the brace, and what comes behind it still belongs to the block. -/
theorem Block.read_meets (ts : List Token) (hts : Braceless ts) :
    (∃ errors, braceTaken ∉ errors ∧ ∀ us, (Block.read (ts ++ .symbol .rbrace :: us)).toReading =
      ⟨(Program.read ts).node?, errors, us⟩) ∨
    (∃ errors, braceTaken ∈ errors ∧ ∀ us, (Block.read us).node? = none →
      (Block.read (ts ++ .symbol .rbrace :: us)).toReading =
        ⟨none, errors ++ (Block.read us).errors, (Block.read us).rest⟩) := by
  match ts with
  | [] =>
    refine .inl ⟨[], List.not_mem_nil, fun us => ?_⟩
    rw [List.nil_append, Block.read_rbrace, Program.read]
    rfl
  | t :: ts =>
    have hread := Block.read_cons (hts t List.mem_cons_self).2
    cases Statement.read_meets hts with
    | takes errors h =>
      refine .inr ⟨errors ++ [braceTaken], List.mem_append_right _ List.mem_cons_self, ?_⟩
      intro us hus
      rw [List.cons_append, hread, toReading_weaken, regardless_of_eq (h us) _ rfl]
      simp only [ReadingWithin.map, hus, Option.map_none, braceTaken]
    | before node? rest errors hrest herrors h =>
      have hlt : rest.length < (t :: ts).length := by
        have hle := rest_le_of_eq (h [] .nothing)
        rw [List.append_nil, List.append_nil] at hle
        exact Nat.lt_succ_of_le hle
      have halone : (Program.read (t :: ts)).node? =
          (Program.read rest).node?.map (node?.toList ++ ·) := by
        have hs := h [] .nothing
        rw [List.append_nil, List.append_nil] at hs
        rw [Program.read_cons_node?, hs]
      obtain ⟨errors', herrors', h'⟩ | ⟨errors', herrors', h'⟩ := Block.read_meets rest hrest
      · refine .inl ⟨errors (.symbol .rbrace) ++ errors', ?_, fun us => ?_⟩
        · intro hmem
          exact (List.mem_append.mp hmem).elim (herrors _) herrors'
        · rw [List.cons_append, hread, toReading_weaken,
            regardless_of_eq (h _ (.stops us)) _ (map_of_eq (h' us) _), halone]
          rfl
      · refine .inr ⟨errors (.symbol .rbrace) ++ errors', List.mem_append_right _ herrors', ?_⟩
        intro us hus
        rw [List.cons_append, hread, toReading_weaken,
          regardless_of_eq (h _ (.stops us)) _ (map_of_eq (h' us hus) _), List.append_assoc]
        rfl
termination_by ts.length
decreasing_by exact hlt

/-- Statements without errors close no block that was open before them. -/
theorem Block.read_of_program {ts : List Token} (h : (Program.read ts).errors = []) :
    (Block.read ts).toReading = ⟨none, [.unexpected (.symbol .rbrace) .eof], []⟩ := by
  match ts with
  | [] =>
    rw [Block.read.eq_def]
    rfl
  | t :: ts =>
    obtain ⟨ss, -, -, hss⟩ := Program.read_finds (t :: ts) h
    have hbrace : t ≠ .symbol .rbrace := by
      rintro rfl
      obtain heq | ⟨u, us, heq, hu⟩ := hss.statements_head
      · cases heq
      · cases heq
        cases hu
    rw [Program.read] at h
    obtain ⟨hfirst, hrest⟩ := List.append_eq_nil_iff.mp h
    have hlt := (Statement.read (t :: ts)).rest_le
    have hs : (Statement.read (t :: ts)).toReading = ⟨(Statement.read (t :: ts)).node?, [],
        (Statement.read (t :: ts)).rest⟩ := by rw [← hfirst]
    rw [Block.read_cons hbrace, toReading_weaken,
      regardless_of_eq hs _ (map_of_eq (Block.read_of_program hrest) _)]
    rfl
termination_by ts.length
decreasing_by
  simp only [List.length_cons, List.length_tail] at *
  omega

/-- A semicolon starts no statement. -/
theorem Block.read_semicolon {ts : List Token} {errors : List SyntaxError}
    (h : (Block.read ts).toReading = ⟨none, errors, []⟩) :
    (Block.read (.symbol .semicolon :: ts)).toReading =
      ⟨none, .noExpression (.symbol .semicolon) :: errors, []⟩ := by
  have hstatement := Statement.read_of_not_starts ts (t := .symbol .semicolon) rfl
  rw [Block.read_cons (by simp), toReading_weaken, regardless_of_eq hstatement _ (map_of_eq h _)]
  rfl

/-- The tokens of a function without parameters, from the ones of its body on. -/
def functionTokens (body : List Token) : List Token :=
  .keyword .fn :: .symbol .lparen :: .symbol .rparen :: .symbol .lbrace :: body

variable {ts us : List Token} {errors : List SyntaxError}

theorem Expr.readOperand_function {body? : Option (List Statement)}
    (h : (Block.read ts).toReading = ⟨body?, errors, us⟩) :
    (Expr.readOperand (functionTokens ts)).toReading =
      ⟨body?.map (.function []), errors, us⟩ := by
  rw [functionTokens, Expr.readOperand_fn, andThen_of_ok (Kind.read_symbol .lparen _),
    andThen_of_ok (reads_noNames _ rfl).1, andThen_of_ok (Kind.read_symbol .lbrace _)]
  exact map_of_eq h _

theorem Statement.read_function :
    Statement.read (functionTokens ts) =
      ((Expr.read 0 (functionTokens ts)).map .expr).dropSemicolon :=
  Statement.read_expr _ nofun nofun

/-- A function that ends before a semicolon is a statement. -/
theorem Program.read_function {body : List Statement}
    (h : (Block.read ts).toReading = ⟨some body, errors, .symbol .semicolon :: us⟩) :
    Program.read (functionTokens ts) =
      ⟨(Program.read us).node?.map (.expr (.function [] body) :: ·),
        errors ++ (Program.read us).errors, (Program.read us).rest⟩ := by
  have hexpr : (Expr.read 0 (functionTokens ts)).toReading =
      ⟨some (.function [] body), errors, .symbol .semicolon :: us⟩ := by
    have hends : nextPower (.symbol .semicolon :: us) ≤ 0 := Nat.le_refl 0
    have hend := congrArg toReading (Expr.readSuffixes_of_le (.function [] body) hends)
    rw [Expr.read, andThen_of_node (Expr.readOperand_function h) _ hend]
    simp only [done, List.append_nil]
  have hstatement : (Statement.read (functionTokens ts)).toReading =
      ⟨some (.expr (.function [] body)), errors, us⟩ := by
    rw [Statement.read_function]
    exact dropSemicolon_of_node (map_of_eq hexpr Statement.expr)
  exact Program.read_of_statement hstatement

/-- A function whose body does not end is no statement, and nothing is left after it. -/
theorem Program.read_function_of_none (h : (Block.read ts).toReading = ⟨none, errors, []⟩) :
    Program.read (functionTokens ts) = ⟨some [], errors, []⟩ := by
  have hexpr : (Expr.read 0 (functionTokens ts)).toReading = ⟨none, errors, []⟩ := by
    rw [Expr.read, andThen_of_none (Expr.readOperand_function h) _]
  have hstatement : (Statement.read (functionTokens ts)).toReading = ⟨none, errors, []⟩ := by
    rw [Statement.read_function]
    exact dropSemicolon_of_none (map_of_eq hexpr Statement.expr)
  refine (Program.read_of_statement hstatement).trans ?_
  rw [Program.read_nil]
  simp [Reading.ok]

end Blocks

section Texts

theorem Program.exists_node (ts : List Token) : ∃ p, (Program.read ts).node? = some p := by
  fun_induction Program.read ts with
  | case1 => exact ⟨[], rfl⟩
  | case2 t ts s p ih =>
    obtain ⟨ss, hss⟩ := ih
    have hnode : p.node? = some ss := hss
    exact ⟨s.node?.toList ++ ss, congrArg (Option.map _) hnode⟩

theorem tokens_function_text {b : String} (hb : ¬ EndsInString b.toList) (s : String) :
    tokens ("fn() \x7b " ++ b ++ " \x7d; " ++ s).toList =
      functionTokens (tokens b.toList ++ .symbol .rbrace :: .symbol .semicolon ::
        tokens s.toList) := by
  have hopens : "fn() \x7b ".toList = Keyword.fn.text.toList ++ (Symbol.lparen.text.toList ++
      (Symbol.rparen.text.toList ++ ' ' :: (Symbol.lbrace.text.toList ++ [' ']))) := by decide
  have hcloses : " \x7d; ".toList = ' ' :: (Symbol.rbrace.text.toList ++
      (Symbol.semicolon.text.toList ++ [' '])) := by decide
  have hparen : ∀ r, Splits (Symbol.lparen.text.toList ++ r) :=
    fun r => splits_cons (by decide) r
  simp only [String.toList_append, hopens, hcloses, List.append_assoc, List.cons_append,
    List.nil_append]
  rw [tokens_keyword _ (hparen _), tokens_symbol _ (by simp),
    tokens_symbol _ (by simp), tokens_blank rfl, tokens_symbol _ (by simp), tokens_blank rfl,
    tokens_append_blank hb rfl, tokens_symbol _ (by simp), tokens_symbol _ (by simp),
    tokens_blank rfl, functionTokens]

theorem parse_five : parse "5" = ([.expr (.int 5)], []) := by
  have htokens : tokens "5".toList = [.int "5"] := by
    have htext : "5".toList = "5".toList ++ [] := (List.append_nil _).symm
    have hdigits : ∀ c ∈ "5".toList, c.isDigit = true := List.all_eq_true.mp rfl
    rw [htext, tokens_digits (by decide) hdigits splits_nil, tokens_nil]
  apply parse_of_derives
  rw [htokens]
  have hint : Derives (.expr .primary) [.int "5"] (Expr.int 5) [] := .int (by decide)
  exact .moreStatements (.unended (.bare (hint.widen (by decide))) nofun) .noStatements

theorem tokens_let_x : tokens "let x".toList = [.keyword .let, .ident "x"] := by
  have htext : "let x".toList = Keyword.let.text.toList ++ ' ' :: ("x".toList ++ []) := by decide
  rw [htext, tokens_keyword _ (splits_cons (by decide) _), tokens_blank rfl,
    tokens_name (by decide) splits_nil, tokens_nil]

/-- What stands in the place of the `=` is left where it is. -/
theorem Statement.read_let_of_ne (name : String) {ts : List Token}
    (h : Kind.ofHead ts ≠ .symbol .assign) :
    (Statement.read (.keyword .let :: .ident name :: ts)).toReading =
      ⟨none, [.unexpected (.symbol .assign) (Kind.ofHead ts)], ts⟩ := by
  have hname : (readName (.ident name :: ts)).toReading = .ok name ts := rfl
  rw [Statement.read_let]
  apply dropSemicolon_of_none
  rw [andThen_of_ok hname, andThen_of_none (Kind.read_of_ne h)]

theorem parse_let_x : parse "let x" = ([], [.unexpected (.symbol .assign) .eof]) := by
  have hlet : (Statement.read [.keyword .let, .ident "x"]).toReading =
      ⟨none, [.unexpected (.symbol .assign) .eof], []⟩ :=
    Statement.read_let_of_ne "x" (by decide)
  rw [parse_eq, tokens_let_x, Program.read_of_statement hlet, Program.read_nil]
  rfl

theorem Block.read_let_x (us : List Token) :
    (Block.read (tokens "let x".toList ++ .symbol .rbrace :: us)).toReading =
      ⟨some [], [.unexpected (.symbol .assign) (.symbol .rbrace)], us⟩ := by
  have hlet : (Statement.read (.keyword .let :: .ident "x" :: .symbol .rbrace :: us)).toReading =
      ⟨none, [.unexpected (.symbol .assign) (.symbol .rbrace)], .symbol .rbrace :: us⟩ :=
    Statement.read_let_of_ne "x" nofun
  rw [tokens_let_x, List.cons_append, List.cons_append, List.nil_append,
    Block.read_cons (by simp), toReading_weaken,
    regardless_of_eq hlet _ (map_of_eq (Block.read_rbrace us) _)]
  rfl

/-- In a text with one function, whose body has no braces in it and does not end inside
a string, mistakes in the body stay there: the function holds the statements that the
body makes on its own, and the text behind it is read as if it stood alone. This is so
unless the closing brace stands where an expression is to start. The brace is then taken
for the mistake and closes nothing, and nothing is left of the program. -/
theorem block_errors_stay (b s : String) (hb : Braceless (tokens b.toList))
    (hopen : ¬ EndsInString b.toList) (hs : (parse s).2 = []) :
    let source := "fn() \x7b " ++ b ++ " \x7d; " ++ s
    (braceTaken ∉ (parse source).2 →
      (parse source).1 = .expr (.function [] (parse b).1) :: (parse s).1) ∧
    (braceTaken ∈ (parse source).2 → (parse source).1 = []) := by
  intro source
  have htokens := tokens_function_text hopen s
  have hs' : (Program.read (tokens s.toList)).errors = [] := (errors_parse s).symm.trans hs
  obtain ⟨errors, herrors, h⟩ | ⟨errors, herrors, h⟩ := Block.read_meets (tokens b.toList) hb
  · obtain ⟨body, hbody⟩ := Program.exists_node (tokens b.toList)
    obtain ⟨ss, hss⟩ := Program.exists_node (tokens s.toList)
    have hblock := h (.symbol .semicolon :: tokens s.toList)
    rw [hbody] at hblock
    have hparse : parse source = (.expr (.function [] body) :: ss, errors) := by
      rw [parse_eq, htokens, Program.read_function hblock, hss, hs', List.append_nil]
      rfl
    have hbody' : (parse b).1 = body := by rw [parse_eq, hbody]; rfl
    have hss' : (parse s).1 = ss := by rw [parse_eq, hss]; rfl
    rw [hparse, hbody', hss']
    exact ⟨fun _ => rfl, fun hmem => absurd hmem herrors⟩
  · have hblock := Block.read_semicolon (Block.read_of_program hs')
    have hfunction := h _ (congrArg Reading.node? hblock)
    rw [hblock] at hfunction
    have hparse : (parse source).1 = [] ∧ braceTaken ∈ (parse source).2 := by
      rw [parse_eq, htokens, Program.read_function_of_none hfunction]
      exact ⟨rfl, List.mem_append_left _ herrors⟩
    exact ⟨fun hmem => absurd hparse.2 hmem, fun _ => hparse.1⟩

/-- Without a `=` the brace is left alone: the body is empty, and the `5` behind the function
is still read. -/
theorem block_errors_stay_let_x :
    Braceless (tokens "let x".toList) ∧ ¬ EndsInString "let x".toList ∧ (parse "5").2 = [] ∧
      let source := "fn() \x7b " ++ "let x" ++ " \x7d; " ++ "5"
      braceTaken ∉ (parse source).2 ∧
        (parse source).1 = .expr (.function [] (parse "let x").1) :: (parse "5").1 ∧
        (parse source).1 = [.expr (.function [] []), .expr (.int 5)] := by
  have hb : Braceless (tokens "let x".toList) := by
    rw [tokens_let_x]
    simp [Braceless]
  have hopen : ¬ EndsInString "let x".toList := by decide
  have hs : (parse "5").2 = [] := congrArg Prod.snd parse_five
  have hkept : braceTaken ∉ (parse ("fn() \x7b " ++ "let x" ++ " \x7d; " ++ "5")).2 := by
    rw [errors_parse, tokens_function_text hopen, Program.read_function (Block.read_let_x _),
      ← errors_parse, hs]
    simp [braceTaken]
  have hprogram := (block_errors_stay "let x" "5" hb hopen hs).1 hkept
  refine ⟨hb, hopen, hs, hkept, hprogram, ?_⟩
  rw [hprogram, parse_let_x, parse_five]

theorem tokens_let_x_assign :
    tokens "let x =".toList = [.keyword .let, .ident "x", .symbol .assign] := by
  have htext : "let x =".toList = Keyword.let.text.toList ++ ' ' :: ("x".toList ++ ' ' ::
      (Symbol.assign.text.toList ++ [])) := by decide
  rw [htext, tokens_keyword _ (splits_cons (by decide) _), tokens_blank rfl,
    tokens_name (by decide) (splits_cons (by decide) _), tokens_blank rfl,
    tokens_symbol _ (by simp), tokens_nil]

/-- A value is missing. -/
theorem Statement.read_let_of_not_starts (name : String) {t : Token} (h : t.startsExpr = false)
    (us : List Token) :
    (Statement.read (.keyword .let :: .ident name :: .symbol .assign :: t :: us)).toReading =
      ⟨none, [.noExpression t.kind], us⟩ := by
  have hname : (readName (.ident name :: .symbol .assign :: t :: us)).toReading =
    .ok name (.symbol .assign :: t :: us) := rfl
  rw [Statement.read_let]
  apply dropSemicolon_of_none
  rw [andThen_of_ok hname, andThen_of_ok (Kind.read_symbol .assign _)]
  exact map_of_eq (Expr.read_of_not_starts us h 0) _

/-- A value that is missing before a closing brace takes the brace along, and with it all
that comes behind. -/
theorem block_errors_spread :
    Braceless (tokens "let x =".toList) ∧ ¬ EndsInString "let x =".toList ∧
      (parse "5").2 = [] ∧
      ¬ ∃ body, (parse ("fn() \x7b " ++ "let x =" ++ " \x7d; " ++ "5")).1 =
        .expr (.function [] body) :: (parse "5").1 := by
  have hb : Braceless (tokens "let x =".toList) := by
    rw [tokens_let_x_assign]
    simp [Braceless]
  have hopen : ¬ EndsInString "let x =".toList := by decide
  refine ⟨hb, hopen, congrArg Prod.snd parse_five, ?_⟩
  rintro ⟨body, hparse⟩
  have hlet : ∀ us, (Statement.read
      (.keyword .let :: .ident "x" :: .symbol .assign :: .symbol .rbrace :: us)).toReading =
      ⟨none, [braceTaken], us⟩ := fun us => Statement.read_let_of_not_starts "x" rfl us
  have hrest : (Program.read (tokens "5".toList)).errors = [] := by
    rw [← errors_parse, parse_five]
  have hblock := Block.read_semicolon (Block.read_of_program hrest)
  have hread : (Block.read (tokens "let x =".toList ++ .symbol .rbrace :: .symbol .semicolon ::
      tokens "5".toList)).toReading = ⟨none, [braceTaken, .noExpression (.symbol .semicolon),
        .unexpected (.symbol .rbrace) .eof], []⟩ := by
    rw [tokens_let_x_assign]
    simp only [List.cons_append, List.nil_append]
    rw [Block.read_cons (by simp), toReading_weaken,
      regardless_of_eq (hlet _) _ (map_of_eq hblock _)]
    rfl
  rw [parse_eq, tokens_function_text hopen, Program.read_function_of_none hread] at hparse
  cases hparse

end Texts

end Monkey
