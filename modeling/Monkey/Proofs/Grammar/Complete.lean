import Monkey.Proofs.Grammar.Sound

/-!
What is derived is read, without errors and to the same tree. `Category.Reads`
says for each category what that means, and there is one lemma for each way to
derive a text that its readers follow it; the induction over derivations puts
them together.

An expression is not read alone: more suffixes may come after it. So what is
said of a text of some layer is that reading from its start comes to the point
where the text has been taken in and the suffixes after it are looked at. This
holds under every power up to the floor of the layer, if the next token does
not bind more strongly than its ceiling.
-/

namespace Monkey

open ReadingWithin

/-- An expression ends here, unless its suffixes have more than the given power;
and if the expression is an `if`, no `else` belongs to it. -/
structure Ends (power : Nat) (rest : List Token) : Prop where
  nextPower_le : nextPower rest ≤ power
  not_else : rest.head? ≠ some (.keyword .else)

theorem Ends.mono {p q : Nat} {rest : List Token} (h : Ends p rest) (hle : p ≤ q) :
    Ends q rest :=
  ⟨Nat.le_trans h.nextPower_le hle, h.not_else⟩

/-- A symbol that starts no suffix ends every expression. -/
theorem ends_symbol {s : Symbol} (h : (Token.symbol s).continues = false) (power : Nat)
    (rest : List Token) : Ends power (.symbol s :: rest) := by
  have hpower : (Token.symbol s).power = 0 := (Token.power_eq_zero_iff _).mpr h
  refine ⟨?_, ?_⟩
  · rw [nextPower, hpower]
    exact Nat.zero_le power
  · intro heq
    cases heq

/-- What it is that the readers follow a derivation. -/
def Category.Reads : (c : Category) → List Token → c.Tree → List Token → Prop
  | .expr l, ts, e, rest =>
      ∀ power ≤ l.floor, Ends l.ceiling rest →
        (Expr.read power ts).toReading = (Expr.readSuffixes power e rest).toReading
  | .names, ts, xs, rest =>
      ∀ us, rest = .symbol .rparen :: us →
        (readParams ts).toReading = .ok xs us ∧
          (xs ≠ [] → (readMoreParams (.symbol .comma :: ts)).toReading = .ok xs us)
  | .exprs, ts, es, rest =>
      ∀ close us, close = .rparen ∨ close = .rbracket → rest = .symbol close :: us →
        (Expr.readList (.symbol close) ts).toReading = .ok es us ∧
          (es ≠ [] →
            (Expr.readMoreList (.symbol close) (.symbol .comma :: ts)).toReading = .ok es us)
  | .pairs, ts, ps, rest =>
      ∀ us, rest = .symbol .rbrace :: us → (Expr.readPairs ts).toReading = .ok ps us
  | .block, ts, b, rest =>
      ∃ us, ts = .symbol .lbrace :: us ∧ (Block.read us).toReading = .ok b rest
  | .clause, ts, s, rest =>
      ∃ r : ReadingWithin ts.tail.length Statement, Statement.read ts = r.dropSemicolon ∧
        (Ends 0 rest → r.toReading = .ok s rest)
  | .statement, ts, s, rest =>
      rest.head? ≠ some (.keyword .else) → rest.head? ≠ some (.symbol .semicolon) →
        (Statement.read ts).toReading = .ok s rest
  | .statements, ts, ss, rest =>
      (rest = [] → Program.read ts = .ok ss []) ∧
        ∀ us, rest = .symbol .rbrace :: us → (Block.read ts).toReading = .ok ss us

section Expressions

variable {ts us vs rest : List Token} {l : Layer} {a b e : Expr}

/-- An expression that is not carried on is read alone. -/
theorem Category.Reads.read_eq (h : (Category.expr l).Reads ts e rest) {power : Nat}
    (hpower : power ≤ l.floor) (hends : Ends power rest) (hceiling : power ≤ l.ceiling) :
    (Expr.read power ts).toReading = .ok e rest := by
  rw [h power hpower (hends.mono hceiling), Expr.readSuffixes_of_le e hends.nextPower_le]
  rfl

theorem reads_tighter (h : (Category.expr l.tighter).Reads ts e rest) :
    (Category.expr l).Reads ts e rest := by
  intro power hpower hends
  exact h power (Nat.le_trans hpower l.floor_le_tighter) (hends.mono l.ceiling_le_tighter)

theorem reads_operator {op : BinaryOp}
    (ha : (Category.expr op.layer).Reads ts a (.symbol op.symbol :: us))
    (hb : (Category.expr op.layer.tighter).Reads us b rest) :
    (Category.expr op.layer).Reads ts (Expr.binary op a b) rest := by
  intro power hpower hends
  have hlt : power < (Suffix.operator op).power := Nat.lt_of_le_of_lt hpower op.floor_lt_power
  have hop : Ends op.layer.ceiling (.symbol op.symbol :: us) := by
    refine ⟨?_, ?_⟩
    · rw [← op.power_eq_ceiling, ← Token.power_suffix]
      exact Nat.le_refl _
    · intro heq
      cases heq
  have hright : (Expr.read (Suffix.operator op).power us).toReading = .ok b rest := by
    have hceiling := op.layer.ceiling_le_tighter
    rw [← op.power_eq_ceiling] at hends hceiling
    exact hb.read_eq op.power_le_floor hends hceiling
  rw [ha power hpower hop, Expr.readSuffixes_operator a hlt, toReading_weaken]
  exact weaken_andThen_of_ok hright _

theorem reads_call {args : List Expr}
    (hf : (Category.expr .applied).Reads ts a (.symbol .lparen :: us))
    (hargs : Category.exprs.Reads us args (.symbol .rparen :: rest)) :
    (Category.expr .applied).Reads ts (Expr.call a args) rest := by
  intro power hpower hends
  have hlt : power < Suffix.call.power := Nat.lt_succ_of_le hpower
  have hcall : Ends Layer.applied.ceiling (.symbol .lparen :: us) :=
    ⟨nextPower_le _, by simp⟩
  have hlist := (hargs .rparen rest (.inl rfl) rfl).1
  rw [hf power hpower hcall, Expr.readSuffixes_call a hlt, toReading_weaken]
  exact andThen_of_ok hlist _

theorem reads_index
    (ha : (Category.expr .applied).Reads ts a (.symbol .lbracket :: us))
    (hb : (Category.expr .equality).Reads us b (.symbol .rbracket :: rest)) :
    (Category.expr .applied).Reads ts (Expr.index a b) rest := by
  intro power hpower hends
  have hlt : power < Suffix.index.power := Nat.lt_of_le_of_lt hpower (by decide)
  have hindex : Ends Layer.applied.ceiling (.symbol .lbracket :: us) :=
    ⟨nextPower_le _, by simp⟩
  have hkey : (Expr.read 0 us).toReading = .ok b (.symbol .rbracket :: rest) :=
    hb.read_eq (Nat.le_refl 0) (ends_symbol rfl 0 rest) (Nat.zero_le _)
  rw [ha power hpower hindex, Expr.readSuffixes_index a hlt, toReading_weaken]
  refine (weaken_andThen_of_ok hkey _).trans ?_
  exact andThen_of_ok (Kind.read_symbol .rbracket rest) _

/-- An operand is followed by its suffixes. -/
theorem reads_operand {l : Layer} (h : Ends l.ceiling rest →
      (Expr.readOperand ts).toReading = .ok e rest) :
    (Category.expr l).Reads ts e rest := by
  intro power hpower hends
  rw [Expr.read]
  exact andThen_of_ok (h hends) _

theorem reads_unary {op : UnaryOp} (h : (Category.expr .unary).Reads ts a rest) :
    (Category.expr .unary).Reads (.symbol op.symbol :: ts) (Expr.unary op a) rest := by
  refine reads_operand fun hends => ?_
  have hoperand : (Expr.read UnaryOp.power ts).toReading = .ok a rest :=
    h.read_eq (Nat.le_refl _) hends (Nat.le_refl _)
  rw [Expr.readOperand_unary]
  exact map_of_ok hoperand _

theorem reads_group (h : (Category.expr .equality).Reads ts e (.symbol .rparen :: rest)) :
    (Category.expr .primary).Reads (.symbol .lparen :: ts) e rest := by
  refine reads_operand fun _ => ?_
  have hinner : (Expr.read 0 ts).toReading = .ok e (.symbol .rparen :: rest) :=
    h.read_eq (Nat.le_refl 0) (ends_symbol rfl 0 rest) (Nat.zero_le _)
  rw [Expr.readOperand_lparen]
  refine (andThen_of_ok hinner _).trans ?_
  exact map_of_ok (Kind.read_symbol .rparen rest) _

theorem reads_int {digits : String} (h : decimal digits ≤ 9223372036854775807) :
    (Category.expr .primary).Reads (.int digits :: rest)
      (Expr.int (Int64.ofNat (decimal digits))) rest := by
  refine reads_operand fun _ => ?_
  rw [Expr.readOperand_int rest (Integer.ofDigits?_eq_some_iff.mpr ⟨h, rfl⟩)]
  rfl

theorem reads_cond {c : Expr} {t : List Statement}
    (hc : (Category.expr .equality).Reads ts c (.symbol .rparen :: us))
    (ht : Category.block.Reads us t rest) :
    (Category.expr .primary).Reads (.keyword .if :: .symbol .lparen :: ts)
      (Expr.cond c t none) rest := by
  refine reads_operand fun hends => ?_
  obtain ⟨vs, rfl, hblock⟩ := ht
  have hcond := hc.read_eq (Nat.le_refl 0) (ends_symbol rfl 0 _) (Nat.zero_le _)
  rw [Expr.readOperand_if]
  refine (andThen_of_ok (Kind.read_symbol .lparen ts) _).trans ?_
  refine (weaken_andThen_of_ok hcond _).trans ?_
  refine (andThen_of_ok (Kind.read_symbol .rparen _) _).trans ?_
  refine (andThen_of_ok (Kind.read_symbol .lbrace vs) _).trans ?_
  refine (andThen_of_ok hblock _).trans ?_
  split
  · exact absurd rfl hends.not_else
  · rfl

theorem reads_condElse {c : Expr} {t e : List Statement}
    (hc : (Category.expr .equality).Reads ts c (.symbol .rparen :: us))
    (ht : Category.block.Reads us t (.keyword .else :: vs))
    (he : Category.block.Reads vs e rest) :
    (Category.expr .primary).Reads (.keyword .if :: .symbol .lparen :: ts)
      (Expr.cond c t (some e)) rest := by
  refine reads_operand fun _ => ?_
  obtain ⟨us, rfl, hthen⟩ := ht
  obtain ⟨vs, rfl, helse⟩ := he
  have hcond := hc.read_eq (Nat.le_refl 0) (ends_symbol rfl 0 _) (Nat.zero_le _)
  rw [Expr.readOperand_if]
  refine (andThen_of_ok (Kind.read_symbol .lparen ts) _).trans ?_
  refine (weaken_andThen_of_ok hcond _).trans ?_
  refine (andThen_of_ok (Kind.read_symbol .rparen _) _).trans ?_
  refine (andThen_of_ok (Kind.read_symbol .lbrace us) _).trans ?_
  refine (andThen_of_ok hthen _).trans ?_
  simp only
  rw [toReading_weaken]
  refine (andThen_of_ok (Kind.read_symbol .lbrace vs) _).trans ?_
  exact map_of_ok helse _

theorem reads_function {params : List String} {body : List Statement}
    (hparams : Category.names.Reads ts params (.symbol .rparen :: us))
    (hbody : Category.block.Reads us body rest) :
    (Category.expr .primary).Reads (.keyword .fn :: .symbol .lparen :: ts)
      (Expr.function params body) rest := by
  refine reads_operand fun _ => ?_
  obtain ⟨vs, rfl, hblock⟩ := hbody
  rw [Expr.readOperand_fn]
  refine (andThen_of_ok (Kind.read_symbol .lparen ts) _).trans ?_
  refine (andThen_of_ok (hparams _ rfl).1 _).trans ?_
  refine (andThen_of_ok (Kind.read_symbol .lbrace vs) _).trans ?_
  exact map_of_ok hblock _

theorem reads_vector {es : List Expr}
    (h : Category.exprs.Reads ts es (.symbol .rbracket :: rest)) :
    (Category.expr .primary).Reads (.symbol .lbracket :: ts) (Expr.vector es) rest := by
  refine reads_operand fun _ => ?_
  rw [Expr.readOperand_lbracket]
  exact map_of_ok (h .rbracket rest (.inr rfl) rfl).1 _

theorem reads_dict {ps : List (Expr × Expr)}
    (h : Category.pairs.Reads ts ps (.symbol .rbrace :: rest)) :
    (Category.expr .primary).Reads (.symbol .lbrace :: ts) (Expr.dict ps) rest := by
  refine reads_operand fun _ => ?_
  rw [Expr.readOperand_lbrace]
  exact map_of_ok (h rest rfl) _

theorem reads_ident (name : String) :
    (Category.expr .primary).Reads (.ident name :: rest) (Expr.ident name) rest := by
  refine reads_operand fun _ => ?_
  rw [Expr.readOperand_ident]
  rfl

theorem reads_str (text : String) :
    (Category.expr .primary).Reads (.str text :: rest) (Expr.str text) rest := by
  refine reads_operand fun _ => ?_
  rw [Expr.readOperand_str]
  rfl

theorem reads_truth :
    (Category.expr .primary).Reads (.keyword .true :: rest) (Expr.bool true) rest := by
  refine reads_operand fun _ => ?_
  rw [Expr.readOperand_true]
  rfl

theorem reads_falsity :
    (Category.expr .primary).Reads (.keyword .false :: rest) (Expr.bool false) rest := by
  refine reads_operand fun _ => ?_
  rw [Expr.readOperand_false]
  rfl

end Expressions

section Lists

variable {ts us vs rest : List Token} {e k v : Expr}

theorem readMoreParams_of_rparen (us : List Token) :
    (readMoreParams (.symbol .rparen :: us)).toReading = .ok [] us := by
  rw [readMoreParams_end (by simp)]
  exact map_of_ok (Kind.read_symbol .rparen us) _

/-- A name and the names after it are read in the same way whether or not the
name is the first. -/
theorem reads_name {name : String} {names : List String}
    (h : (readMoreParams ts).toReading = .ok names us) :
    (readParams (.ident name :: ts)).toReading = .ok (name :: names) us ∧
      (name :: names ≠ [] →
        (readMoreParams (.symbol .comma :: .ident name :: ts)).toReading =
          .ok (name :: names) us) := by
  refine ⟨?_, fun _ => ?_⟩
  · rw [readParams.eq_def]
    exact map_of_ok h _
  · rw [readMoreParams.eq_def]
    exact map_of_ok h _

theorem reads_noNames : Category.names.Reads rest [] rest := by
  rintro us rfl
  refine ⟨?_, fun h => absurd rfl h⟩
  rw [readParams.eq_def]
  rfl

theorem reads_lastName {name : String} :
    Category.names.Reads (.ident name :: rest) [name] rest := by
  rintro us rfl
  exact reads_name (readMoreParams_of_rparen us)

theorem reads_moreNames {name next : String} {names : List String}
    (h : Category.names.Reads ts (next :: names) rest) :
    Category.names.Reads (.ident name :: .symbol .comma :: ts) (name :: next :: names) rest := by
  intro us hrest
  exact reads_name ((h us hrest).2 (List.cons_ne_nil _ _))

theorem ofHead_ne_of_starts {close : Symbol} (hclose : close = .rparen ∨ close = .rbracket)
    (hts : ∃ t us, ts = t :: us ∧ t.startsExpr = true) : Kind.ofHead ts ≠ .symbol close := by
  obtain ⟨t, us, rfl, ht⟩ := hts
  intro heq
  obtain rfl : t = .symbol close := Token.eq_symbol_of_kind heq
  rcases hclose with rfl | rfl <;> cases ht

/-- So it is with expressions between commas. -/
theorem reads_item {close : Symbol} {es : List Expr}
    (hclose : close = .rparen ∨ close = .rbracket)
    (hts : ∃ t us, ts = t :: us ∧ t.startsExpr = true)
    (he : (Expr.read 0 ts).toReading = .ok e us)
    (hes : (Expr.readMoreList (.symbol close) us).toReading = .ok es vs) :
    (Expr.readList (.symbol close) ts).toReading = .ok (e :: es) vs ∧
      (e :: es ≠ [] →
        (Expr.readMoreList (.symbol close) (.symbol .comma :: ts)).toReading =
          .ok (e :: es) vs) := by
  refine ⟨?_, fun _ => ?_⟩
  · rw [Expr.readList_cons (ofHead_ne_of_starts hclose hts)]
    refine (weaken_andThen_of_ok he _).trans ?_
    exact map_of_ok hes _
  · rw [Expr.readMoreList_comma]
    refine (andThen_of_ok he _).trans ?_
    exact map_of_ok hes _

theorem reads_noExprs : Category.exprs.Reads rest [] rest := by
  rintro close us - rfl
  refine ⟨?_, fun h => absurd rfl h⟩
  exact Expr.readList_nil_of_head rfl

theorem reads_lastExpr (hts : ∃ t us, ts = t :: us ∧ t.startsExpr = true)
    (he : (Category.expr .equality).Reads ts e rest) : Category.exprs.Reads ts [e] rest := by
  rintro close us hclose rfl
  have hcontinues : (Token.symbol close).continues = false := by
    rcases hclose with rfl | rfl <;> rfl
  have hread := he.read_eq (Nat.le_refl 0) (ends_symbol hcontinues 0 us) (Nat.zero_le _)
  refine reads_item hclose hts hread ?_
  have hhead : (Token.symbol close :: us).head? ≠ some (.symbol .comma) := by
    rcases hclose with rfl | rfl <;> simp
  rw [Expr.readMoreList_end hhead]
  exact map_of_ok (Kind.read_symbol close us) _

theorem reads_moreExprs {next : Expr} {es : List Expr}
    (hts : ∃ t us, ts = t :: us ∧ t.startsExpr = true)
    (he : (Category.expr .equality).Reads ts e (.symbol .comma :: us))
    (hes : Category.exprs.Reads us (next :: es) rest) :
    Category.exprs.Reads ts (e :: next :: es) rest := by
  intro close ws hclose hrest
  have hread := he.read_eq (Nat.le_refl 0) (ends_symbol rfl 0 us) (Nat.zero_le _)
  exact reads_item hclose hts hread ((hes close ws hclose hrest).2 (List.cons_ne_nil _ _))

theorem head_ne_rbrace_of_starts (hts : ∃ t us, ts = t :: us ∧ t.startsExpr = true) :
    ts.head? ≠ some (.symbol .rbrace) := by
  obtain ⟨t, us, rfl, ht⟩ := hts
  intro heq
  cases heq
  cases ht

theorem reads_noPairs : Category.pairs.Reads rest [] rest := by
  rintro us rfl
  exact Expr.readPairs_rbrace us

theorem reads_lastPair (hts : ∃ t us, ts = t :: us ∧ t.startsExpr = true)
    (hk : (Category.expr .equality).Reads ts k (.symbol .colon :: us))
    (hv : (Category.expr .equality).Reads us v rest) : Category.pairs.Reads ts [(k, v)] rest := by
  rintro ws rfl
  have hkey := hk.read_eq (Nat.le_refl 0) (ends_symbol rfl 0 us) (Nat.zero_le _)
  have hvalue := hv.read_eq (Nat.le_refl 0) (ends_symbol rfl 0 ws) (Nat.zero_le _)
  rw [Expr.readPairs_cons (head_ne_rbrace_of_starts hts)]
  refine (weaken_andThen_of_ok hkey _).trans ?_
  refine (andThen_of_ok (Kind.read_symbol .colon us) _).trans ?_
  exact weaken_andThen_of_ok hvalue _

theorem reads_morePairs {ps : List (Expr × Expr)}
    (hts : ∃ t us, ts = t :: us ∧ t.startsExpr = true)
    (hk : (Category.expr .equality).Reads ts k (.symbol .colon :: us))
    (hv : (Category.expr .equality).Reads us v (.symbol .comma :: vs))
    (hps : Category.pairs.Reads vs ps rest) : Category.pairs.Reads ts ((k, v) :: ps) rest := by
  intro ws hrest
  have hkey := hk.read_eq (Nat.le_refl 0) (ends_symbol rfl 0 us) (Nat.zero_le _)
  have hvalue := hv.read_eq (Nat.le_refl 0) (ends_symbol rfl 0 vs) (Nat.zero_le _)
  rw [Expr.readPairs_cons (head_ne_rbrace_of_starts hts)]
  refine (weaken_andThen_of_ok hkey _).trans ?_
  refine (andThen_of_ok (Kind.read_symbol .colon us) _).trans ?_
  refine (weaken_andThen_of_ok hvalue _).trans ?_
  exact map_of_ok (hps ws hrest) _

end Lists

section Statements

variable {ts us rest : List Token} {e : Expr} {s : Statement} {ss : List Statement}

theorem reads_let {name : String} (he : (Category.expr .equality).Reads ts e rest) :
    Category.clause.Reads (.keyword .let :: .ident name :: .symbol .assign :: ts)
      (Statement.let name e) rest := by
  refine ⟨_, Statement.read_let _, fun hends => ?_⟩
  have hread := he.read_eq (Nat.le_refl 0) hends (Nat.zero_le _)
  have hname : (readName (.ident name :: .symbol .assign :: ts)).toReading =
      .ok name (.symbol .assign :: ts) := rfl
  refine (andThen_of_ok hname _).trans ?_
  refine (andThen_of_ok (Kind.read_symbol .assign ts) _).trans ?_
  exact map_of_ok hread _

theorem reads_return (he : (Category.expr .equality).Reads ts e rest) :
    Category.clause.Reads (.keyword .return :: ts) (Statement.return e) rest := by
  refine ⟨_, Statement.read_return ts, fun hends => ?_⟩
  exact map_of_ok (he.read_eq (Nat.le_refl 0) hends (Nat.zero_le _)) _

theorem reads_bare (hts : ∃ t us, ts = t :: us ∧ t.startsExpr = true)
    (he : (Category.expr .equality).Reads ts e rest) :
    Category.clause.Reads ts (Statement.expr e) rest := by
  obtain ⟨t, us, rfl, ht⟩ := hts
  refine ⟨_, Statement.read_expr _ ?_ ?_, fun hends => ?_⟩
  · intro vs heq
    cases heq
    cases ht
  · intro vs heq
    cases heq
    cases ht
  · exact map_of_ok (he.read_eq (Nat.le_refl 0) hends (Nat.zero_le _)) _

/-- A statement takes along the semicolon behind it, whatever comes next. -/
theorem Category.Reads.read_ended (h : Category.clause.Reads ts s (.symbol .semicolon :: rest)) :
    (Statement.read ts).toReading = .ok s rest := by
  obtain ⟨r, hread, hr⟩ := h
  rw [hread]
  exact dropSemicolon_of_ended (hr (ends_symbol rfl 0 rest))

theorem reads_ended (h : Category.clause.Reads ts s (.symbol .semicolon :: rest)) :
    Category.statement.Reads ts s rest :=
  fun _ _ => h.read_ended

theorem reads_unended (h : Category.clause.Reads ts s rest)
    (hnext : ∀ next ∈ rest.head?, next.continues = false) :
    Category.statement.Reads ts s rest := by
  obtain ⟨r, hread, hr⟩ := h
  intro helse hsemicolon
  have hpower : nextPower rest ≤ 0 := Nat.le_of_eq ((nextPower_eq_zero_iff rest).mpr hnext)
  rw [hread]
  exact dropSemicolon_of_unended (hr ⟨hpower, helse⟩) hsemicolon

theorem reads_noStatements : Category.statements.Reads rest [] rest := by
  refine ⟨?_, ?_⟩
  · rintro rfl
    rw [Program.read.eq_def]
    rfl
  · rintro us rfl
    exact Block.read_rbrace us

/-- What follows a statement, if it is another one or the end of them all, does
not belong to the statement. -/
theorem Category.Reads.read_statement (hs : Category.statement.Reads ts s us)
    (hus : us = [] ∨ us.head? = some (.symbol .rbrace) ∨
      ∃ t vs, us = t :: vs ∧ t.starts = true) :
    (Statement.read ts).toReading = .ok s us := by
  rcases hus with rfl | hrbrace | ⟨t, vs, rfl, ht⟩
  · exact hs (by simp) (by simp)
  · exact hs (by simp [hrbrace]) (by simp [hrbrace])
  · refine hs ?_ ?_
    · intro heq
      cases heq
      cases ht
    · intro heq
      cases heq
      cases ht

theorem reads_moreStatements (hts : ∃ t us, ts = t :: us ∧ t.starts = true)
    (hs : Category.statement.Reads ts s us)
    (hus : us = rest ∨ ∃ t vs, us = t :: vs ∧ t.starts = true)
    (hss : Category.statements.Reads us ss rest) :
    Category.statements.Reads ts (s :: ss) rest := by
  obtain ⟨t, ts, rfl, ht⟩ := hts
  refine ⟨?_, ?_⟩
  · rintro rfl
    have hread := hs.read_statement (hus.imp_right .inr)
    rw [Program.read, hread]
    simp only [Reading.ok, hss.1 rfl]
    rfl
  · rintro vs rfl
    have hread := hs.read_statement (.inr (hus.imp_left fun h => by rw [h]; rfl))
    have hne : t ≠ .symbol .rbrace := by
      rintro rfl
      cases ht
    rw [Block.read_cons hne]
    refine (toReading_weaken _ _).trans ?_
    refine (regardless_of_ok hread _).trans ?_
    exact map_of_ok (hss.2 vs rfl) _

end Statements

theorem Derives.reads {c : Category} {ts rest : List Token} {tree : c.Tree}
    (h : Derives c ts tree rest) : c.Reads ts tree rest := by
  induction h with
  | tighter _ ih => exact reads_tighter ih
  | operator _ _ iha ihb => exact reads_operator iha ihb
  | unary _ ih => exact reads_unary ih
  | call _ _ ihf ihargs => exact reads_call ihf ihargs
  | index _ _ iha ihi => exact reads_index iha ihi
  | ident => exact reads_ident _
  | str => exact reads_str _
  | truth => exact reads_truth
  | falsity => exact reads_falsity
  | int hle => exact reads_int hle
  | group _ ih => exact reads_group ih
  | cond _ _ ihc iht => exact reads_cond ihc iht
  | condElse _ _ _ ihc iht ihe => exact reads_condElse ihc iht ihe
  | function _ _ ihparams ihbody => exact reads_function ihparams ihbody
  | vector _ ih => exact reads_vector ih
  | dict _ ih => exact reads_dict ih
  | noNames => exact reads_noNames
  | lastName => exact reads_lastName
  | moreNames _ ih => exact reads_moreNames ih
  | noExprs => exact reads_noExprs
  | lastExpr he ih => exact reads_lastExpr (he.head_starts rfl) ih
  | moreExprs he _ ihe ihes => exact reads_moreExprs (he.head_starts rfl) ihe ihes
  | noPairs => exact reads_noPairs
  | lastPair hk _ ihk ihv => exact reads_lastPair (hk.head_starts rfl) ihk ihv
  | morePairs hk _ _ ihk ihv ihps => exact reads_morePairs (hk.head_starts rfl) ihk ihv ihps
  | block _ ih => exact ⟨_, rfl, ih.2 _ rfl⟩
  | «let» _ ih => exact reads_let ih
  | «return» _ ih => exact reads_return ih
  | bare he ih => exact reads_bare (he.head_starts rfl) ih
  | ended _ ih => exact reads_ended ih
  | unended _ hnext ih => exact reads_unended ih hnext
  | noStatements => exact reads_noStatements
  | moreStatements hs hss ihs ihss =>
    exact reads_moreStatements (hs.head_starts rfl) ihs hss.statements_head ihss

end Monkey
