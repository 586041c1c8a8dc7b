import Monkey.Proofs.Grammar.Power
import Monkey.Proofs.Reading

/-!
What is read without errors is derived. Every reader has its statement: of the
tokens that it was given, the ones that it used are a text of the category that
it reads, for the tree that it found. The statements are proved together, along
the calls of the readers.

For the suffixes the statement keeps track of the layer that the expression so
far belongs to. The next token never binds more strongly than that layer lets
pass, and so whatever suffix is taken in, the expression before it is a text of
the layer that the suffix builds on.
-/

namespace Monkey

open ReadingWithin

variable {n : Nat}

theorem Kind.read_finds (kind : Kind) (ts : List Token) :
    (kind.read ts).toReading.Finds fun _ rest => ∃ t, t.kind = kind ∧ ts = t :: rest := by
  unfold Kind.read
  split
  · exact finds_fail _ _
  · rename_i t us
    split
    · rename_i hkind
      exact finds_weaken (finds_done ⟨t, hkind, rfl⟩)
    · exact finds_fail _ _

theorem Token.eq_symbol_of_kind {t : Token} {s : Symbol} (h : t.kind = .symbol s) :
    t = .symbol s := by
  cases t <;> simp_all [Token.kind]

theorem Symbol.read_finds (s : Symbol) (ts : List Token) :
    ((Kind.symbol s).read ts).toReading.Finds fun _ rest => ts = .symbol s :: rest := by
  refine (Kind.read_finds _ ts).mono ?_
  rintro _ rest ⟨t, hkind, rfl⟩
  rw [Token.eq_symbol_of_kind hkind]

theorem readName_finds (ts : List Token) :
    (readName ts).toReading.Finds fun name rest => ts = .ident name :: rest := by
  unfold readName
  split
  · exact finds_weaken (finds_done rfl)
  · exact finds_fail _ _

theorem readMoreParams_finds (first : String) (ts : List Token) :
    (readMoreParams ts).toReading.Finds fun names rest =>
      Derives .names (.ident first :: ts) (first :: names) (.symbol .rparen :: rest) := by
  induction ts using readMoreParams.induct generalizing first with
  | case1 name ts ih =>
    rw [readMoreParams_name]
    exact finds_weaken (finds_map (ih name) fun names rest h => .moreNames h)
  | case2 ts hts =>
    rw [readMoreParams_comma hts]
    exact finds_weaken (finds_fail _ _)
  | case3 ts _ hts =>
    rw [readMoreParams_end hts]
    refine finds_map (Symbol.read_finds .rparen ts) ?_
    rintro _ rest rfl
    exact .lastName

theorem readParams_finds (ts : List Token) :
    (readParams ts).toReading.Finds fun names rest =>
      Derives .names ts names (.symbol .rparen :: rest) := by
  unfold readParams
  split
  · exact finds_weaken (finds_done .noNames)
  · refine finds_andThen (readName_finds _) ?_
    rintro name us hle rfl
    exact finds_map (readMoreParams_finds name us) fun names rest h => h

theorem Integer.ofDigits?_eq_some_iff {digits : String} {n : Int64} :
    Integer.ofDigits? digits = some n ↔
      decimal digits ≤ 9223372036854775807 ∧ n = Int64.ofNat (decimal digits) := by
  have heq : Integer.ofDigits? digits =
      if decimal digits ≤ 9223372036854775807 then some (Int64.ofNat (decimal digits))
      else none := rfl
  rw [heq]
  constructor
  · intro h
    split at h
    · rename_i hle
      exact ⟨hle, (Option.some.inj h).symm⟩
    · cases h
  · rintro ⟨hle, rfl⟩
    rw [if_pos hle]

theorem Kind.ofHead_eq_symbol {ts : List Token} {s : Symbol} (h : Kind.ofHead ts = .symbol s) :
    ts = .symbol s :: ts.tail := by
  cases ts with
  | nil => cases h
  | cons t ts => rw [Token.eq_symbol_of_kind h, List.tail_cons]

/-- What an operand of the tightest layer is may be followed by any token. -/
theorem finds_primary {ts : List Token} {r : ReadingWithin n Expr}
    (h : r.toReading.Finds fun e rest => Derives (.expr .primary) ts e rest) :
    r.toReading.Finds fun e rest =>
      ∃ l : Layer, Derives (.expr l) ts e rest ∧ 4 ≤ l.depth ∧ nextPower rest ≤ l.ceiling := by
  refine h.mono ?_
  intro e rest he
  exact ⟨.primary, he, by decide, nextPower_le rest⟩

theorem finds_unary (op : UnaryOp) {ts : List Token}
    (h : (Expr.read UnaryOp.power ts).toReading.Finds fun e rest =>
      Derives (.expr (Layer.ofPower UnaryOp.power)) ts e rest ∧ nextPower rest ≤ UnaryOp.power) :
    (Expr.readOperand (.symbol op.symbol :: ts)).toReading.Finds fun e rest =>
      ∃ l : Layer, Derives (.expr l) (.symbol op.symbol :: ts) e rest ∧
        4 ≤ l.depth ∧ nextPower rest ≤ l.ceiling := by
  rw [Expr.readOperand_unary]
  refine finds_weaken (finds_map h ?_)
  rintro a rest ⟨ha, hnext⟩
  exact ⟨.unary, .unary ha, by decide, hnext⟩

/-- A clause that was read as far as it goes ends with its semicolon, or before
a token that could not have carried it on. -/
theorem finds_statement {ts : List Token} {r : ReadingWithin n Statement}
    (h : r.toReading.Finds fun s rest => Derives .clause ts s rest ∧ nextPower rest ≤ 0) :
    r.dropSemicolon.toReading.Finds fun s rest => Derives .statement ts s rest := by
  refine finds_dropSemicolon h ?_ ?_
  · rintro s rest ⟨hs, -⟩
    exact .ended hs
  · rintro s rest ⟨hs, hnext⟩
    exact .unended hs ((nextPower_eq_zero_iff rest).mp (Nat.le_zero.mp hnext))

mutual

theorem Expr.read_finds (power : Nat) (ts : List Token) :
    (Expr.read power ts).toReading.Finds fun e rest =>
      Derives (.expr (Layer.ofPower power)) ts e rest ∧ nextPower rest ≤ power := by
  rw [Expr.read]
  refine finds_andThen (Expr.readOperand_finds ts) ?_
  rintro left rest hle ⟨l, hleft, hdepth, hnext⟩
  have hlayer : (Layer.ofPower power).depth ≤ l.depth :=
    Nat.le_trans (Layer.depth_ofPower_le_four power) hdepth
  exact Expr.readSuffixes_finds power rest hleft hlayer hnext
termination_by 4 * ts.length + 1
decreasing_by
  all_goals
    simp only [List.length_tail] at *
    omega

theorem Expr.readOperand_finds (ts : List Token) :
    (Expr.readOperand ts).toReading.Finds fun e rest =>
      ∃ l : Layer, Derives (.expr l) ts e rest ∧ 4 ≤ l.depth ∧ nextPower rest ≤ l.ceiling := by
  cases ts with
  | nil =>
    rw [Expr.readOperand_nil]
    exact finds_fail _ _
  | cons t us =>
    by_cases hstarts : t.startsExpr = true
    · cases t with
      | ident name =>
        rw [Expr.readOperand_ident]
        exact finds_primary (finds_done .ident)
      | int digits =>
        cases hdigits : Integer.ofDigits? digits with
        | none =>
          rw [Expr.readOperand_tooLarge us hdigits]
          exact finds_fail _ _
        | some n =>
          obtain ⟨hle, rfl⟩ := Integer.ofDigits?_eq_some_iff.mp hdigits
          rw [Expr.readOperand_int us hdigits]
          exact finds_primary (finds_done (.int hle))
      | str text =>
        rw [Expr.readOperand_str]
        exact finds_primary (finds_done .str)
      | keyword k =>
        cases k with
        | true =>
          rw [Expr.readOperand_true]
          exact finds_primary (finds_done .truth)
        | false =>
          rw [Expr.readOperand_false]
          exact finds_primary (finds_done .falsity)
        | «if» =>
          rw [Expr.readOperand_if]
          refine finds_primary (finds_andThen (Symbol.read_finds .lparen us) ?_)
          rintro _ us₁ hle₁ rfl
          refine finds_andThen (finds_weaken (Expr.read_finds 0 us₁)) ?_
          rintro c us₂ hle₂ ⟨hc, -⟩
          refine finds_andThen (Symbol.read_finds .rparen us₂) ?_
          rintro _ us₃ hle₃ rfl
          refine finds_andThen (Symbol.read_finds .lbrace us₃) ?_
          rintro _ us₄ hle₄ rfl
          refine finds_andThen (Block.read_finds us₄) ?_
          rintro t us₅ hle₅ ht
          split
          · rename_i us₆ _
            refine finds_weaken (finds_andThen (Symbol.read_finds .lbrace us₆) ?_)
            rintro _ us₇ hle₇ rfl
            refine finds_map (Block.read_finds us₇) ?_
            intro e rest he
            exact .condElse hc (.block ht) (.block he)
          · exact finds_done (.cond hc (.block ht))
        | fn =>
          rw [Expr.readOperand_fn]
          refine finds_primary (finds_andThen (Symbol.read_finds .lparen us) ?_)
          rintro _ us₁ hle₁ rfl
          refine finds_andThen (readParams_finds us₁) ?_
          intro params us₂ hle₂ hparams
          refine finds_andThen (Symbol.read_finds .lbrace us₂) ?_
          rintro _ us₃ hle₃ rfl
          refine finds_map (Block.read_finds us₃) ?_
          intro body rest hbody
          exact .function hparams (.block hbody)
        | «let» | «else» | «return» => cases hstarts
      | symbol s =>
        cases s with
        | bang => exact finds_unary .bang (Expr.read_finds UnaryOp.power us)
        | minus => exact finds_unary .minus (Expr.read_finds UnaryOp.power us)
        | lparen =>
          rw [Expr.readOperand_lparen]
          refine finds_primary (finds_weaken (finds_andThen (Expr.read_finds 0 us) ?_))
          rintro e mid hle ⟨he, -⟩
          refine finds_map (Symbol.read_finds .rparen mid) ?_
          rintro _ rest rfl
          exact .group he
        | lbracket =>
          rw [Expr.readOperand_lbracket]
          exact finds_primary (finds_map (Expr.readList_finds .rbracket us) fun _ _ h => .vector h)
        | lbrace =>
          rw [Expr.readOperand_lbrace]
          exact finds_primary (finds_map (Expr.readPairs_finds us) fun _ _ h => .dict h)
        | _ => cases hstarts
      | illegal | eof => cases hstarts
    · rw [Expr.readOperand_of_not_starts us (Bool.eq_false_iff.mpr hstarts)]
      exact finds_fail _ _
termination_by 4 * ts.length + 0
decreasing_by
  all_goals
    subst_vars
    simp only [List.length_cons, List.length_tail] at *
    omega

theorem Expr.readSuffixes_finds (power : Nat) (ts : List Token) {l : Layer} {left : Expr}
    {start : List Token} (hleft : Derives (.expr l) start left ts)
    (hlayer : (Layer.ofPower power).depth ≤ l.depth) (hnext : nextPower ts ≤ l.ceiling) :
    (Expr.readSuffixes power left ts).toReading.Finds fun e rest =>
      Derives (.expr (Layer.ofPower power)) start e rest ∧ nextPower rest ≤ power := by
  by_cases hle : nextPower ts ≤ power
  · rw [Expr.readSuffixes_of_le left hle]
    exact finds_done ⟨hleft.widen hlayer, hle⟩
  · obtain ⟨s, us, rfl, hpower⟩ := exists_suffix_of_lt_nextPower (Nat.not_le.mp hle)
    rw [nextPower, Token.power_suffix] at hnext
    cases s with
    | operator op =>
      have hdepth : (Layer.ofPower power).depth ≤ op.layer.depth := by
        have hbound := Layer.depth_ofPower_le power
        rw [op.power_eq_depth_succ] at hpower
        omega
      rw [Suffix.token, Expr.readSuffixes_operator left hpower]
      refine finds_weaken (finds_andThen
        (finds_weaken (Expr.read_finds (Suffix.operator op).power us)) ?_)
      rintro right vs hvs ⟨hright, hceiling⟩
      rw [op.ofPower_power] at hright
      rw [op.power_eq_ceiling] at hceiling
      have hop := hleft.widen (BinaryOp.depth_le_of_power_le hnext)
      exact Expr.readSuffixes_finds power vs (.operator hop hright) hdepth hceiling
    | call =>
      have happlied := hleft.widen (Layer.applied_depth_le hnext)
      have hdepth : (Layer.ofPower power).depth ≤ Layer.applied.depth :=
        Nat.le_succ_of_le (Layer.depth_ofPower_le_four power)
      rw [Suffix.token, Expr.readSuffixes_call left hpower]
      refine finds_weaken (finds_andThen (Expr.readList_finds .rparen us) ?_)
      intro args vs hvs hargs
      exact Expr.readSuffixes_finds power vs (.call happlied hargs) hdepth (nextPower_le vs)
    | index =>
      have happlied := hleft.widen (Layer.applied_depth_le (Nat.le_of_succ_le hnext))
      have hdepth : (Layer.ofPower power).depth ≤ Layer.applied.depth :=
        Nat.le_succ_of_le (Layer.depth_ofPower_le_four power)
      rw [Suffix.token, Expr.readSuffixes_index left hpower]
      refine finds_weaken (finds_andThen (finds_weaken (Expr.read_finds 0 us)) ?_)
      rintro key vs hvs ⟨hkey, -⟩
      refine finds_andThen (Symbol.read_finds .rbracket vs) ?_
      rintro _ ws hws rfl
      exact Expr.readSuffixes_finds power ws (.index happlied hkey) hdepth (nextPower_le ws)
termination_by 4 * ts.length + 0
decreasing_by
  all_goals
    subst_vars
    simp only [List.length_cons] at *
    omega

theorem Expr.readList_finds (s : Symbol) (ts : List Token) :
    (Expr.readList (.symbol s) ts).toReading.Finds fun es rest =>
      Derives .exprs ts es (.symbol s :: rest) := by
  rw [Expr.readList]
  split
  · rename_i hhead
    have hts := Kind.ofHead_eq_symbol hhead
    refine finds_weaken (finds_done ?_)
    rw [← hts]
    exact .noExprs
  · refine finds_andThen (finds_weaken (Expr.read_finds 0 ts)) ?_
    rintro e us hle ⟨he, -⟩
    refine finds_map (Expr.readMoreList_finds s us he) ?_
    intro es rest h
    exact h
termination_by 4 * ts.length + 2
decreasing_by
  all_goals omega

theorem Expr.readMoreList_finds (s : Symbol) (ts : List Token) {start : List Token} {e : Expr}
    (he : Derives (.expr .equality) start e ts) :
    (Expr.readMoreList (.symbol s) ts).toReading.Finds fun es rest =>
      Derives .exprs start (e :: es) (.symbol s :: rest) := by
  rw [Expr.readMoreList.eq_def]
  split
  · rename_i us
    refine finds_weaken (finds_andThen (Expr.read_finds 0 us) ?_)
    rintro next vs hle ⟨hnext, -⟩
    refine finds_map (Expr.readMoreList_finds s vs hnext) ?_
    intro es rest h
    exact .moreExprs he h
  · refine finds_map (Symbol.read_finds s ts) ?_
    rintro _ rest rfl
    exact .lastExpr he
termination_by 4 * ts.length + 0
decreasing_by
  all_goals
    subst_vars
    simp only [List.length_cons, List.length_tail] at *
    omega

theorem Expr.readPairs_finds (ts : List Token) :
    (Expr.readPairs ts).toReading.Finds fun ps rest =>
      Derives .pairs ts ps (.symbol .rbrace :: rest) := by
  rw [Expr.readPairs.eq_def]
  split
  · exact finds_weaken (finds_done .noPairs)
  · refine finds_andThen (finds_weaken (Expr.read_finds 0 ts)) ?_
    rintro k us₁ hle₁ ⟨hk, -⟩
    refine finds_andThen (Symbol.read_finds .colon us₁) ?_
    rintro _ us₂ hle₂ rfl
    refine finds_andThen (finds_weaken (Expr.read_finds 0 us₂)) ?_
    rintro v us₃ hle₃ ⟨hv, -⟩
    split
    · exact finds_weaken (finds_done (.lastPair hk hv))
    · rename_i us₄ _
      refine finds_weaken (finds_map (Expr.readPairs_finds us₄) ?_)
      intro ps rest h
      exact .morePairs hk hv h
    · exact finds_fail _ _
termination_by 4 * ts.length + 2
decreasing_by
  all_goals
    subst_vars
    simp only [List.length_cons] at *
    omega

theorem Block.read_finds (ts : List Token) :
    (Block.read ts).toReading.Finds fun ss rest =>
      Derives .statements ts ss (.symbol .rbrace :: rest) := by
  rw [Block.read.eq_def]
  split
  · exact finds_fail _ _
  · exact finds_weaken (finds_done .noStatements)
  · rename_i t us _
    refine finds_weaken (finds_regardless (Statement.read_finds (t :: us)) ?_)
    intro s vs hle hs
    refine finds_map (Block.read_finds vs) ?_
    intro ss rest hss
    exact .moreStatements hs hss
termination_by 4 * ts.length + 3
decreasing_by
  all_goals
    subst_vars
    simp only [List.length_cons, List.length_tail] at *
    omega

theorem Statement.read_finds (ts : List Token) :
    (Statement.read ts).toReading.Finds fun s rest => Derives .statement ts s rest := by
  by_cases hlet : ∃ us, ts = .keyword .let :: us
  · obtain ⟨us, rfl⟩ := hlet
    rw [Statement.read_let]
    refine finds_statement (finds_andThen (readName_finds us) ?_)
    rintro name us₁ hle₁ rfl
    refine finds_andThen (Symbol.read_finds .assign us₁) ?_
    rintro _ us₂ hle₂ rfl
    refine finds_weaken (finds_map (Expr.read_finds 0 us₂) ?_)
    rintro e rest ⟨he, hnext⟩
    exact ⟨.let he, hnext⟩
  · by_cases hreturn : ∃ us, ts = .keyword .return :: us
    · obtain ⟨us, rfl⟩ := hreturn
      rw [Statement.read_return]
      refine finds_statement (finds_weaken (finds_map (Expr.read_finds 0 us) ?_))
      rintro e rest ⟨he, hnext⟩
      exact ⟨.return he, hnext⟩
    · rw [Statement.read_expr ts (not_exists.mp hlet) (not_exists.mp hreturn)]
      refine finds_statement (finds_map (Expr.read_finds 0 ts) ?_)
      rintro e rest ⟨he, hnext⟩
      exact ⟨.bare he, hnext⟩
termination_by 4 * ts.length + 2
decreasing_by
  all_goals
    subst_vars
    simp only [List.length_cons, List.length_tail] at *
    omega

end

/-- A program that is read without errors takes in all the tokens. -/
theorem Program.read_finds (ts : List Token) :
    (Program.read ts).Finds fun ss rest => rest = [] ∧ Derives .statements ts ss [] := by
  fun_induction Program.read ts with
  | case1 => exact fun _ => ⟨[], rfl, rfl, .noStatements⟩
  | case2 t ts s p ih =>
    intro herrors
    obtain ⟨hfirst, hsecond⟩ := List.append_eq_nil_iff.mp herrors
    obtain ⟨a, hnode, hs⟩ := Statement.read_finds (t :: ts) hfirst
    obtain ⟨ss, hnodes, hrest, hss⟩ := ih hsecond
    refine ⟨a :: ss, ?_, hrest, .moreStatements hs hss⟩
    change Option.map (s.node?.toList ++ ·) p.node? = _
    have hs? : s.node? = some a := hnode
    have hp? : p.node? = some ss := hnodes
    rw [hs?, hp?]
    rfl

end Monkey
