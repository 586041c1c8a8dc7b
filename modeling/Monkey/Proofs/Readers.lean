import Monkey.Proofs.Grammar
import Monkey.Proofs.Reading
import Monkey.Syntax.Read

/-!
What each reader does, by the token that it comes to. An operand is settled by
its first token. After an operand the next token is taken in if it starts a
suffix that binds more strongly than the power under which the expression is
read, and the expression ends before it otherwise.
-/

namespace Monkey

open ReadingWithin

namespace Suffix

/-- The token that starts a suffix. -/
def token : Suffix → Token
  | .operator op => .symbol op.symbol
  | .call => .symbol .lparen
  | .index => .symbol .lbracket

theorem ofToken?_token (s : Suffix) : Suffix.ofToken? s.token = some s := by
  cases s with
  | operator op => cases op <;> rfl
  | call | index => rfl

theorem token_of_ofToken? {t : Token} {s : Suffix} (h : Suffix.ofToken? t = some s) :
    t = s.token := by
  unfold Suffix.ofToken? at h
  split at h <;> cases h <;> rfl

end Suffix

/-- How strongly a token binds what stands before it; not at all, if it starts
no suffix. -/
def Token.power (t : Token) : Nat :=
  match Suffix.ofToken? t with
  | some s => s.power
  | none => 0

theorem Token.power_suffix (s : Suffix) : s.token.power = s.power := by
  rw [Token.power, Suffix.ofToken?_token]

theorem Token.power_eq_zero_iff (t : Token) : t.power = 0 ↔ t.continues = false := by
  cases t with
  | symbol s => cases s <;> decide
  | _ => simp [Token.power, Suffix.ofToken?, Token.continues]

/-- How strongly the next token binds what stands before it. -/
def nextPower : List Token → Nat
  | [] => 0
  | t :: _ => t.power

theorem Token.power_le (t : Token) : t.power ≤ 7 := by
  cases t with
  | symbol s => cases s <;> decide
  | _ => exact Nat.zero_le 7

theorem nextPower_le (ts : List Token) : nextPower ts ≤ 7 := by
  cases ts with
  | nil => exact Nat.zero_le 7
  | cons t ts => exact t.power_le

/-- Only a suffix binds at all. -/
theorem exists_suffix_of_lt_nextPower {n : Nat} {ts : List Token} (h : n < nextPower ts) :
    ∃ (s : Suffix) (us : List Token), ts = s.token :: us ∧ n < s.power := by
  cases ts with
  | nil => exact absurd h (Nat.not_lt_zero n)
  | cons t us =>
    rw [nextPower, Token.power] at h
    split at h
    · rename_i s hs
      exact ⟨s, us, by rw [Suffix.token_of_ofToken? hs], h⟩
    · exact absurd h (Nat.not_lt_zero n)

theorem nextPower_eq_zero_iff (ts : List Token) :
    nextPower ts = 0 ↔ ∀ next ∈ ts.head?, next.continues = false := by
  cases ts with
  | nil => simp [nextPower]
  | cons t ts => simp [nextPower, Token.power_eq_zero_iff]

theorem length_tail_le (ts : List Token) : ts.tail.length ≤ ts.length :=
  (List.tail_sublist ts).length_le

theorem length_append_nil_le (ts : List Token) : (ts ++ []).length ≤ ts.length :=
  Nat.le_of_eq (congrArg List.length (List.append_nil ts))

namespace Expr

variable (ts : List Token)

theorem readOperand_ident (name : String) :
    readOperand (.ident name :: ts) = done (.ident name) ts :=
  readOperand.eq_def _

theorem readOperand_int {digits : String} {n : Int64}
    (h : Integer.ofDigits? digits = some n) :
    readOperand (.int digits :: ts) = done (.int n) ts := by
  rw [readOperand.eq_def]
  simp only [h]
  rfl

theorem readOperand_tooLarge {digits : String} (h : Integer.ofDigits? digits = none) :
    readOperand (.int digits :: ts) = fail (.integerTooLarge digits) ts := by
  rw [readOperand.eq_def]
  simp only [h]
  rfl

theorem readOperand_str (text : String) :
    readOperand (.str text :: ts) = done (.str text) ts :=
  readOperand.eq_def _

theorem readOperand_true : readOperand (.keyword .true :: ts) = done (.bool true) ts :=
  readOperand.eq_def _

theorem readOperand_false : readOperand (.keyword .false :: ts) = done (.bool false) ts :=
  readOperand.eq_def _

theorem readOperand_unary (op : UnaryOp) :
    readOperand (.symbol op.symbol :: ts) =
      ((Expr.read UnaryOp.power ts).map (.unary op)).weaken (length_tail_le _) := by
  rw [readOperand.eq_def]
  cases op <;> rfl

theorem readOperand_lparen :
    readOperand (.symbol .lparen :: ts) =
      ((Expr.read 0 ts).andThen fun e ts _ =>
        ((Kind.symbol .rparen).read ts).map fun _ => e).weaken (length_tail_le _) :=
  readOperand.eq_def _

theorem readOperand_if :
    readOperand (.keyword .if :: ts) =
      ((Kind.symbol .lparen).read ts).andThen fun _ ts _ =>
        ((Expr.read 0 ts).weaken (length_tail_le _)).andThen fun c ts _ =>
          ((Kind.symbol .rparen).read ts).andThen fun _ ts _ =>
            ((Kind.symbol .lbrace).read ts).andThen fun _ ts _ =>
              (Block.read ts).andThen fun t ts _ =>
                match ts with
                | .keyword .else :: ts =>
                  (((Kind.symbol .lbrace).read ts).andThen fun _ ts _ =>
                    (Block.read ts).map fun e => .cond c t (some e)).weaken (Nat.le_succ _)
                | ts => done (.cond c t none) ts :=
  readOperand.eq_def _

theorem readOperand_fn :
    readOperand (.keyword .fn :: ts) =
      ((Kind.symbol .lparen).read ts).andThen fun _ ts _ =>
        (readParams ts).andThen fun params ts _ =>
          ((Kind.symbol .lbrace).read ts).andThen fun _ ts _ =>
            (Block.read ts).map fun body => .function params body :=
  readOperand.eq_def _

theorem readOperand_lbracket :
    readOperand (.symbol .lbracket :: ts) = (readList (.symbol .rbracket) ts).map .vector :=
  readOperand.eq_def _

theorem readOperand_lbrace :
    readOperand (.symbol .lbrace :: ts) = (readPairs ts).map .dict :=
  readOperand.eq_def _

theorem readOperand_nil : readOperand [] = fail (.noExpression .eof) [] :=
  readOperand.eq_def _

/-- A token that starts no expression is left behind. -/
theorem readOperand_of_not_starts {t : Token} (h : t.startsExpr = false) :
    readOperand (t :: ts) = fail (.noExpression t.kind) ts := by
  rw [readOperand.eq_def]
  cases t with
  | keyword k =>
    cases k with
    | «let» | «else» | «return» => rfl
    | _ => cases h
  | symbol s =>
    cases s with
    | bang | minus | lparen | lbracket | lbrace => cases h
    | _ => rfl
  | illegal | eof => rfl
  | _ => cases h

theorem read_of_not_starts {t : Token} (h : t.startsExpr = false) (power : Nat) :
    (Expr.read power (t :: ts)).toReading = ⟨none, [.noExpression t.kind], ts⟩ := by
  rw [Expr.read, andThen_of_none (congrArg toReading (readOperand_of_not_starts ts h))]

variable {ts} {power : Nat} (left : Expr)

/-- The expression ends where the next token binds no more strongly than the
power under which it is read. -/
theorem readSuffixes_of_le (h : nextPower ts ≤ power) :
    readSuffixes power left ts = done left ts := by
  rw [readSuffixes.eq_def]
  split
  · rfl
  · rename_i t us
    rw [nextPower, Token.power] at h
    split
    · rfl
    · rename_i s hs
      rw [hs] at h
      rw [if_neg (Nat.not_lt.mpr h)]

theorem readSuffixes_operator {op : BinaryOp} (h : power < (Suffix.operator op).power) :
    readSuffixes power left (.symbol op.symbol :: ts) =
      (((Expr.read (Suffix.operator op).power ts).weaken (length_tail_le _)).andThen
        fun right ts _ => readSuffixes power (.binary op left right) ts).weaken
          (Nat.le_succ _) := by
  have hsuffix : Suffix.ofToken? (.symbol op.symbol) = some (.operator op) :=
    Suffix.ofToken?_token (.operator op)
  rw [readSuffixes.eq_def]
  simp only [hsuffix, if_pos h]

theorem readSuffixes_call (h : power < Suffix.call.power) :
    readSuffixes power left (.symbol .lparen :: ts) =
      ((readList (.symbol .rparen) ts).andThen fun args ts _ =>
        readSuffixes power (.call left args) ts).weaken (Nat.le_succ _) := by
  have hsuffix : Suffix.ofToken? (.symbol .lparen) = some .call := rfl
  rw [readSuffixes.eq_def]
  simp only [hsuffix, if_pos h]

theorem readSuffixes_index (h : power < Suffix.index.power) :
    readSuffixes power left (.symbol .lbracket :: ts) =
      (((Expr.read 0 ts).weaken (length_tail_le _)).andThen fun key ts _ =>
        ((Kind.symbol .rbracket).read ts).andThen fun _ ts _ =>
          readSuffixes power (.index left key) ts).weaken (Nat.le_succ _) := by
  have hsuffix : Suffix.ofToken? (.symbol .lbracket) = some .index := rfl
  rw [readSuffixes.eq_def]
  simp only [hsuffix, if_pos h]

theorem readList_nil_of_head {close : Kind} {ts : List Token} (h : Kind.ofHead ts = close) :
    (readList close ts).toReading = .ok [] ts.tail := by
  rw [readList, if_pos h]
  rfl

theorem readList_cons {close : Kind} {ts : List Token} (h : Kind.ofHead ts ≠ close) :
    readList close ts =
      ((Expr.read 0 ts).weaken (length_tail_le _)).andThen fun e ts _ =>
        (readMoreList close ts).map (e :: ·) := by
  rw [readList, if_neg h]

theorem readMoreList_comma (close : Kind) (ts : List Token) :
    readMoreList close (.symbol .comma :: ts) =
      ((Expr.read 0 ts).andThen fun e ts _ =>
        (readMoreList close ts).map (e :: ·)).weaken (Nat.le_succ_of_le (length_tail_le ts)) :=
  readMoreList.eq_def close _

theorem readMoreList_end {close : Kind} {ts : List Token} (h : ts.head? ≠ some (.symbol .comma)) :
    readMoreList close ts = (close.read ts).map fun _ => [] := by
  rw [readMoreList.eq_def]
  split
  · exact absurd rfl h
  · rfl

theorem readPairs_rbrace (ts : List Token) :
    (readPairs (.symbol .rbrace :: ts)).toReading = .ok [] ts := by
  rw [readPairs.eq_def]
  rfl

theorem readPairs_cons {ts : List Token} (h : ts.head? ≠ some (.symbol .rbrace)) :
    readPairs ts =
      ((Expr.read 0 ts).weaken (length_tail_le _)).andThen fun key ts _ =>
        ((Kind.symbol .colon).read ts).andThen fun _ ts _ =>
          ((Expr.read 0 ts).weaken (length_tail_le _)).andThen fun value ts _ =>
            match ts with
            | .symbol .rbrace :: ts => (done [(key, value)] ts).weaken (Nat.le_succ _)
            | .symbol .comma :: ts =>
              ((readPairs ts).map ((key, value) :: ·)).weaken (Nat.le_succ _)
            | ts => fail (.unexpected (.symbol .comma) (Kind.ofHead ts)) ts := by
  rw [readPairs.eq_def]
  split
  · exact absurd rfl h
  · rfl

end Expr

theorem readMoreParams_name (name : String) (ts : List Token) :
    readMoreParams (.symbol .comma :: .ident name :: ts) =
      ((readMoreParams ts).map (name :: ·)).weaken (Nat.le_add_right _ 2) :=
  readMoreParams.eq_def _

theorem readMoreParams_comma {ts : List Token} (h : ∀ name us, ts ≠ .ident name :: us) :
    readMoreParams (.symbol .comma :: ts) =
      (fail (.unexpected .ident (Kind.ofHead ts)) ts).weaken (Nat.le_succ _) := by
  rw [readMoreParams.eq_def]
  cases ts with
  | nil => rfl
  | cons t us =>
    cases t with
    | ident name => exact absurd rfl (h name us)
    | _ => rfl

theorem readMoreParams_end {ts : List Token} (h : ∀ us, ts ≠ .symbol .comma :: us) :
    readMoreParams ts = ((Kind.symbol .rparen).read ts).map fun _ => [] := by
  rw [readMoreParams.eq_def]
  split
  · exact absurd rfl (h _)
  · exact absurd rfl (h _)
  · rfl

theorem readParams_cons {t : Token} (h : t ≠ .symbol .rparen) (ts : List Token) :
    readParams (t :: ts) =
      (readName (t :: ts)).andThen fun name ts _ => (readMoreParams ts).map (name :: ·) := by
  rw [readParams.eq_def]
  cases t with
  | symbol s =>
    cases s with
    | rparen => exact absurd rfl h
    | _ => rfl
  | _ => rfl

theorem Kind.read_symbol (s : Symbol) (ts : List Token) :
    ((Kind.symbol s).read (.symbol s :: ts)).toReading = .ok () ts := by
  have hkind : (Token.symbol s).kind = .symbol s := rfl
  rw [Kind.read, if_pos hkind]
  rfl

theorem Block.read_rbrace (ts : List Token) :
    (Block.read (.symbol .rbrace :: ts)).toReading = .ok [] ts := by
  rw [Block.read.eq_def]
  rfl

theorem Block.read_cons {t : Token} (h : t ≠ .symbol .rbrace) (ts : List Token) :
    Block.read (t :: ts) =
      ((Statement.read (t :: ts)).regardless fun s? ts _ =>
        (Block.read ts).map (s?.toList ++ ·)).weaken (length_tail_le (t :: ts)) := by
  rw [Block.read.eq_def]
  cases t with
  | symbol s =>
    cases s with
    | rbrace => exact absurd rfl h
    | _ => rfl
  | _ => rfl

namespace Statement

variable (ts : List Token)

theorem read_let :
    Statement.read (.keyword .let :: ts) =
      ((readName ts).andThen fun name ts _ =>
        ((Kind.symbol .assign).read ts).andThen fun _ ts _ =>
          ((Expr.read 0 ts).map (.let name)).weaken (length_tail_le _)).dropSemicolon :=
  Statement.read.eq_def _

theorem read_return :
    Statement.read (.keyword .return :: ts) =
      (((Expr.read 0 ts).map .return).weaken (length_tail_le _)).dropSemicolon :=
  Statement.read.eq_def _

theorem read_expr (hlet : ∀ us, ts ≠ .keyword .let :: us)
    (hreturn : ∀ us, ts ≠ .keyword .return :: us) :
    Statement.read ts = ((Expr.read 0 ts).map .expr).dropSemicolon := by
  rw [Statement.read.eq_def]
  cases ts with
  | nil => rfl
  | cons t us =>
    cases t with
    | keyword k =>
      cases k with
      | «let» => exact absurd rfl (hlet us)
      | «return» => exact absurd rfl (hreturn us)
      | _ => rfl
    | _ => rfl

/-- Neither is a statement started, and the token is left behind. -/
theorem read_of_not_starts {t : Token} (h : t.starts = false) :
    (Statement.read (t :: ts)).toReading = ⟨none, [.noExpression t.kind], ts⟩ := by
  have hexpr : t.startsExpr = false :=
    Bool.eq_false_iff.mpr fun hstarts => Bool.eq_false_iff.mp h (Token.starts_of_startsExpr hstarts)
  have hlet : ∀ us, t :: ts ≠ .keyword .let :: us := by
    rintro us ⟨⟩
    cases h
  have hreturn : ∀ us, t :: ts ≠ .keyword .return :: us := by
    rintro us ⟨⟩
    cases h
  rw [read_expr _ hlet hreturn]
  exact dropSemicolon_of_none (map_of_eq (Expr.read_of_not_starts ts hexpr 0) Statement.expr)

end Statement

/-- A program goes on where its first statement ends, also when that one went wrong. -/
theorem Program.read_of_statement {t : Token} {ts rest : List Token} {s? : Option Statement}
    {errors : List SyntaxError}
    (h : (Statement.read (t :: ts)).toReading = ⟨s?, errors, rest⟩) :
    Program.read (t :: ts) = ⟨(Program.read rest).node?.map (s?.toList ++ ·),
      errors ++ (Program.read rest).errors, (Program.read rest).rest⟩ := by
  rw [Program.read, h]

theorem Program.read_nil : Program.read [] = .ok [] [] := by
  rw [Program.read]
  rfl

end Monkey
