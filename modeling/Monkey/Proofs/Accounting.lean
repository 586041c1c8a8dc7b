import Monkey.Proofs.Calls
import Monkey.Proofs.Grammar.Parse
import Monkey.Proofs.Lexing.Pieces
import Monkey.Proofs.Recovery

/-!
Nothing that a parser tries gets lost. Every call of a reader uses up a token or fails at
once, so that reading ends; and every statement that is tried either is in the tree, or
was dropped with an error of its own, or stands inside one that was dropped.
-/

namespace Monkey

open ReadingWithin

namespace Call

/-- How many errors were met. -/
def errorCount (c : Call) : Nat := c.reading.errors.length

theorem length_errors_calls (calls : List Call) :
    (calls.flatMap fun d => d.reading.errors).length = total errorCount calls := by
  induction calls with
  | nil => rfl
  | cons d calls ih => rw [List.flatMap_cons, List.length_append, ih, total, errorCount]

/-- The call itself, if it tries a statement. -/
def self (c : Call) : List Call := if c.isStatement then [c] else []

/-- The statements that are tried inside a call, each after those inside it. -/
def inner (c : Call) : List Call :=
  c.subcalls.attach.flatMap fun d => d.1.inner ++ d.1.self
termination_by c.measure
decreasing_by exact c.composes.measure_lt d.1 d.2

/-- The statements that a call tries, itself included. -/
def tried (c : Call) : List Call := c.inner ++ c.self

theorem inner_eq (c : Call) : c.inner = c.subcalls.flatMap tried := by
  rw [inner]
  exact List.flatMap_subtype (fun d _ => rfl) |>.trans (by rw [List.unattach_attach])

theorem length_tried (c : Call) : c.tried.length = c.inner.length + c.isStatement.toNat := by
  rw [tried, self, List.length_append]
  cases c.isStatement <;> rfl

theorem countP_tried (c : Call) :
    c.tried.countP fails = c.inner.countP fails + (c.isStatement && c.fails).toNat := by
  rw [tried, self, List.countP_append]
  cases c.isStatement with
  | false => simp
  | true => cases hf : c.fails <;> simp [hf]

theorem size_of_fails {c : Call} (h : c.fails = true) : c.size = 0 := by
  rw [size, Option.isNone_iff_eq_none.mp h, Option.getD_none]

/-- What a call comes to, in terms of the statements that are tried inside it: an error
for each one that was dropped, and one more if the call itself fails; no statement in the
node but those that were given before, its own, and those that were kept; and no more of
them than tokens. -/
structure Accounted (c : Call) : Prop where
  errors_eq : c.errorCount = c.inner.countP fails + c.fails.toNat
  size_le : c.size + c.inner.countP fails ≤ c.given + c.isStatement.toNat + c.inner.length
  length_le : c.inner.length + c.reading.rest.length ≤ c.room

namespace Accounted

variable {d : Call} (h : d.Accounted)
include h

theorem errorCount_eq : d.errorCount = d.tried.countP fails + d.stops := by
  rw [h.errors_eq, countP_tried, stops]
  cases d.isStatement <;> simp

theorem size_add_le :
    d.size + d.tried.countP fails ≤ d.given + d.tried.length := by
  have hsize := h.size_le
  have hle : d.inner.countP fails ≤ d.inner.length := List.countP_le_length
  rw [length_tried, countP_tried]
  cases hf : d.fails with
  | true =>
    rw [size_of_fails hf, Bool.and_true]
    omega
  | false =>
    rw [Bool.and_false, Bool.toNat_false]
    omega

theorem length_le_used : d.tried.length ≤ d.used := by
  have hlength := h.length_le
  rw [length_tried, used]
  omega

end Accounted

section Calls

variable {calls : List Call} (h : ∀ d ∈ calls, d.Accounted)
include h

theorem errorCount_eq_of_accounted : total errorCount calls =
    (calls.flatMap tried).countP fails + total stops calls := by
  induction calls with
  | nil => rfl
  | cons d calls ih =>
    obtain ⟨hd, hcalls⟩ := List.forall_mem_cons.mp h
    rw [total, hd.errorCount_eq, ih hcalls, List.flatMap_cons, List.countP_append, total]
    omega

theorem size_add_le_of_accounted : total size calls +
    (calls.flatMap tried).countP fails ≤
      total given calls + (calls.flatMap tried).length := by
  induction calls with
  | nil => simp
  | cons d calls ih =>
    obtain ⟨hd, hcalls⟩ := List.forall_mem_cons.mp h
    have hle := hd.size_add_le
    have hrest := ih hcalls
    rw [total, total, List.flatMap_cons, List.countP_append, List.length_append]
    omega

theorem length_le_of_accounted :
    (calls.flatMap tried).length ≤ total used calls := by
  induction calls with
  | nil => simp
  | cons d calls ih =>
    obtain ⟨hd, hcalls⟩ := List.forall_mem_cons.mp h
    rw [List.flatMap_cons, List.length_append, total]
    exact Nat.add_le_add hd.length_le_used (ih hcalls)

end Calls

/-- Every call is accounted for, because the calls that it makes are. -/
theorem accounted (c : Call) : c.Accounted := by
  have hcalls : ∀ d ∈ c.subcalls, d.Accounted := fun d hd =>
    have := c.composes.measure_lt d hd
    d.accounted
  have herrors := errorCount_eq_of_accounted hcalls
  have hsize := size_add_le_of_accounted hcalls
  have hlength := length_le_of_accounted hcalls
  rw [← inner_eq] at herrors hsize hlength
  constructor
  · obtain ⟨own, hown, hownLength⟩ := c.composes.errors_eq
    have hcount : c.errorCount = total errorCount c.subcalls + own.length := by
      rw [errorCount, hown, List.length_append, length_errors_calls]
    rw [hcount, fails]
    omega
  · cases hnode : c.reading.node? with
    | none =>
      have hle : c.inner.countP fails ≤ c.inner.length := List.countP_le_length
      rw [size, hnode, Option.getD_none]
      omega
    | some a =>
      have hown := c.composes.size_eq a hnode
      rw [size, hnode, Option.getD_some]
      rw [id] at hown
      omega
  · have hown := c.composes.used_le
    omega
termination_by c.measure

end Call

section Advances

variable {α β : Type} {m n : Nat}

/-- A reading that leaves fewer than `n` tokens if it finds a node. -/
def Advances (n : Nat) (r : Reading α) : Prop :=
  r.node?.isSome → r.rest.length < n

theorem advances_of_lt (r : ReadingWithin m α) (h : m < n) : Advances n r.toReading :=
  fun _ => Nat.lt_of_le_of_lt r.rest_le h

theorem advances_fail (e : SyntaxError) (rest : List Token) :
    Advances n (fail e rest : ReadingWithin _ α).toReading := nofun

theorem Advances.map {r : ReadingWithin m α} (h : Advances n r.toReading) (f : α → β) :
    Advances n (r.map f).toReading := by
  intro hnode
  exact h (by simpa [ReadingWithin.map] using hnode)

/-- What comes next leaves no more tokens than there were. -/
theorem Advances.andThen {r : ReadingWithin m α} (h : Advances n r.toReading)
    (next : α → (rest : List Token) → rest.length ≤ m → ReadingWithin rest.length β) :
    Advances n (r.andThen next).toReading := by
  intro hnode
  cases hr : r.node? with
  | none =>
    have hnone : r.toReading = ⟨none, r.errors, r.rest⟩ := by rw [← hr]
    rw [andThen_of_none hnone] at hnode
    cases hnode
  | some a =>
    have hsome : r.toReading = ⟨some a, r.errors, r.rest⟩ := by rw [← hr]
    rw [andThen_of_node hsome next rfl]
    exact Nat.lt_of_le_of_lt (next a r.rest _).rest_le (h (by rw [hr]; rfl))

theorem Advances.dropSemicolon {r : ReadingWithin m α} (h : Advances n r.toReading) :
    Advances n r.dropSemicolon.toReading := by
  unfold ReadingWithin.dropSemicolon
  split
  · exact fun _ => Nat.lt_of_succ_lt (h rfl)
  · exact h

variable (ts : List Token)

theorem Kind.read_advances (kind : Kind) : Advances ts.length (kind.read ts).toReading := by
  cases ts with
  | nil => exact advances_fail _ _
  | cons t ts =>
    rw [Kind.read]
    split
    · exact fun _ => Nat.lt_succ_self _
    · exact advances_fail _ _

theorem readName_advances : Advances ts.length (readName ts).toReading := by
  unfold readName
  split
  · exact fun _ => Nat.lt_succ_self _
  · exact advances_fail _ _

theorem readMoreParams_advances : Advances ts.length (readMoreParams ts).toReading := by
  rw [readMoreParams.eq_def]
  split
  · rw [toReading_weaken]
    exact advances_of_lt _ (Nat.lt_add_of_pos_right Nat.two_pos)
  · exact advances_fail _ _
  · exact ((Kind.symbol .rparen).read_advances _).map _

theorem readParams_advances : Advances ts.length (readParams ts).toReading := by
  rw [readParams.eq_def]
  split
  · exact fun _ => Nat.lt_succ_self _
  · exact (readName_advances _).andThen _

theorem Expr.readOperand_advances : Advances ts.length (readOperand ts).toReading := by
  cases ts with
  | nil =>
    rw [readOperand_nil]
    exact advances_fail _ _
  | cons t ts => exact advances_of_lt _ (Nat.lt_succ_self _)

theorem Expr.read_advances (power : Nat) : Advances ts.length (Expr.read power ts).toReading := by
  rw [Expr.read]
  exact (readOperand_advances ts).andThen _

theorem Expr.readList_advances (close : Symbol) :
    Advances ts.length (readList (.symbol close) ts).toReading := by
  by_cases hclose : Kind.ofHead ts = .symbol close
  · rw [readList, if_pos hclose]
    cases ts with
    | nil => cases hclose
    | cons t ts => exact fun _ => Nat.lt_succ_self _
  · rw [readList_cons hclose]
    apply Advances.andThen
    exact Expr.read_advances ts 0

theorem Expr.readMoreList_advances (close : Symbol) :
    Advances ts.length (readMoreList (.symbol close) ts).toReading := by
  rw [readMoreList.eq_def]
  split
  · rename_i us
    rw [toReading_weaken]
    exact advances_of_lt _ (Nat.lt_succ_of_le (length_tail_le us))
  · exact ((Kind.symbol close).read_advances _).map _

theorem Expr.readPairs_advances : Advances ts.length (readPairs ts).toReading := by
  rw [readPairs.eq_def]
  split
  · exact fun _ => Nat.lt_succ_self _
  · apply Advances.andThen
    exact Expr.read_advances _ 0

theorem Block.read_advances : Advances ts.length (Block.read ts).toReading := by
  cases ts with
  | nil =>
    rw [Block.read]
    exact advances_fail _ _
  | cons t ts =>
    by_cases ht : t = .symbol .rbrace
    · subst ht
      rw [Block.read_rbrace]
      exact fun _ => Nat.lt_succ_self _
    · rw [Block.read_cons ht, toReading_weaken]
      exact advances_of_lt _ (Nat.lt_succ_self _)

theorem Statement.read_advances : Advances ts.length (Statement.read ts).toReading := by
  cases ts with
  | nil =>
    rw [read_expr [] nofun nofun]
    exact ((Expr.read_advances [] 0).map _).dropSemicolon
  | cons t ts => exact advances_of_lt _ (Nat.lt_succ_self _)

/-- A suffix that is taken in is at least one token. -/
theorem Expr.readSuffixes_rest_lt {power : Nat} (left : Expr) {ts : List Token}
    (h : power < nextPower ts) : (readSuffixes power left ts).rest.length < ts.length := by
  obtain ⟨s, us, rfl, hs⟩ := exists_suffix_of_lt_nextPower h
  cases s with
  | operator op =>
    change (readSuffixes power left (.symbol op.symbol :: us)).rest.length < us.length + 1
    rw [readSuffixes_operator left hs, toReading_weaken]
    exact Nat.lt_succ_of_le (ReadingWithin.rest_le _)
  | call =>
    change (readSuffixes power left (.symbol .lparen :: us)).rest.length < us.length + 1
    rw [readSuffixes_call left hs, toReading_weaken]
    exact Nat.lt_succ_of_le (ReadingWithin.rest_le _)
  | index =>
    change (readSuffixes power left (.symbol .lbracket :: us)).rest.length < us.length + 1
    rw [readSuffixes_index left hs, toReading_weaken]
    exact Nat.lt_succ_of_le (ReadingWithin.rest_le _)

end Advances

namespace Call

/-- A program, and the suffixes of an expression, may be at their end already. -/
def mayBeEmpty : Call → Bool
  | suffixes .. | program _ => true
  | _ => false

theorem advances {c : Call} (h : c.mayBeEmpty = false) :
    Advances c.tokens.length c.reading.toReading := by
  cases c with
  | token kind ts => exact (kind.read_advances ts).map _
  | name ts => exact (readName_advances ts).map _
  | params ts => exact (readParams_advances ts).map _
  | moreParams ts => exact (readMoreParams_advances ts).map _
  | expr power ts => exact (Expr.read_advances ts power).map _
  | operand ts => exact (Expr.readOperand_advances ts).map _
  | suffixes | program => cases h
  | list close ts => exact (Expr.readList_advances ts close).map _
  | moreList close ts => exact (Expr.readMoreList_advances ts close).map _
  | pairs ts => exact (Expr.readPairs_advances ts).map _
  | block ts => exact (Block.read_advances ts).map _
  | statement ts => exact (Statement.read_advances ts).map _

/-- What may be empty is so only if nothing is to be done. -/
theorem rest_lt_of_subcalls {c : Call} (h : c.mayBeEmpty = true) (hcalls : c.subcalls ≠ []) :
    c.reading.rest.length < c.tokens.length := by
  cases c with
  | suffixes power left ts =>
    rcases Nat.lt_or_ge power (nextPower ts) with hpower | hpower
    · exact Expr.readSuffixes_rest_lt left hpower
    · exact absurd (ofSuffixes_of_le left hpower) hcalls
  | program ts =>
    cases ts with
    | nil => exact absurd rfl hcalls
    | cons t ts =>
      change (Program.read (t :: ts)).rest.length < _
      rw [Program.read_rest]
      exact Nat.succ_pos _
  | _ => cases h

theorem room_le (c : Call) : c.room ≤ c.tokens.length := by
  cases c with
  | expr _ ts | operand ts | statement ts => exact length_tail_le ts
  | _ => exact Nat.le_refl _

/-- A call uses up a token, or fails at once with one error, or has nothing to do. -/
theorem progress (c : Call) : c.reading.rest.length < c.tokens.length ∨
    (c.fails = true ∧ c.inner = [] ∧ c.errorCount = 1) ∨
      (c.mayBeEmpty = true ∧ c.subcalls = [] ∧ c.errorCount = 0) := by
  rcases Nat.lt_or_ge c.reading.rest.length c.tokens.length with hlt | hge
  · exact .inl hlt
  · have hlength := c.accounted.length_le
    have hroom := c.room_le
    have hinner : c.inner = [] := List.eq_nil_of_length_eq_zero (by omega)
    have herrors := c.accounted.errors_eq
    rw [hinner, List.countP_nil, Nat.zero_add] at herrors
    cases hf : c.fails with
    | true => exact .inr (.inl ⟨rfl, hinner, by rw [herrors, hf]; rfl⟩)
    | false =>
      cases hempty : c.mayBeEmpty with
      | true =>
        refine .inr (.inr ⟨rfl, ?_, by rw [herrors, hf]; rfl⟩)
        by_contra hcalls
        exact absurd (rest_lt_of_subcalls hempty hcalls) (Nat.not_lt.mpr hge)
      | false =>
        have hsome : c.reading.node?.isSome := by
          rw [← Option.not_isNone]
          exact congrArg not hf
        exact absurd (advances hempty hsome) (Nat.not_lt.mpr hge)

theorem errors_eq_append (c : Call) : ∃ own,
    c.reading.errors = (c.subcalls.flatMap fun d => d.reading.errors) ++ own ∧
      own.length ≤ 1 := by
  obtain ⟨own, herrors, hlength⟩ := c.composes.errors_eq
  have hle := Bool.toNat_le c.reading.node?.isNone
  exact ⟨own, herrors, by omega⟩

/-- A call on fewer tokens, or on as many by a reader of lower rank. -/
theorem lt_of_measure_lt {c d : Call} (h : d.measure < c.measure) :
    d.tokens.length < c.tokens.length ∨
      d.tokens.length = c.tokens.length ∧ d.rank < c.rank := by
  have hrank : c.rank ≤ 3 := by cases c <;> simp
  unfold measure at h
  omega

end Call

/-- Once a parser has read a program, there is nothing left to read. -/
theorem Parser.program_again (p : Parser) : p.program.2.program = ([], p.program.2) := by
  unfold Parser.program
  simp [Program.read_rest, Program.read_nil, Reading.ok]

theorem Statement.statementCount_pos (s : Statement) : 0 < s.statementCount := by
  cases s <;> exact Nat.add_pos_left Nat.one_pos _

section Texts

variable (source : String)

theorem not_mem_tokens_eof : .eof ∉ tokens source.toList := by
  obtain ⟨pieces, hpieces⟩ := Cuts.exists_pieces source.toList
  rw [hpieces.tokens_eq]
  intro heof
  obtain ⟨p, hp, htoken⟩ := List.mem_map.mp heof
  exact hpieces.token_ne_eof p hp htoken

theorem Call.program_fails (ts : List Token) : (Call.program ts).fails = false := by
  obtain ⟨p, hp⟩ := Program.exists_node ts
  have hnode : (Call.program ts).reading.node? = some (Block.statementCount p) :=
    congrArg (Option.map Block.statementCount) hp
  rw [fails, hnode]
  rfl

/-- The errors of a text are as many as the statements that were dropped. -/
theorem length_errors : (parse source).2.length =
    (Call.program (tokens source.toList)).inner.countP Call.fails := by
  have herrors := (Call.program (tokens source.toList)).accounted.errors_eq
  rw [Call.program_fails] at herrors
  rw [errors_parse]
  exact herrors

theorem statementCount_parse : Block.statementCount (parse source).1 =
    (Call.program (tokens source.toList)).size := by
  obtain ⟨p, hp⟩ := Program.exists_node (tokens source.toList)
  have hnode : (Call.program (tokens source.toList)).reading.node? =
      some (Block.statementCount p) := congrArg (Option.map Block.statementCount) hp
  rw [parse_eq, hp, Call.size, hnode]
  rfl

theorem statementCount_add_length_errors_le :
    Block.statementCount (parse source).1 + (parse source).2.length ≤
      (tokens source.toList).length := by
  have haccounted := (Call.program (tokens source.toList)).accounted
  have hsize := haccounted.size_le
  have hlength := haccounted.length_le
  rw [length_errors, statementCount_parse]
  simp only [Call.given, Call.isStatement, Bool.toNat_false, Call.room, Call.tokens]
    at hsize hlength
  omega

/-- The first statement is in the tree or was dropped. -/
theorem statementCount_add_length_errors_pos (h : tokens source.toList ≠ []) :
    1 ≤ Block.statementCount (parse source).1 + (parse source).2.length := by
  obtain ⟨t, ts, hts⟩ := List.exists_cons_of_ne_nil h
  obtain ⟨more, hmore⟩ := Program.exists_node (Statement.read (t :: ts)).rest
  have hread : (Statement.read (t :: ts)).toReading = ⟨(Statement.read (t :: ts)).node?,
    (Statement.read (t :: ts)).errors, (Statement.read (t :: ts)).rest⟩ := rfl
  rw [parse_eq, hts, Program.read_of_statement hread, hmore]
  cases hs : (Statement.read (t :: ts)).node? with
  | some s =>
    have hpos := s.statementCount_pos
    simp only [Option.map_some, Option.getD_some, Option.toList_some, List.singleton_append,
      Block.statementCount]
    omega
  | none =>
    have herrors := (Call.statement (t :: ts)).accounted.errors_eq
    have hfails : (Call.statement (t :: ts)).fails = true := by
      simp [Call.fails, Call.reading, ReadingWithin.map, hs]
    have hcount : (Call.statement (t :: ts)).errorCount =
        (Statement.read (t :: ts)).errors.length := rfl
    rw [hfails, Bool.toNat_true, hcount] at herrors
    simp only [List.length_append]
    omega

theorem errors_eq_nil_iff : (parse source).2 = [] ↔
    ∀ d ∈ (Call.program (tokens source.toList)).inner, d.fails = false := by
  rw [← List.length_eq_zero_iff, length_errors, List.countP_eq_zero]
  simp

end Texts

/-- Every call of a reader makes others only on fewer tokens, or on as many by a reader of
lower rank; it uses up a token, fails at once, or has nothing to do. It has one error for
each statement that was dropped inside it, and one more if it fails itself. So statements and
errors together are at most as many as the tokens, and some if there are tokens; and nothing
is left to read after a program. -/
theorem parsing_accounts :
    (∀ c : Call,
      (∀ d ∈ c.subcalls, d.tokens.length < c.tokens.length ∨
        d.tokens.length = c.tokens.length ∧ d.rank < c.rank) ∧
      (c.reading.rest.length < c.tokens.length ∨
        (c.fails = true ∧ c.inner = [] ∧ c.errorCount = 1) ∨
        (c.mayBeEmpty = true ∧ c.subcalls = [] ∧ c.errorCount = 0)) ∧
      (∃ own, c.reading.errors = (c.subcalls.flatMap fun d => d.reading.errors) ++ own ∧
        own.length ≤ 1) ∧
      c.errorCount = c.inner.countP Call.fails + c.fails.toNat) ∧
    (∀ source : String, .eof ∉ tokens source.toList ∧
      Block.statementCount (parse source).1 + (parse source).2.length ≤
        (tokens source.toList).length ∧
      (tokens source.toList ≠ [] →
        1 ≤ Block.statementCount (parse source).1 + (parse source).2.length) ∧
      ((parse source).2 = [] ↔
        ∀ d ∈ (Call.program (tokens source.toList)).inner, d.fails = false)) ∧
    ∀ p : Parser, p.program.2.program = ([], p.program.2) := by
  refine ⟨fun c => ⟨?_, c.progress, c.errors_eq_append, c.accounted.errors_eq⟩,
    fun source => ⟨?_, ?_, ?_, ?_⟩, Parser.program_again⟩
  · intro d hd
    exact Call.lt_of_measure_lt (c.composes.measure_lt d hd)
  · exact not_mem_tokens_eof source
  · exact statementCount_add_length_errors_le source
  · exact statementCount_add_length_errors_pos source
  · exact errors_eq_nil_iff source

/-- A semicolon by itself is a statement that is dropped. -/
theorem parsing_accounts_semicolon :
    tokens ";".toList ≠ [] ∧ (parse ";").2 ≠ [] ∧
      1 ≤ Block.statementCount (parse ";").1 + (parse ";").2.length ∧
      ∃ d ∈ (Call.program (tokens ";".toList)).inner, d.fails = true := by
  have htokens : tokens ";".toList = [.symbol .semicolon] := by
    have htext : ";".toList = Symbol.semicolon.text.toList ++ [] := by decide
    rw [htext, tokens_symbol _ (by simp), tokens_nil]
  have hnonempty : tokens ";".toList ≠ [] := by
    rw [htokens]
    exact List.cons_ne_nil _ _
  obtain ⟨-, -, hpos, hiff⟩ := parsing_accounts.2.1 ";"
  have herrors : (parse ";").2 ≠ [] := by
    rw [parse_eq, htokens, Program.read_of_statement (Statement.read_of_not_starts [] rfl)]
    simp
  refine ⟨hnonempty, herrors, hpos hnonempty, ?_⟩
  rw [Ne, hiff] at herrors
  simpa using herrors

end Monkey
