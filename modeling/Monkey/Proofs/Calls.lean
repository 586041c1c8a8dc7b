import Monkey.Proofs.Readers

/-!
The calls that readers make. A reader settles the construct that it is called for from
a few tokens of its own and from the readings of the readers that it calls. `Call` is a
reader together with the tokens that it is called on, and `Call.subcalls` are the calls
that it makes in turn. What a reading comes to is then the sum of what these calls come
to, in every respect that is counted here: the errors, the statements in the node, and
the tokens that are used up.
-/

namespace Monkey

open ReadingWithin

mutual

/-- The number of statements in an expression, at every depth. -/
@[simp] def Expr.statementCount : Expr → Nat
  | .ident _ | .int _ | .str _ | .bool _ => 0
  | .unary _ a => a.statementCount
  | .binary _ a b => a.statementCount + b.statementCount
  | .cond c t none => c.statementCount + Block.statementCount t
  | .cond c t (some e) =>
    c.statementCount + Block.statementCount t + Block.statementCount e
  | .function _ body => Block.statementCount body
  | .call f as => f.statementCount + Expr.statementCountEach as
  | .vector as => Expr.statementCountEach as
  | .dict ps => Expr.statementCountPairs ps
  | .index a i => a.statementCount + i.statementCount

/-- The number of statements in a statement, which is one of them. -/
@[simp] def Statement.statementCount : Statement → Nat
  | .let _ e | .return e | .expr e => 1 + e.statementCount

@[simp] def Block.statementCount : List Statement → Nat
  | [] => 0
  | s :: ss => s.statementCount + Block.statementCount ss

@[simp] def Expr.statementCountEach : List Expr → Nat
  | [] => 0
  | e :: es => e.statementCount + Expr.statementCountEach es

@[simp] def Expr.statementCountPairs : List (Expr × Expr) → Nat
  | [] => 0
  | (k, v) :: ps => k.statementCount + v.statementCount + Expr.statementCountPairs ps

end

theorem Program.read_rest (ts : List Token) : (Program.read ts).rest = [] := by
  match ts with
  | [] => rw [Program.read]
  | t :: ts =>
    rw [Program.read]
    exact Program.read_rest _
termination_by ts.length
decreasing_by
  have := (Statement.read (t :: ts)).rest_le
  grind

theorem Program.read_rest_le (ts : List Token) :
    (Program.read ts).rest.length ≤ ts.length := by
  rw [Program.read_rest]
  exact Nat.zero_le _

/-- A reader and the tokens that it is called on. -/
inductive Call where
  | token (kind : Kind) (ts : List Token)
  | name (ts : List Token)
  | params (ts : List Token)
  | moreParams (ts : List Token)
  | expr (power : Nat) (ts : List Token)
  | operand (ts : List Token)
  | suffixes (power : Nat) (left : Expr) (ts : List Token)
  | list (close : Symbol) (ts : List Token)
  | moreList (close : Symbol) (ts : List Token)
  | pairs (ts : List Token)
  | block (ts : List Token)
  | statement (ts : List Token)
  | program (ts : List Token)

/-- The calls that follow a reading if it found a node. -/
def Reading.calls {α : Type} (r : Reading α) (next : α → List Token → List Call) : List Call :=
  match r.node? with
  | none => []
  | some a => next a r.rest

namespace Call

@[simp, grind =] def tokens : Call → List Token
  | token _ ts | name ts | params ts | moreParams ts | expr _ ts | operand ts
  | suffixes _ _ ts | list _ ts | moreList _ ts | pairs ts | block ts | statement ts
  | program ts => ts

/-- What tells calls on the same tokens apart: a reader calls one of lower rank there. -/
@[simp, grind =] def rank : Call → Nat
  | token .. | name _ | operand _ | suffixes .. => 0
  | moreParams _ | expr .. | moreList .. => 1
  | params _ | list .. | pairs _ | statement _ => 2
  | block _ | program _ => 3

/-- Tokens weigh as much as all ranks. -/
@[grind =] def measure (c : Call) : Nat := 4 * c.tokens.length + c.rank

/-- How many tokens a reader leaves at most. -/
def room : Call → Nat
  | expr _ ts | operand ts | statement ts => ts.tail.length
  | c => c.tokens.length

/-- What the reader comes to. Of a node only the number of its statements is kept. -/
def reading : (c : Call) → ReadingWithin c.room Nat
  | token kind ts => (kind.read ts).map fun _ => 0
  | name ts => (readName ts).map fun _ => 0
  | params ts => (readParams ts).map fun _ => 0
  | moreParams ts => (readMoreParams ts).map fun _ => 0
  | expr power ts => (Expr.read power ts).map Expr.statementCount
  | operand ts => (Expr.readOperand ts).map Expr.statementCount
  | suffixes power left ts => (Expr.readSuffixes power left ts).map Expr.statementCount
  | list close ts => (Expr.readList (.symbol close) ts).map Expr.statementCountEach
  | moreList close ts => (Expr.readMoreList (.symbol close) ts).map Expr.statementCountEach
  | pairs ts => (Expr.readPairs ts).map Expr.statementCountPairs
  | block ts => (Block.read ts).map Block.statementCount
  | statement ts => (Statement.read ts).map Statement.statementCount
  | program ts =>
    (⟨Program.read ts, Program.read_rest_le ts⟩ : ReadingWithin _ _).map Block.statementCount

/-! The calls that each reader makes, in order. -/

def ofParams : List Token → List Call
  | .symbol .rparen :: _ => []
  | ts => name ts :: (readName ts).calls fun _ ts => [moreParams ts]

def ofMoreParams : List Token → List Call
  | .symbol .comma :: .ident _ :: ts => [moreParams ts]
  | .symbol .comma :: _ => []
  | ts => [token (.symbol .rparen) ts]

def ofOperand : List Token → List Call
  | .symbol .bang :: ts | .symbol .minus :: ts => [expr UnaryOp.power ts]
  | .symbol .lparen :: ts =>
    expr 0 ts :: (Expr.read 0 ts).calls fun _ ts => [token (.symbol .rparen) ts]
  | .keyword .if :: ts =>
    token (.symbol .lparen) ts :: ((Kind.symbol .lparen).read ts).calls fun _ ts =>
      expr 0 ts :: (Expr.read 0 ts).calls fun _ ts =>
        token (.symbol .rparen) ts :: ((Kind.symbol .rparen).read ts).calls fun _ ts =>
          token (.symbol .lbrace) ts :: ((Kind.symbol .lbrace).read ts).calls fun _ ts =>
            block ts :: (Block.read ts).calls fun _ ts =>
              match ts with
              | .keyword .else :: ts =>
                token (.symbol .lbrace) ts :: ((Kind.symbol .lbrace).read ts).calls fun _ ts =>
                  [block ts]
              | _ => []
  | .keyword .fn :: ts =>
    token (.symbol .lparen) ts :: ((Kind.symbol .lparen).read ts).calls fun _ ts =>
      params ts :: (readParams ts).calls fun _ ts =>
        token (.symbol .lbrace) ts :: ((Kind.symbol .lbrace).read ts).calls fun _ ts =>
          [block ts]
  | .symbol .lbracket :: ts => [list .rbracket ts]
  | .symbol .lbrace :: ts => [pairs ts]
  | _ => []

def ofSuffix (power : Nat) (left : Expr) (s : Suffix) (ts : List Token) : List Call :=
  match s with
  | .operator op =>
    expr s.power ts :: (Expr.read s.power ts).calls fun right ts =>
      [suffixes power (.binary op left right) ts]
  | .call =>
    list .rparen ts :: (Expr.readList (.symbol .rparen) ts).calls fun args ts =>
      [suffixes power (.call left args) ts]
  | .index =>
    expr 0 ts :: (Expr.read 0 ts).calls fun key ts =>
      token (.symbol .rbracket) ts :: ((Kind.symbol .rbracket).read ts).calls fun _ ts =>
        [suffixes power (.index left key) ts]

def ofSuffixes (power : Nat) (left : Expr) : List Token → List Call
  | [] => []
  | t :: ts =>
    match Suffix.ofToken? t with
    | none => []
    | some s => if power < s.power then ofSuffix power left s ts else []

def ofList (close : Symbol) (ts : List Token) : List Call :=
  if Kind.ofHead ts = .symbol close then []
  else expr 0 ts :: (Expr.read 0 ts).calls fun _ ts => [moreList close ts]

def ofMoreList (close : Symbol) : List Token → List Call
  | .symbol .comma :: ts => expr 0 ts :: (Expr.read 0 ts).calls fun _ ts => [moreList close ts]
  | ts => [token (.symbol close) ts]

def ofPairs : List Token → List Call
  | .symbol .rbrace :: _ => []
  | ts =>
    expr 0 ts :: (Expr.read 0 ts).calls fun _ ts =>
      token (.symbol .colon) ts :: ((Kind.symbol .colon).read ts).calls fun _ ts =>
        expr 0 ts :: (Expr.read 0 ts).calls fun _ ts =>
          match ts with
          | .symbol .comma :: ts => [pairs ts]
          | _ => []

def ofBlock : List Token → List Call
  | [] | .symbol .rbrace :: _ => []
  | t :: ts => [statement (t :: ts), block (Statement.read (t :: ts)).rest]

def ofStatement : List Token → List Call
  | .keyword .let :: ts =>
    name ts :: (readName ts).calls fun _ ts =>
      token (.symbol .assign) ts :: ((Kind.symbol .assign).read ts).calls fun _ ts => [expr 0 ts]
  | .keyword .return :: ts => [expr 0 ts]
  | ts => [expr 0 ts]

def ofProgram : List Token → List Call
  | [] => []
  | t :: ts => [statement (t :: ts), program (Statement.read (t :: ts)).rest]

def subcalls : Call → List Call
  | token .. | name _ => []
  | params ts => ofParams ts
  | moreParams ts => ofMoreParams ts
  | expr power ts =>
    operand ts :: (Expr.readOperand ts).calls fun left ts => [suffixes power left ts]
  | operand ts => ofOperand ts
  | suffixes power left ts => ofSuffixes power left ts
  | list close ts => ofList close ts
  | moreList close ts => ofMoreList close ts
  | pairs ts => ofPairs ts
  | block ts => ofBlock ts
  | statement ts => ofStatement ts
  | program ts => ofProgram ts

/-- Whether there is no node. -/
def fails (c : Call) : Bool := c.reading.node?.isNone

def isStatement : Call → Bool
  | statement _ => true
  | _ => false

/-- The statements in the node; none, if there is no node. -/
def size (c : Call) : Nat := c.reading.node?.getD 0

/-- The statements in what a reader was given to go on from. -/
def given : Call → Nat
  | suffixes _ left _ => left.statementCount
  | _ => 0

/-- The tokens behind the first one that are used up, and that one too if it starts a
statement. -/
def used (c : Call) : Nat := c.room - c.reading.rest.length + c.isStatement.toNat

/-- The statement of a block may fail without the block; another call that fails makes
the caller fail. -/
def stops (c : Call) : Nat := (!c.isStatement && c.fails).toNat

/-- What some calls weigh together. -/
@[simp] def total (weight : Call → Nat) : List Call → Nat
  | [] => 0
  | d :: calls => weight d + total weight calls

@[simp] theorem total_append (weight : Call → Nat) (calls more : List Call) :
    total weight (calls ++ more) = total weight calls + total weight more := by
  induction calls with
  | nil => simp
  | cons d calls ih => simp [ih, Nat.add_assoc]

end Call

/-- A reading comes to what some calls come to, and nothing else. Its errors are theirs,
and one more if the reading fails and none of them makes it fail. Of the statements in
its node, `given` were there before. Of `n` tokens, the calls use up none of the rest.
All calls weigh less than `top`. -/
structure Composes {α : Type} (size : α → Nat) (given top n : Nat) (r : Reading α)
    (calls : List Call) : Prop where
  measure_lt : ∀ d ∈ calls, d.measure < top
  errors_eq : ∃ own, r.errors = (calls.flatMap fun d => d.reading.errors) ++ own ∧
    own.length + Call.total Call.stops calls = r.node?.isNone.toNat
  size_eq : ∀ a, r.node? = some a →
    size a + Call.total Call.given calls = given + Call.total Call.size calls
  used_le : Call.total Call.used calls + r.rest.length ≤ n

section Rules

variable {α β : Type} {size : α → Nat} {size' : β → Nat} {given top m n : Nat}
  {calls : List Call}

theorem composes_done {a : α} {rest : List Token} (ha : size a = given)
    (hrest : rest.length ≤ n) : Composes size given top n (done a rest).toReading [] where
  measure_lt := by simp
  errors_eq := ⟨[], by simp [done]⟩
  size_eq := by simp [done, ha]
  used_le := by simpa [done] using hrest

theorem composes_fail (e : SyntaxError) {rest : List Token} (hrest : rest.length ≤ n) :
    Composes size given top n (fail e rest : ReadingWithin _ α).toReading [] where
  measure_lt := by simp
  errors_eq := ⟨[e], by simp [ReadingWithin.fail]⟩
  size_eq := by simp [ReadingWithin.fail]
  used_le := by simpa [ReadingWithin.fail] using hrest

/-- A reading that is that of one call. -/
theorem composes_call (size : α → Nat) (d : Call) (hd : d.isStatement = false)
    {r : ReadingWithin m α} (hr : (r.map size).toReading = d.reading.toReading)
    (htop : d.measure < top) (hn : d.room ≤ n) :
    Composes size d.given top n r.toReading [d] := by
  have hnode : d.reading.node? = r.node?.map size := congrArg Reading.node? hr.symm
  have herrors : d.reading.errors = r.errors := congrArg Reading.errors hr.symm
  have hrest : d.reading.rest = r.rest := congrArg Reading.rest hr.symm
  constructor
  · simpa using htop
  · exact ⟨[], by simp [herrors], by simp [Call.stops, Call.fails, hd, hnode]⟩
  · intro a ha
    simp [Call.size, hnode, ha, Nat.add_comm]
  · have hle := d.reading.rest_le
    rw [hrest] at hle
    simp only [Call.total, Call.used, hd, hrest, Bool.toNat_false]
    omega

theorem Composes.map {r : ReadingWithin m α} {f : α → β} {given' : Nat}
    (h : Composes size given top n r.toReading calls)
    (hf : ∀ a, size' (f a) + given = given' + size a) :
    Composes size' given' top n (r.map f).toReading calls where
  measure_lt := h.measure_lt
  errors_eq := by simpa [ReadingWithin.map] using h.errors_eq
  size_eq := by
    intro b hb
    obtain ⟨a, ha, rfl⟩ := Option.map_eq_some_iff.mp hb
    have hsize := h.size_eq a ha
    have hadd := hf a
    omega
  used_le := h.used_le

theorem Composes.andThen {r : ReadingWithin m α}
    {next : α → (rest : List Token) → rest.length ≤ m → ReadingWithin rest.length β}
    {more : α → List Token → List Call} (h : Composes size 0 top n r.toReading calls)
    (hnext : ∀ a rest hle,
      Composes size' (given + size a) top rest.length (next a rest hle).toReading (more a rest)) :
    Composes size' given top n (r.andThen next).toReading (calls ++ r.toReading.calls more) := by
  cases hnode : r.node? with
  | none =>
    have hr : r.toReading = ⟨none, r.errors, r.rest⟩ := by rw [← hnode]
    have hcalls : r.toReading.calls more = [] := by simp [Reading.calls, hnode]
    rw [andThen_of_none hr, hcalls, List.append_nil]
    obtain ⟨own, herrors, hown⟩ := h.errors_eq
    rw [hnode] at hown
    exact ⟨h.measure_lt, ⟨own, herrors, hown⟩, nofun, h.used_le⟩
  | some a =>
    have hr : r.toReading = ⟨some a, r.errors, r.rest⟩ := by rw [← hnode]
    have hcalls : r.toReading.calls more = more a r.rest := by simp [Reading.calls, hnode]
    have hmore := hnext a r.rest r.rest_le
    obtain ⟨own, herrors, hown⟩ := h.errors_eq
    obtain ⟨moreOwn, hmoreErrors, hmoreOwn⟩ := hmore.errors_eq
    have hsize := h.size_eq a hnode
    have hused := h.used_le
    have hmoreUsed := hmore.used_le
    rw [andThen_of_node hr next rfl, hcalls]
    constructor
    · intro d hd
      exact (List.mem_append.mp hd).elim (h.measure_lt d) (hmore.measure_lt d)
    · simp only [hnode, Option.isNone_some, Bool.toNat_false] at hown
      have hnone : own = [] := List.eq_nil_of_length_eq_zero (by omega)
      refine ⟨moreOwn, by simp [herrors, hmoreErrors, hnone], ?_⟩
      simp only [Call.total_append]
      omega
    · intro b hb
      have hmoreSize := hmore.size_eq b hb
      simp only [Call.total_append]
      omega
    · simp only [Call.total_append]
      omega

/-- A call, and what comes next if it does not fail. -/
theorem composes_call_andThen (size : α → Nat) (d : Call) (hd : d.isStatement = false)
    {r : ReadingWithin m α}
    {next : α → (rest : List Token) → rest.length ≤ m → ReadingWithin rest.length β}
    {more : α → List Token → List Call}
    (hr : (r.map size).toReading = d.reading.toReading) (htop : d.measure < top)
    (hn : d.room ≤ n) (hgiven : d.given = 0)
    (hnext : ∀ a rest hle,
      Composes size' (given + size a) top rest.length (next a rest hle).toReading (more a rest)) :
    Composes size' given top n (r.andThen next).toReading (d :: r.toReading.calls more) := by
  have hcall := composes_call size d hd hr htop hn
  rw [hgiven] at hcall
  exact hcall.andThen hnext

theorem Composes.dropSemicolon {r : ReadingWithin m α}
    (h : Composes size given top n r.toReading calls) :
    Composes size given top n r.dropSemicolon.toReading calls := by
  unfold ReadingWithin.dropSemicolon
  split
  · have hused := h.used_le
    refine ⟨h.measure_lt, h.errors_eq, h.size_eq, ?_⟩
    simp only [List.length_cons] at hused ⊢
    omega
  · exact h

theorem Block.statementCount_append (ss more : List Statement) :
    Block.statementCount (ss ++ more) = Block.statementCount ss + Block.statementCount more := by
  induction ss with
  | nil => simp [Block.statementCount]
  | cons s ss ih => simp [Block.statementCount, ih, Nat.add_assoc]

/-- A statement, and what comes after it whether or not the statement failed. -/
theorem composes_statement {t : Token} {ts : List Token} {r : Reading (List Statement)}
    (htop : (Call.statement (t :: ts)).measure < top)
    (h : Composes Block.statementCount 0 top (Statement.read (t :: ts)).rest.length r calls) :
    Composes Block.statementCount 0 top (ts.length + 1)
      ⟨r.node?.map ((Statement.read (t :: ts)).node?.toList ++ ·),
        (Statement.read (t :: ts)).errors ++ r.errors, r.rest⟩
      (.statement (t :: ts) :: calls) where
  measure_lt := by simpa using ⟨htop, h.measure_lt⟩
  errors_eq := by
    obtain ⟨own, herrors, hown⟩ := h.errors_eq
    refine ⟨own, by simp [herrors, Call.reading, ReadingWithin.map], ?_⟩
    simpa [Call.stops, Call.isStatement] using hown
  size_eq := by
    intro ss hss
    obtain ⟨more, hmore, rfl⟩ := Option.map_eq_some_iff.mp hss
    have hsize := h.size_eq more hmore
    have hstatement : (Call.statement (t :: ts)).size =
        Block.statementCount (Statement.read (t :: ts)).node?.toList := by
      simp only [Call.size, Call.reading, ReadingWithin.map]
      cases (Statement.read (t :: ts)).node? <;> simp [Block.statementCount]
    simp only [Call.total, Call.given, hstatement,
      Block.statementCount_append]
    omega
  used_le := by
    have hused := h.used_le
    have hle := (Statement.read (t :: ts)).rest_le
    simp only [List.tail_cons] at hle
    simp only [Call.total, Call.used, Call.isStatement, Call.reading, Call.room,
      ReadingWithin.map, List.tail_cons]
    simp
    omega

end Rules

section Readers

variable (ts : List Token)

theorem Kind.read_composes (kind : Kind) :
    Composes (fun _ => 0) 0 (Call.token kind ts).measure ts.length (kind.read ts).toReading
      [] := by
  cases ts with
  | nil => exact composes_fail _ (Nat.le_refl _)
  | cons t ts =>
    rw [Kind.read]
    split
    · exact composes_done rfl (Nat.le_succ _)
    · exact composes_fail _ (Nat.le_refl _)

theorem readName_composes :
    Composes (fun _ => 0) 0 (Call.name ts).measure ts.length (readName ts).toReading
      [] := by
  unfold readName
  split
  · exact composes_done rfl (Nat.le_succ _)
  · exact composes_fail _ (Nat.le_refl _)

theorem readMoreParams_composes :
    Composes (fun _ => 0) 0 (Call.moreParams ts).measure ts.length (readMoreParams ts).toReading
      (Call.ofMoreParams ts) := by
  by_cases hcomma : ∃ us, ts = .symbol .comma :: us
  · obtain ⟨us, rfl⟩ := hcomma
    by_cases hname : ∃ name vs, us = .ident name :: vs
    · obtain ⟨name, vs, rfl⟩ := hname
      rw [readMoreParams_name]
      exact Composes.map (composes_call (fun _ => 0) (.moreParams vs) rfl (by rfl) (by grind)
        (Nat.le_add_right _ 2)) fun _ => rfl
    · have hnone : ∀ name vs, us ≠ .ident name :: vs := fun name vs h => hname ⟨name, vs, h⟩
      rw [readMoreParams_comma hnone, Call.ofMoreParams]
      · exact composes_fail _ (Nat.le_succ _)
      · exact hnone
  · have hend : ∀ us, ts ≠ .symbol .comma :: us := fun us h => hcomma ⟨us, h⟩
    rw [readMoreParams_end hend, Call.ofMoreParams]
    · exact Composes.map (composes_call (fun _ => 0) (.token (.symbol .rparen) ts) rfl rfl
        (by grind) (Nat.le_refl _)) fun _ => rfl
    · exact fun name us => hend _
    · exact hend

theorem readParams_composes :
    Composes (fun _ => 0) 0 (Call.params ts).measure ts.length (readParams ts).toReading
      (Call.ofParams ts) := by
  by_cases hrparen : ∃ us, ts = .symbol .rparen :: us
  · obtain ⟨us, rfl⟩ := hrparen
    rw [readParams]
    exact composes_done rfl (Nat.le_succ _)
  · have hmore : ∀ us, ts ≠ .symbol .rparen :: us := fun us h => hrparen ⟨us, h⟩
    rw [readParams, Call.ofParams]
    · refine composes_call_andThen (fun _ => 0) (.name ts) rfl (by rfl) (by grind)
        (Nat.le_refl _) rfl ?_
      intro name us hle
      exact Composes.map (composes_call (fun _ => 0) (.moreParams us) rfl (by rfl) (by grind)
        (Nat.le_refl _)) fun _ => rfl
    · exact hmore
    · exact hmore

theorem Expr.read_composes (power : Nat) :
    Composes Expr.statementCount 0 (Call.expr power ts).measure ts.tail.length
      (Expr.read power ts).toReading (Call.expr power ts).subcalls := by
  rw [Expr.read, Call.subcalls]
  refine composes_call_andThen Expr.statementCount (.operand ts) rfl (by rfl) (by grind)
    (Nat.le_refl _) rfl ?_
  intro left us hle
  rw [Nat.zero_add]
  exact composes_call Expr.statementCount (.suffixes power left us) rfl (by rfl) (by grind)
    (Nat.le_refl _)

theorem Expr.readOperand_unary_composes (op : UnaryOp) :
    Composes Expr.statementCount 0 (Call.operand (.symbol op.symbol :: ts)).measure ts.length
      (Expr.readOperand (.symbol op.symbol :: ts)).toReading [.expr UnaryOp.power ts] := by
  rw [readOperand_unary]
  refine Composes.map (composes_call Expr.statementCount (.expr UnaryOp.power ts) rfl rfl
    (by grind) (length_tail_le ts)) fun a => ?_
  exact (Nat.zero_add _).symm

theorem Expr.readOperand_lparen_composes :
    Composes Expr.statementCount 0 (Call.operand (.symbol .lparen :: ts)).measure ts.length
      (Expr.readOperand (.symbol .lparen :: ts)).toReading
      (Call.ofOperand (.symbol .lparen :: ts)) := by
  rw [readOperand_lparen, toReading_weaken, Call.ofOperand]
  refine composes_call_andThen Expr.statementCount (.expr 0 ts) rfl (by rfl) (by grind)
    (length_tail_le ts) rfl ?_
  intro e us hle
  refine Composes.map (composes_call (fun _ => 0) (.token _ us) rfl (by rfl) (by grind)
    (Nat.le_refl _)) fun _ => ?_
  simp [Call.given]

theorem Expr.readOperand_if_composes :
    Composes Expr.statementCount 0 (Call.operand (.keyword .if :: ts)).measure ts.length
      (Expr.readOperand (.keyword .if :: ts)).toReading
      (Call.ofOperand (.keyword .if :: ts)) := by
  rw [readOperand_if, Call.ofOperand]
  refine composes_call_andThen (fun _ => 0) (.token _ ts) rfl (by rfl) (by grind)
    (Nat.le_refl _) rfl ?_
  intro _ us hle
  refine composes_call_andThen Expr.statementCount (.expr 0 us) rfl (by rfl) (by grind)
    (length_tail_le us) rfl ?_
  intro c us hle
  refine composes_call_andThen (fun _ => 0) (.token _ us) rfl (by rfl) (by grind)
    (Nat.le_refl _) rfl ?_
  intro _ us hle
  refine composes_call_andThen (fun _ => 0) (.token _ us) rfl (by rfl) (by grind)
    (Nat.le_refl _) rfl ?_
  intro _ us hle
  refine composes_call_andThen Block.statementCount (.block us) rfl (by rfl) (by grind)
    (Nat.le_refl _) rfl ?_
  intro t us hle
  by_cases helse : ∃ vs, us = .keyword .else :: vs
  · obtain ⟨vs, rfl⟩ := helse
    rw [toReading_weaken]
    refine composes_call_andThen (fun _ => 0) (.token _ vs) rfl (by rfl) (by grind)
      (Nat.le_succ _) rfl ?_
    intro _ us hle
    refine Composes.map (composes_call Block.statementCount (.block us) rfl (by rfl) (by grind)
      (Nat.le_refl _)) fun e => ?_
    simp [Expr.statementCount, Call.given]
  · split
    · exact absurd ⟨_, rfl⟩ helse
    · split
      · exact absurd ⟨_, rfl⟩ helse
      · exact composes_done (by simp [Expr.statementCount]) (Nat.le_refl _)

theorem Expr.readOperand_fn_composes :
    Composes Expr.statementCount 0 (Call.operand (.keyword .fn :: ts)).measure ts.length
      (Expr.readOperand (.keyword .fn :: ts)).toReading
      (Call.ofOperand (.keyword .fn :: ts)) := by
  rw [readOperand_fn, Call.ofOperand]
  refine composes_call_andThen (fun _ => 0) (.token _ ts) rfl (by rfl) (by grind)
    (Nat.le_refl _) rfl ?_
  intro _ us hle
  refine composes_call_andThen (fun _ => 0) (.params us) rfl (by rfl) (by grind)
    (Nat.le_refl _) rfl ?_
  intro params us hle
  refine composes_call_andThen (fun _ => 0) (.token _ us) rfl (by rfl) (by grind)
    (Nat.le_refl _) rfl ?_
  intro _ us hle
  refine Composes.map (composes_call Block.statementCount (.block us) rfl (by rfl) (by grind)
    (Nat.le_refl _)) fun body => ?_
  simp [Expr.statementCount, Call.given]

/-- An operand that makes no calls: it is settled by its one token. -/
theorem Expr.readOperand_token_composes {t : Token} {ts : List Token}
    (h : (∃ a, a.statementCount = 0 ∧ readOperand (t :: ts) = done a ts) ∨
      ∃ e, readOperand (t :: ts) = fail e ts)
    (hcalls : (Call.ofOperand (t :: ts)) = []) :
    Composes Expr.statementCount 0 (Call.operand (t :: ts)).measure ts.length
      (Expr.readOperand (t :: ts)).toReading (Call.ofOperand (t :: ts)) := by
  rw [hcalls]
  rcases h with ⟨a, ha, h⟩ | ⟨e, h⟩
  · rw [h]
    exact composes_done ha (Nat.le_refl _)
  · rw [h]
    exact composes_fail e (Nat.le_refl _)

theorem Expr.readOperand_composes :
    Composes Expr.statementCount 0 (Call.operand ts).measure ts.tail.length
      (Expr.readOperand ts).toReading (Call.ofOperand ts) := by
  cases ts with
  | nil =>
    rw [readOperand_nil]
    exact composes_fail _ (Nat.le_refl _)
  | cons t ts =>
    cases t with
    | ident name =>
      exact readOperand_token_composes (.inl ⟨.ident name, rfl, readOperand_ident ts name⟩) rfl
    | str text =>
      exact readOperand_token_composes (.inl ⟨.str text, rfl, readOperand_str ts text⟩) rfl
    | int digits =>
      cases hn : Integer.ofDigits? digits with
      | some n => exact readOperand_token_composes (.inl ⟨.int n, rfl, readOperand_int ts hn⟩) rfl
      | none => exact readOperand_token_composes (.inr ⟨_, readOperand_tooLarge ts hn⟩) rfl
    | illegal | eof =>
      exact readOperand_token_composes (.inr ⟨_, readOperand_of_not_starts ts rfl⟩) rfl
    | keyword k =>
      cases k with
      | «if» => exact readOperand_if_composes ts
      | fn => exact readOperand_fn_composes ts
      | true => exact readOperand_token_composes (.inl ⟨.bool true, rfl, readOperand_true ts⟩) rfl
      | false =>
        exact readOperand_token_composes (.inl ⟨.bool false, rfl, readOperand_false ts⟩) rfl
      | _ => exact readOperand_token_composes (.inr ⟨_, readOperand_of_not_starts ts rfl⟩) rfl
    | symbol s =>
      cases s with
      | bang => exact readOperand_unary_composes ts .bang
      | minus => exact readOperand_unary_composes ts .minus
      | lparen => exact readOperand_lparen_composes ts
      | lbracket =>
        rw [readOperand_lbracket]
        exact Composes.map (composes_call Expr.statementCountEach (.list .rbracket ts)
          rfl (by rfl) (by grind) (Nat.le_refl _)) fun es => (Nat.zero_add _).symm
      | lbrace =>
        rw [readOperand_lbrace]
        exact Composes.map (composes_call Expr.statementCountPairs (.pairs ts) rfl (by rfl)
          (by grind) (Nat.le_refl _)) fun ps => (Nat.zero_add _).symm
      | _ => exact readOperand_token_composes (.inr ⟨_, readOperand_of_not_starts ts rfl⟩) rfl

theorem Call.ofSuffixes_of_le {ts : List Token} {power : Nat} (left : Expr)
    (h : nextPower ts ≤ power) : Call.ofSuffixes power left ts = [] := by
  cases ts with
  | nil => rw [Call.ofSuffixes]
  | cons t us =>
    rw [nextPower, Token.power] at h
    rw [Call.ofSuffixes]
    split
    · rfl
    · rename_i s hs
      rw [hs] at h
      rw [if_neg (Nat.not_lt.mpr h)]

theorem Expr.readSuffixes_composes (power : Nat) (left : Expr) :
    Composes Expr.statementCount left.statementCount (Call.suffixes power left ts).measure
      ts.length (readSuffixes power left ts).toReading (Call.ofSuffixes power left ts) := by
  rcases Nat.lt_or_ge power (nextPower ts) with hpower | hpower
  · obtain ⟨s, us, rfl, hs⟩ := exists_suffix_of_lt_nextPower hpower
    rw [Call.ofSuffixes, Suffix.ofToken?_token]
    simp only [if_pos hs]
    cases s with
    | operator op =>
      change Composes _ _ _ _ (readSuffixes power left (.symbol op.symbol :: us)).toReading _
      rw [readSuffixes_operator left hs, toReading_weaken]
      refine composes_call_andThen Expr.statementCount (.expr _ us) rfl (by rfl) (by grind)
        (Nat.le_succ_of_le (length_tail_le us)) rfl ?_
      intro right vs hle
      have hgiven : (Expr.binary op left right).statementCount =
          left.statementCount + right.statementCount := by simp [Expr.statementCount]
      rw [← hgiven]
      exact composes_call Expr.statementCount (.suffixes power (.binary op left right) vs) rfl
        (by rfl) (by grind) (Nat.le_refl _)
    | call =>
      change Composes _ _ _ _ (readSuffixes power left (.symbol .lparen :: us)).toReading _
      rw [readSuffixes_call left hs, toReading_weaken]
      refine composes_call_andThen Expr.statementCountEach (.list _ us) rfl (by rfl) (by grind)
        (Nat.le_succ _) rfl ?_
      intro args vs hle
      have hgiven : (Expr.call left args).statementCount =
          left.statementCount + Expr.statementCountEach args := by simp [Expr.statementCount]
      rw [← hgiven]
      exact composes_call Expr.statementCount (.suffixes power (.call left args) vs) rfl
        (by rfl) (by grind) (Nat.le_refl _)
    | index =>
      change Composes _ _ _ _ (readSuffixes power left (.symbol .lbracket :: us)).toReading _
      rw [readSuffixes_index left hs, toReading_weaken]
      refine composes_call_andThen Expr.statementCount (.expr 0 us) rfl (by rfl) (by grind)
        (Nat.le_succ_of_le (length_tail_le us)) rfl ?_
      intro key vs hle
      refine composes_call_andThen (fun _ => 0) (.token _ vs) rfl (by rfl) (by grind)
        (Nat.le_refl _) rfl ?_
      intro _ ws hle
      have hgiven : (Expr.index left key).statementCount =
          left.statementCount + key.statementCount := by simp [Expr.statementCount]
      rw [Nat.add_zero, ← hgiven]
      exact composes_call Expr.statementCount (.suffixes power (.index left key) ws) rfl
        (by rfl) (by grind) (Nat.le_refl _)
  · rw [readSuffixes_of_le left hpower, Call.ofSuffixes_of_le left hpower]
    exact composes_done rfl (Nat.le_refl _)

theorem Expr.readList_composes (close : Symbol) :
    Composes Expr.statementCountEach 0 (Call.list close ts).measure ts.length
      (readList (.symbol close) ts).toReading (Call.ofList close ts) := by
  rw [Call.ofList]
  by_cases hclose : Kind.ofHead ts = .symbol close
  · rw [readList, if_pos hclose, if_pos hclose]
    exact composes_done rfl (length_tail_le ts)
  · rw [readList_cons hclose, if_neg hclose]
    refine composes_call_andThen Expr.statementCount (.expr 0 ts) rfl (by rfl) (by grind)
      (length_tail_le ts) rfl ?_
    intro e us hle
    refine Composes.map (composes_call Expr.statementCountEach (.moreList close us) rfl (by rfl)
      (by grind) (Nat.le_refl _)) fun es => ?_
    simp [Expr.statementCountEach, Call.given]

theorem Expr.readMoreList_composes (close : Symbol) :
    Composes Expr.statementCountEach 0 (Call.moreList close ts).measure ts.length
      (readMoreList (.symbol close) ts).toReading (Call.ofMoreList close ts) := by
  by_cases hcomma : ∃ us, ts = .symbol .comma :: us
  · obtain ⟨us, rfl⟩ := hcomma
    rw [readMoreList_comma, toReading_weaken, Call.ofMoreList]
    refine composes_call_andThen Expr.statementCount (.expr 0 us) rfl (by rfl) (by grind)
      (Nat.le_succ_of_le (length_tail_le us)) rfl ?_
    intro e vs hle
    refine Composes.map (composes_call Expr.statementCountEach (.moreList close vs) rfl (by rfl)
      (by grind) (Nat.le_refl _)) fun es => ?_
    simp [Expr.statementCountEach, Call.given]
  · have hend : ∀ us, ts ≠ .symbol .comma :: us := fun us h => hcomma ⟨us, h⟩
    have hhead : ts.head? ≠ some (.symbol .comma) := by
      intro h
      obtain ⟨us, rfl⟩ := List.head?_eq_some_iff.mp h
      exact hend us rfl
    rw [readMoreList_end hhead, Call.ofMoreList]
    · exact Composes.map (composes_call (fun _ => 0) (.token _ ts) rfl (by rfl) (by grind)
        (Nat.le_refl _)) fun _ => rfl
    · exact hend

theorem Expr.readPairs_composes :
    Composes Expr.statementCountPairs 0 (Call.pairs ts).measure ts.length
      (readPairs ts).toReading (Call.ofPairs ts) := by
  by_cases hrbrace : ∃ us, ts = .symbol .rbrace :: us
  · obtain ⟨us, rfl⟩ := hrbrace
    rw [readPairs_rbrace, Call.ofPairs]
    exact composes_done (a := []) rfl (Nat.le_succ _)
  · have hmore : ∀ us, ts ≠ .symbol .rbrace :: us := fun us h => hrbrace ⟨us, h⟩
    have hhead : ts.head? ≠ some (.symbol .rbrace) := by
      intro h
      obtain ⟨us, rfl⟩ := List.head?_eq_some_iff.mp h
      exact hmore us rfl
    rw [readPairs_cons hhead, Call.ofPairs]
    · refine composes_call_andThen Expr.statementCount (.expr 0 ts) rfl (by rfl) (by grind)
        (length_tail_le ts) rfl ?_
      intro key us hle
      refine composes_call_andThen (fun _ => 0) (.token _ us) rfl (by rfl) (by grind)
        (Nat.le_refl _) rfl ?_
      intro _ us hle
      refine composes_call_andThen Expr.statementCount (.expr 0 us) rfl (by rfl) (by grind)
        (length_tail_le us) rfl ?_
      intro value us hle
      by_cases hcomma : ∃ vs, us = .symbol .comma :: vs
      · obtain ⟨vs, rfl⟩ := hcomma
        rw [toReading_weaken]
        refine Composes.map (composes_call Expr.statementCountPairs (.pairs vs) rfl (by rfl)
          (by grind) (Nat.le_succ _)) fun ps => ?_
        simp [Expr.statementCountPairs, Call.given]
      · have hcalls : (match us with | .symbol .comma :: vs => [Call.pairs vs] | _ => []) = [] := by
          split
          · exact absurd ⟨_, rfl⟩ hcomma
          · rfl
        rw [hcalls]
        split
        · exact composes_done (by simp [Expr.statementCountPairs]) (Nat.le_succ _)
        · exact absurd ⟨_, rfl⟩ hcomma
        · exact composes_fail _ (Nat.le_refl _)
    · exact hmore

theorem Block.read_composes :
    Composes Block.statementCount 0 (Call.block ts).measure ts.length
      (Block.read ts).toReading (Call.ofBlock ts) := by
  cases ts with
  | nil =>
    rw [Block.read]
    exact composes_fail _ (Nat.le_refl _)
  | cons t ts =>
    by_cases ht : t = .symbol .rbrace
    · subst ht
      rw [Block.read_rbrace]
      exact composes_done (a := []) rfl (Nat.le_succ _)
    · rw [Block.read_cons ht, toReading_weaken, Call.ofBlock]
      · have hle := (Statement.read (t :: ts)).rest_le
        refine composes_statement (by grind) ?_
        exact composes_call Block.statementCount (.block (Statement.read (t :: ts)).rest) rfl
          (by rfl) (by grind) (Nat.le_refl _)
      · exact ht

theorem Program.read_composes :
    Composes Block.statementCount 0 (Call.program ts).measure ts.length (Program.read ts)
      (Call.ofProgram ts) := by
  cases ts with
  | nil =>
    rw [Program.read_nil, Call.ofProgram]
    exact composes_done (a := []) rfl (Nat.le_refl _)
  | cons t ts =>
    have hle := (Statement.read (t :: ts)).rest_le
    rw [Program.read_of_statement rfl, Call.ofProgram]
    refine composes_statement (by grind) ?_
    exact composes_call Block.statementCount (.program (Statement.read (t :: ts)).rest) rfl
      (r := ⟨Program.read (Statement.read (t :: ts)).rest, Program.read_rest_le _⟩) (by rfl)
      (by grind) (Nat.le_refl _)

theorem Statement.read_composes :
    Composes Statement.statementCount 1 (Call.statement ts).measure ts.tail.length
      (Statement.read ts).toReading (Call.ofStatement ts) := by
  by_cases hlet : ∃ us, ts = .keyword .let :: us
  · obtain ⟨us, rfl⟩ := hlet
    rw [read_let, Call.ofStatement]
    apply Composes.dropSemicolon
    refine composes_call_andThen (fun _ => 0) (.name us) rfl (by rfl) (by grind)
      (Nat.le_refl _) rfl ?_
    intro name vs hle
    refine composes_call_andThen (fun _ => 0) (.token _ vs) rfl (by rfl) (by grind)
      (Nat.le_refl _) rfl ?_
    intro _ ws hle
    rw [toReading_weaken]
    refine Composes.map (composes_call Expr.statementCount (.expr 0 ws) rfl (by rfl) (by grind)
      (length_tail_le ws)) fun e => ?_
    simp [Statement.statementCount, Call.given]
  · by_cases hreturn : ∃ us, ts = .keyword .return :: us
    · obtain ⟨us, rfl⟩ := hreturn
      rw [read_return, Call.ofStatement]
      apply Composes.dropSemicolon
      rw [toReading_weaken]
      refine Composes.map (composes_call Expr.statementCount (.expr 0 us) rfl (by rfl) (by grind)
        (length_tail_le us)) fun e => ?_
      simp [Statement.statementCount, Call.given]
    · have hlet : ∀ us, ts ≠ .keyword .let :: us := fun us h => hlet ⟨us, h⟩
      have hreturn : ∀ us, ts ≠ .keyword .return :: us := fun us h => hreturn ⟨us, h⟩
      rw [read_expr ts hlet hreturn, Call.ofStatement]
      · apply Composes.dropSemicolon
        refine Composes.map (composes_call Expr.statementCount (.expr 0 ts) rfl (by rfl)
          (by grind) (Nat.le_refl _)) fun e => ?_
        simp [Statement.statementCount, Call.given]
      · exact hlet
      · exact hreturn

end Readers

/-- Of the statements in what a call comes to, one is its own if it is a statement. -/
theorem Call.composes (c : Call) :
    Composes id (c.given + c.isStatement.toNat) c.measure c.room c.reading.toReading
      c.subcalls := by
  cases c with
  | token kind ts => exact (kind.read_composes ts).map fun _ => rfl
  | name ts => exact (readName_composes ts).map fun _ => rfl
  | params ts => exact (readParams_composes ts).map fun _ => rfl
  | moreParams ts => exact (readMoreParams_composes ts).map fun _ => rfl
  | expr power ts => exact (Expr.read_composes ts power).map fun e => Nat.add_comm _ _
  | operand ts => exact (Expr.readOperand_composes ts).map fun e => Nat.add_comm _ _
  | suffixes power left ts =>
    exact (Expr.readSuffixes_composes ts power left).map fun e => Nat.add_comm _ _
  | list close ts => exact (Expr.readList_composes ts close).map fun es => Nat.add_comm _ _
  | moreList close ts => exact (Expr.readMoreList_composes ts close).map fun es => Nat.add_comm _ _
  | pairs ts => exact (Expr.readPairs_composes ts).map fun ps => Nat.add_comm _ _
  | block ts => exact (Block.read_composes ts).map fun ss => Nat.add_comm _ _
  | statement ts => exact (Statement.read_composes ts).map fun s => Nat.add_comm _ _
  | program ts =>
    exact Composes.map (r := ⟨Program.read ts, Program.read_rest_le ts⟩)
      (Program.read_composes ts) fun ss => Nat.add_comm _ _

end Monkey
