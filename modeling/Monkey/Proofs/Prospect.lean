import Mathlib.Data.List.Basic
import Monkey.Proofs.Grammar.Complete
import Monkey.Proofs.Grammar.Parse
import Monkey.Proofs.Lexing.Separated

/-!
What can be said of a reading before all of its tokens are there. Either it has
failed already, whatever comes; or it has found its node and stops before what
comes; or there are tokens that complete it. There is no fourth case, and so an
error is reported at the first token with which the text can be completed no more.

A reading that goes on with another one is completed by completing both, one after
the other. For this the second one must be able to start where the tokens end, with
tokens that do not run into what the first one has read.
-/

namespace Monkey

open ReadingWithin

/-- What comes belongs to nothing that could come before it: it carries on no
expression, no `if` and no statement. -/
structure Closes (rest : List Token) : Prop extends Ends 0 rest where
  not_semicolon : rest.head? ≠ some (.symbol .semicolon)

theorem closes_cons {t : Token} (hpower : t.power = 0) (helse : t ≠ .keyword .else)
    (hsemicolon : t ≠ .symbol .semicolon) (rest : List Token) : Closes (t :: rest) :=
  ⟨⟨Nat.le_of_eq hpower, fun h => helse (Option.some.inj h)⟩,
    fun h => hsemicolon (Option.some.inj h)⟩

theorem closes_nil : Closes [] := ⟨⟨Nat.le_refl 0, nofun⟩, nofun⟩

section Rules

variable {α β : Type}

/-- What can be said of a reading when only its first tokens are there. Its outcome
depends on the tokens that come after them. -/
inductive Prospect (outcome : List Token → Reading α) : Prop where
  | fails (e : SyntaxError) : (∀ us, (outcome us).errors.head? = some e) → Prospect outcome
  | settles (a : α) (rest : List Token) : (∀ us, outcome us = .ok a (rest ++ us)) →
      Prospect outcome
  | completes (a : α) (us : List Token) : (∀ t ∈ us, t.Writable) →
      (∀ more, Closes more → outcome (us ++ more) = .ok a more) → Prospect outcome

/-- The reading can begin where the tokens end, and be completed. -/
def CanStart (read : List Token → Reading α) : Prop :=
  ∃ a us, (∀ t ∈ us, t.Writable) ∧
    ∀ more, Closes more → Closes (us ++ more) ∧ read (us ++ more) = .ok a more

/-- All first tokens of the reading, up to a number of them, have a prospect. -/
structure Foresees (bound : Nat) (read : List Token → Reading α) : Prop where
  canStart : CanStart read
  prospect : ∀ ts : List Token, ts.length ≤ bound → Prospect fun us => read (ts ++ us)

theorem CanStart.prospect {read : List Token → Reading α} (h : CanStart read) :
    Prospect fun us => read ([] ++ us) := by
  obtain ⟨a, us, hus, hread⟩ := h
  exact .completes a us hus fun more hmore => (hread more hmore).2

/-- A reading starts and is completed with one token. -/
theorem canStart_of_token {read : List Token → Reading α} {a : α} (t : Token)
    (hwritable : t.Writable) (hpower : t.power = 0) (helse : t ≠ .keyword .else)
    (hsemicolon : t ≠ .symbol .semicolon) (h : ∀ more, read (t :: more) = .ok a more) :
    CanStart read := by
  refine ⟨a, [t], List.forall_mem_singleton.mpr hwritable, fun more _ => ⟨?_, h more⟩⟩
  exact closes_cons hpower helse hsemicolon more

theorem Prospect.congr {outcome outcome' : List Token → Reading α} (h : Prospect outcome')
    (heq : ∀ us, outcome us = outcome' us) : Prospect outcome := by
  rw [funext heq]
  exact h

variable {n : List Token → Nat} {r : (us : List Token) → ReadingWithin (n us) α}

theorem prospect_map {f : α → β} (h : Prospect fun us => (r us).toReading) :
    Prospect fun us => ((r us).map f).toReading := by
  cases h with
  | fails e h => exact .fails e h
  | settles a rest h => exact .settles (f a) rest fun us => map_of_ok (h us) f
  | completes a us hus h =>
    exact .completes (f a) us hus fun more hmore => map_of_ok (h more hmore) f

theorem canStart_map {f : α → β} (h : CanStart fun ts => (r ts).toReading) :
    CanStart fun ts => ((r ts).map f).toReading := by
  obtain ⟨a, us, hus, h⟩ := h
  refine ⟨f a, us, hus, fun more hmore => ?_⟩
  obtain ⟨hcloses, hread⟩ := h more hmore
  exact ⟨hcloses, map_of_ok hread f⟩

theorem Foresees.map {bound : Nat} {f : α → β} (h : Foresees bound fun ts => (r ts).toReading) :
    Foresees bound fun ts => ((r ts).map f).toReading :=
  ⟨canStart_map h.canStart, fun ts hle => prospect_map (h.prospect ts hle)⟩

theorem prospect_weaken {m : List Token → Nat} (hle : ∀ us, n us ≤ m us)
    (h : Prospect fun us => (r us).toReading) :
    Prospect fun us => ((r us).weaken (hle us)).toReading := h

theorem Foresees.weaken {bound : Nat} {m : List Token → Nat} {hle : ∀ us, n us ≤ m us}
    (h : Foresees bound fun ts => (r ts).toReading) :
    Foresees bound fun ts => ((r ts).weaken (hle ts)).toReading := h

variable {next : (us : List Token) → α → (rest : List Token) → rest.length ≤ n us →
    ReadingWithin rest.length β} {step : α → List Token → Reading β}

/-- What a reading has left when nothing comes is within its bound. -/
theorem length_le_of_settles {a : α} {rest : List Token}
    (h : ∀ us, (r us).toReading = .ok a (rest ++ us)) : rest.length ≤ n [] := by
  have hle := rest_le_of_eq (h [])
  rwa [List.append_nil] at hle

theorem prospect_andThen {bound : Nat}
    (hstep : ∀ us a rest hle, (next us a rest hle).toReading = step a rest)
    (hn : n [] ≤ bound) (h : Prospect fun us => (r us).toReading)
    (hnext : ∀ a, Foresees bound (step a)) :
    Prospect fun us => ((r us).andThen (next us)).toReading := by
  cases h with
  | fails e h =>
    refine .fails e fun us => ?_
    unfold ReadingWithin.andThen
    split
    · exact h us
    · exact List.mem_head?_append_of_mem_head? (h us)
  | settles a rest h =>
    apply ((hnext a).prospect rest (Nat.le_trans (length_le_of_settles h) hn)).congr
    intro us
    rw [andThen_of_ok (h us), hstep]
  | completes a us hus h =>
    obtain ⟨b, vs, hvs, hb⟩ := (hnext a).canStart
    refine .completes b (us ++ vs) (List.forall_mem_append.mpr ⟨hus, hvs⟩) fun more hmore => ?_
    obtain ⟨hcloses, hread⟩ := hb more hmore
    rw [List.append_assoc, andThen_of_ok (h _ hcloses), hstep, hread]

theorem canStart_andThen
    (hstep : ∀ us a rest hle, (next us a rest hle).toReading = step a rest)
    (h : CanStart fun us => (r us).toReading) (hnext : ∀ a, CanStart (step a)) :
    CanStart fun us => ((r us).andThen (next us)).toReading := by
  obtain ⟨a, us, hus, h⟩ := h
  obtain ⟨b, vs, hvs, hb⟩ := hnext a
  refine ⟨b, us ++ vs, List.forall_mem_append.mpr ⟨hus, hvs⟩, fun more hmore => ?_⟩
  obtain ⟨hcloses, hread⟩ := hb more hmore
  obtain ⟨hcloses', hread'⟩ := h _ hcloses
  rw [List.append_assoc]
  exact ⟨hcloses', (andThen_of_ok hread' _).trans ((hstep _ _ _ _).trans hread)⟩

theorem Foresees.andThen {bound : Nat}
    (hstep : ∀ us a rest hle, (next us a rest hle).toReading = step a rest)
    (hn : ∀ ts, n ts ≤ ts.length) (h : Foresees bound fun ts => (r ts).toReading)
    (hnext : ∀ a, Foresees bound (step a)) :
    Foresees bound fun ts => ((r ts).andThen (next ts)).toReading := by
  refine ⟨canStart_andThen hstep h.canStart fun a => (hnext a).canStart, fun ts hle => ?_⟩
  have hbound : n (ts ++ []) ≤ bound := by
    have hts := hn (ts ++ [])
    rw [List.append_nil] at hts ⊢
    exact Nat.le_trans hts hle
  exact prospect_andThen (fun us => hstep (ts ++ us)) hbound (h.prospect ts hle) hnext

/-- Reading that goes on after failures as well has failed with the first one. -/
theorem prospect_regardless {bound : Nat}
    {next : (us : List Token) → Option α → (rest : List Token) → rest.length ≤ n us →
      ReadingWithin rest.length β}
    (hstep : ∀ us a rest hle, (next us (some a) rest hle).toReading = step a rest)
    (hn : n [] ≤ bound) (h : Prospect fun us => (r us).toReading)
    (hnext : ∀ a, Foresees bound (step a)) :
    Prospect fun us => ((r us).regardless (next us)).toReading := by
  cases h with
  | fails e h => exact .fails e fun us => List.mem_head?_append_of_mem_head? (h us)
  | settles a rest h =>
    apply ((hnext a).prospect rest (Nat.le_trans (length_le_of_settles h) hn)).congr
    intro us
    rw [regardless_of_ok (h us), hstep]
  | completes a us hus h =>
    obtain ⟨b, vs, hvs, hb⟩ := (hnext a).canStart
    refine .completes b (us ++ vs) (List.forall_mem_append.mpr ⟨hus, hvs⟩) fun more hmore => ?_
    obtain ⟨hcloses, hread⟩ := hb more hmore
    rw [List.append_assoc, regardless_of_ok (h _ hcloses), hstep, hread]

/-- Whether a semicolon follows is open only where the tokens end, and there none
need follow. -/
theorem prospect_dropSemicolon (h : Prospect fun us => (r us).toReading) :
    Prospect fun us => (r us).dropSemicolon.toReading := by
  cases h with
  | fails e h =>
    refine .fails e fun us => ?_
    unfold dropSemicolon
    split
    · rename_i heq
      have herrors := h us
      rw [heq] at herrors
      exact herrors
    · exact h us
  | settles a rest h =>
    cases rest with
    | nil =>
      refine .completes a [] (fun t ht => absurd ht List.not_mem_nil) fun more hmore => ?_
      exact dropSemicolon_of_unended (h more) hmore.not_semicolon
    | cons t rest =>
      by_cases ht : t = .symbol .semicolon
      · subst ht
        exact .settles a rest fun us => dropSemicolon_of_ended (h us)
      · refine .settles a (t :: rest) fun us => dropSemicolon_of_unended (h us) ?_
        exact fun hhead => ht (Option.some.inj hhead)
  | completes a us hus h =>
    refine .completes a us hus fun more hmore => ?_
    exact dropSemicolon_of_unended (h more hmore) hmore.not_semicolon

end Rules

section Parts

variable {bound : Nat}

theorem length_tail_append_nil_le (ts : List Token) : (ts ++ []).tail.length ≤ ts.length :=
  Nat.le_trans (length_tail_le _) (length_append_nil_le ts)

theorem prospect_symbol (s : Symbol) (ts : List Token) :
    Prospect fun us => ((Kind.symbol s).read (ts ++ us)).toReading := by
  cases ts with
  | nil =>
    refine .completes () [.symbol s] (List.forall_mem_singleton.mpr (Token.writable_symbol s)) ?_
    exact fun more _ => Kind.read_symbol s more
  | cons t ts =>
    by_cases hkind : t.kind = .symbol s
    · rw [Token.eq_symbol_of_kind hkind]
      exact .settles () ts fun us => Kind.read_symbol s (ts ++ us)
    · refine .fails (.unexpected (.symbol s) t.kind) fun us => ?_
      rw [List.cons_append, Kind.read, if_neg hkind]
      rfl

theorem canStart_symbol {s : Symbol} (hpower : (Token.symbol s).power = 0)
    (hs : s ≠ .semicolon) : CanStart fun ts => ((Kind.symbol s).read ts).toReading :=
  canStart_of_token (.symbol s) (Token.writable_symbol s) hpower (by simp) (by simpa using hs)
    (Kind.read_symbol s)

theorem foresees_symbol {s : Symbol} (hpower : (Token.symbol s).power = 0)
    (hs : s ≠ .semicolon) : Foresees bound fun ts => ((Kind.symbol s).read ts).toReading :=
  ⟨canStart_symbol hpower hs, fun ts _ => prospect_symbol s ts⟩

/-- A name for where one is missing. -/
theorem isName_x : IsName "x" := by decide

theorem prospect_name (ts : List Token) :
    Prospect fun us => (readName (ts ++ us)).toReading := by
  cases ts with
  | nil =>
    refine .completes "x" [.ident "x"] ?_ fun more _ => rfl
    exact List.forall_mem_singleton.mpr (Token.IsWord.writable isName_x)
  | cons t ts =>
    cases t with
    | ident name => exact .settles name ts fun us => rfl
    | _ => exact .fails (.unexpected .ident _) fun us => rfl

theorem canStart_moreParams : CanStart fun ts => (readMoreParams ts).toReading :=
  canStart_of_token (.symbol .rparen) (Token.writable_symbol _) (by decide) (by simp) (by simp)
    readMoreParams_of_rparen

theorem prospect_moreParams (ts : List Token) :
    Prospect fun us => (readMoreParams (ts ++ us)).toReading := by
  induction ts using readMoreParams.induct with
  | case1 name ts ih =>
    apply Prospect.congr _ fun us => congrArg toReading (readMoreParams_name name (ts ++ us))
    exact prospect_map ih
  | case2 ts hts =>
    cases ts with
    | nil =>
      refine .completes ["x"] [.ident "x", .symbol .rparen] ?_ fun more _ => ?_
      · rw [List.forall_mem_cons, List.forall_mem_singleton]
        exact ⟨Token.IsWord.writable isName_x, Token.writable_symbol _⟩
      · apply (congrArg toReading (readMoreParams_name "x" (.symbol .rparen :: more))).trans
        exact map_of_ok (readMoreParams_of_rparen more) _
    | cons t ts =>
      have ht : ∀ name us vs, t :: (ts ++ vs) ≠ .ident name :: us := by
        rintro name us vs ⟨⟩
        exact hts name ts rfl
      refine .fails (.unexpected .ident t.kind) fun us => ?_
      change (readMoreParams (.symbol .comma :: t :: (ts ++ us))).errors.head? = _
      rw [readMoreParams_comma fun name vs => ht name vs us]
      rfl
  | case3 ts _ hts =>
    cases ts with
    | nil => exact canStart_moreParams.prospect
    | cons t ts =>
      have ht : ∀ us vs, t :: (ts ++ vs) ≠ .symbol .comma :: us := by
        rintro us vs ⟨⟩
        exact hts ts rfl
      apply Prospect.congr _ fun us => congrArg toReading
        (readMoreParams_end fun vs => ht vs us)
      exact prospect_map (prospect_symbol .rparen (t :: ts))

theorem foresees_params : Foresees bound fun ts => (readParams ts).toReading := by
  have hstart : CanStart fun ts => (readParams ts).toReading :=
    canStart_of_token (.symbol .rparen) (Token.writable_symbol _) (by decide) (by simp) (by simp)
      fun more => (reads_noNames more rfl).1
  refine ⟨hstart, fun ts _ => ?_⟩
  cases ts with
  | nil => exact hstart.prospect
  | cons t ts =>
    by_cases ht : t = .symbol .rparen
    · subst ht
      exact .settles [] ts fun us => (reads_noNames (ts ++ us) rfl).1
    · apply Prospect.congr _ fun us => congrArg toReading (readParams_cons ht (ts ++ us))
      refine prospect_andThen (fun _ _ _ _ => rfl) (length_append_nil_le (t :: ts))
        (prospect_name (t :: ts)) fun name => ?_
      exact ⟨canStart_map canStart_moreParams, fun ts _ => prospect_map (prospect_moreParams ts)⟩

theorem canStart_expr (power : Nat) : CanStart fun ts => (Expr.read power ts).toReading := by
  refine ⟨.bool true, [.keyword .true],
    List.forall_mem_singleton.mpr (Token.IsWord.writable trivial), fun more hmore => ⟨?_, ?_⟩⟩
  · exact closes_cons (by decide) (by simp) (by simp) more
  · change (Expr.read power (.keyword .true :: more)).toReading = _
    have hoperand := congrArg toReading (Expr.readOperand_true more)
    have hpower := Nat.le_trans hmore.nextPower_le (Nat.zero_le power)
    rw [Expr.read, andThen_of_ok hoperand, Expr.readSuffixes_of_le _ hpower]
    rfl

theorem canStart_suffixes (power : Nat) (left : Expr) :
    CanStart fun ts => (Expr.readSuffixes power left ts).toReading := by
  refine ⟨left, [], fun t ht => absurd ht List.not_mem_nil, fun more hmore => ⟨hmore, ?_⟩⟩
  have hpower := Nat.le_trans hmore.nextPower_le (Nat.zero_le power)
  exact congrArg toReading (Expr.readSuffixes_of_le left hpower)

theorem canStart_moreExprs {close : Symbol} (hclose : close = .rparen ∨ close = .rbracket) :
    CanStart fun ts => (Expr.readMoreList (.symbol close) ts).toReading := by
  have hend : ∀ more, (Expr.readMoreList (.symbol close) (.symbol close :: more)).toReading =
      .ok [] more := by
    intro more
    have hcomma : (Token.symbol close :: more).head? ≠ some (.symbol .comma) := by
      rcases hclose with rfl | rfl <;> simp
    rw [Expr.readMoreList_end hcomma]
    exact map_of_ok (Kind.read_symbol close more) _
  refine canStart_of_token (.symbol close) (Token.writable_symbol close) ?_ (by simp) ?_ hend
  · rcases hclose with rfl | rfl <;> decide
  · rcases hclose with rfl | rfl <;> simp

theorem canStart_pairs : CanStart fun ts => (Expr.readPairs ts).toReading :=
  canStart_of_token (.symbol .rbrace) (Token.writable_symbol _) (by decide) (by simp) (by simp)
    Expr.readPairs_rbrace

theorem canStart_block : CanStart fun ts => (Block.read ts).toReading :=
  canStart_of_token (.symbol .rbrace) (Token.writable_symbol _) (by decide) (by simp) (by simp)
    Block.read_rbrace

/-- What is read behind the block of an `if`. -/
def Expr.readElse (c : Expr) (t : List Statement) : List Token → Reading Expr
  | .keyword .else :: ts =>
    (((Kind.symbol .lbrace).read ts).andThen fun _ ts _ =>
      (Block.read ts).map fun e => .cond c t (some e)).toReading
  | ts => .ok (.cond c t none) ts

theorem readElse_none (c : Expr) (t : List Statement) {ts : List Token}
    (h : ts.head? ≠ some (.keyword .else)) : Expr.readElse c t ts = .ok (.cond c t none) ts := by
  unfold Expr.readElse
  split
  · exact absurd rfl h
  · rfl

/-- Behind the block of an `if` there may be an `else`, and there need not be one. -/
theorem foresees_else (c : Expr) (t : List Statement)
    (hblock : Foresees bound fun ts => (Block.read ts).toReading) :
    Foresees bound (Expr.readElse c t) := by
  have hstart : CanStart (Expr.readElse c t) :=
    ⟨.cond c t none, [], fun t ht => absurd ht List.not_mem_nil,
      fun more hmore => ⟨hmore, readElse_none c t hmore.not_else⟩⟩
  refine ⟨hstart, fun ts hle => ?_⟩
  cases ts with
  | nil => exact hstart.prospect
  | cons u ts =>
    by_cases hu : u = .keyword .else
    · subst hu
      refine prospect_andThen (fun _ _ _ _ => rfl) (length_append_nil_le ts)
        (prospect_symbol .lbrace ts) fun _ => ?_
      refine Foresees.map ⟨hblock.canStart, fun rest hrest => hblock.prospect rest ?_⟩
      exact Nat.le_trans hrest (Nat.le_of_succ_le hle)
    · refine .settles (.cond c t none) (u :: ts) fun us => readElse_none c t ?_
      exact fun h => hu (Option.some.inj h)

/-- What is read behind a pair of a dict. -/
def Expr.readPairsEnd (key value : Expr) : List Token → Reading (List (Expr × Expr))
  | .symbol .rbrace :: ts => .ok [(key, value)] ts
  | .symbol .comma :: ts => ((Expr.readPairs ts).map ((key, value) :: ·)).toReading
  | ts => (fail (.unexpected (.symbol .comma) (Kind.ofHead ts)) ts).toReading

theorem readPairsEnd_fails (key value : Expr) {ts : List Token}
    (hbrace : ts.head? ≠ some (.symbol .rbrace)) (hcomma : ts.head? ≠ some (.symbol .comma)) :
    Expr.readPairsEnd key value ts =
      (fail (.unexpected (.symbol .comma) (Kind.ofHead ts)) ts).toReading := by
  unfold Expr.readPairsEnd
  split
  · exact absurd rfl hbrace
  · exact absurd rfl hcomma
  · rfl

theorem foresees_pairsEnd (key value : Expr)
    (hpairs : ∀ ts : List Token, ts.length < bound →
      Prospect fun us => (Expr.readPairs (ts ++ us)).toReading) :
    Foresees bound (Expr.readPairsEnd key value) := by
  have hstart : CanStart (Expr.readPairsEnd key value) :=
    canStart_of_token (.symbol .rbrace) (Token.writable_symbol _) (by decide) (by simp) (by simp)
      fun more => rfl
  refine ⟨hstart, fun ts hle => ?_⟩
  cases ts with
  | nil => exact hstart.prospect
  | cons t ts =>
    by_cases hbrace : t = .symbol .rbrace
    · subst hbrace
      exact .settles [(key, value)] ts fun us => rfl
    · by_cases hcomma : t = .symbol .comma
      · subst hcomma
        exact prospect_map (hpairs ts hle)
      · refine .fails (.unexpected (.symbol .comma) t.kind) fun us => ?_
        have hbrace' : (t :: (ts ++ us)).head? ≠ some (.symbol .rbrace) :=
          fun h => hbrace (Option.some.inj h)
        have hcomma' : (t :: (ts ++ us)).head? ≠ some (.symbol .comma) :=
          fun h => hcomma (Option.some.inj h)
        rw [List.cons_append, readPairsEnd_fails key value hbrace' hcomma']
        rfl

end Parts

mutual

theorem Expr.read_prospect (power : Nat) (ts : List Token) :
    Prospect fun us => (Expr.read power (ts ++ us)).toReading := by
  cases ts with
  | nil => exact (canStart_expr power).prospect
  | cons t ts =>
    apply Prospect.congr _ fun us => congrArg toReading (Expr.read.eq_def power (t :: (ts ++ us)))
    refine prospect_andThen (fun _ _ _ _ => rfl) (length_append_nil_le ts)
      (Expr.readOperand_prospect t ts) fun left => ?_
    exact ⟨canStart_suffixes power left,
      fun rest hrest => Expr.readSuffixes_prospect power left rest⟩
termination_by 4 * ts.length + 1
decreasing_by
  all_goals
    subst_vars
    simp only [List.length_cons] at *
    omega

theorem Expr.readOperand_prospect (t : Token) (ts : List Token) :
    Prospect fun us => (Expr.readOperand (t :: (ts ++ us))).toReading := by
  have hexpr : Foresees ts.length fun ts => (Expr.read 0 ts).toReading :=
    ⟨canStart_expr 0, fun rest hrest => Expr.read_prospect 0 rest⟩
  have hblock : Foresees ts.length fun ts => (Block.read ts).toReading :=
    ⟨canStart_block, fun rest hrest => Block.read_prospect rest⟩
  by_cases hstarts : t.startsExpr = true
  · cases t with
    | ident name =>
      exact .settles (.ident name) ts fun us =>
        congrArg toReading (Expr.readOperand_ident (ts ++ us) name)
    | int digits =>
      cases hdigits : Integer.ofDigits? digits with
      | none =>
        refine .fails (.integerTooLarge digits) fun us => ?_
        rw [Expr.readOperand_tooLarge (ts ++ us) hdigits]
        rfl
      | some n =>
        exact .settles (.int n) ts fun us =>
          congrArg toReading (Expr.readOperand_int (ts ++ us) hdigits)
    | str text =>
      exact .settles (.str text) ts fun us =>
        congrArg toReading (Expr.readOperand_str (ts ++ us) text)
    | keyword k =>
      cases k with
      | true =>
        exact .settles (.bool true) ts fun us =>
          congrArg toReading (Expr.readOperand_true (ts ++ us))
      | false =>
        exact .settles (.bool false) ts fun us =>
          congrArg toReading (Expr.readOperand_false (ts ++ us))
      | «if» =>
        apply Prospect.congr _ fun us => congrArg toReading (Expr.readOperand_if (ts ++ us))
        refine prospect_andThen (fun _ _ _ _ => rfl) (length_append_nil_le ts)
          (prospect_symbol .lparen ts) fun _ => ?_
        refine .andThen (fun _ _ _ _ => rfl) (fun ts => Nat.le_refl _) hexpr.weaken fun c => ?_
        refine .andThen (fun _ _ _ _ => rfl) (fun ts => Nat.le_refl _)
          (foresees_symbol (by decide) (by simp)) fun _ => ?_
        refine .andThen (fun _ _ _ _ => rfl) (fun ts => Nat.le_refl _)
          (foresees_symbol (by decide) (by simp)) fun _ => ?_
        refine .andThen (fun us t rest hle => ?_) (fun ts => Nat.le_refl _) hblock
          fun t => foresees_else c t hblock
        by_cases hhead : rest.head? = some (.keyword .else)
        · obtain ⟨rest, rfl⟩ := List.head?_eq_some_iff.mp hhead
          rfl
        · rw [readElse_none c t hhead]
          split
          · exact absurd rfl hhead
          · rfl
      | fn =>
        apply Prospect.congr _ fun us => congrArg toReading (Expr.readOperand_fn (ts ++ us))
        refine prospect_andThen (fun _ _ _ _ => rfl) (length_append_nil_le ts)
          (prospect_symbol .lparen ts) fun _ => ?_
        refine .andThen (fun _ _ _ _ => rfl) (fun ts => Nat.le_refl _) foresees_params
          fun params => ?_
        refine .andThen (fun _ _ _ _ => rfl) (fun ts => Nat.le_refl _)
          (foresees_symbol (by decide) (by simp)) fun _ => ?_
        exact hblock.map
      | «let» | «else» | «return» => cases hstarts
    | symbol s =>
      cases s with
      | bang =>
        apply Prospect.congr _ fun us =>
          congrArg toReading (Expr.readOperand_unary (ts ++ us) .bang)
        exact prospect_weaken _ (prospect_map (Expr.read_prospect UnaryOp.power ts))
      | minus =>
        apply Prospect.congr _ fun us =>
          congrArg toReading (Expr.readOperand_unary (ts ++ us) .minus)
        exact prospect_weaken _ (prospect_map (Expr.read_prospect UnaryOp.power ts))
      | lparen =>
        apply Prospect.congr _ fun us => congrArg toReading (Expr.readOperand_lparen (ts ++ us))
        refine prospect_weaken _ (prospect_andThen (fun _ _ _ _ => rfl)
          (length_tail_append_nil_le ts) (Expr.read_prospect 0 ts) fun e => ?_)
        exact (foresees_symbol (by decide) (by simp)).map
      | lbracket =>
        apply Prospect.congr _ fun us => congrArg toReading (Expr.readOperand_lbracket (ts ++ us))
        exact prospect_map (Expr.readList_prospect (.inr rfl) ts)
      | lbrace =>
        apply Prospect.congr _ fun us => congrArg toReading (Expr.readOperand_lbrace (ts ++ us))
        exact prospect_map (Expr.readPairs_prospect ts)
      | _ => cases hstarts
    | illegal | eof => cases hstarts
  · refine .fails (.noExpression t.kind) fun us => ?_
    rw [Expr.readOperand_of_not_starts (ts ++ us) (Bool.eq_false_iff.mpr hstarts)]
    rfl
termination_by 4 * (ts.length + 1) + 0
decreasing_by
  all_goals
    subst_vars
    omega

theorem Expr.readSuffixes_prospect (power : Nat) (left : Expr) (ts : List Token) :
    Prospect fun us => (Expr.readSuffixes power left (ts ++ us)).toReading := by
  cases ts with
  | nil => exact (canStart_suffixes power left).prospect
  | cons t ts =>
    by_cases hle : nextPower (t :: ts) ≤ power
    · refine .settles left (t :: ts) fun us => ?_
      have hends : nextPower (t :: (ts ++ us)) ≤ power := hle
      exact congrArg toReading (Expr.readSuffixes_of_le left hends)
    · obtain ⟨s, us, heq, hpower⟩ := exists_suffix_of_lt_nextPower (Nat.not_le.mp hle)
      cases heq
      have hsuffixes : ∀ left, Foresees ts.length fun ts =>
          (Expr.readSuffixes power left ts).toReading :=
        fun left => ⟨canStart_suffixes power left,
          fun rest hrest => Expr.readSuffixes_prospect power left rest⟩
      cases s with
      | operator op =>
        apply Prospect.congr _ fun us => congrArg toReading
          (Expr.readSuffixes_operator left hpower)
        refine prospect_weaken _ (prospect_andThen (fun _ _ _ _ => rfl) (length_append_nil_le ts)
          (prospect_weaken _ (Expr.read_prospect (Suffix.operator op).power ts)) fun right => ?_)
        exact hsuffixes _
      | call =>
        apply Prospect.congr _ fun us => congrArg toReading
          (Expr.readSuffixes_call left hpower)
        refine prospect_weaken _ (prospect_andThen (fun _ _ _ _ => rfl) (length_append_nil_le ts)
          (Expr.readList_prospect (.inl rfl) ts) fun args => ?_)
        exact hsuffixes _
      | index =>
        apply Prospect.congr _ fun us => congrArg toReading
          (Expr.readSuffixes_index left hpower)
        refine prospect_weaken _ (prospect_andThen (fun _ _ _ _ => rfl) (length_append_nil_le ts)
          (prospect_weaken _ (Expr.read_prospect 0 ts)) fun key => ?_)
        refine .andThen (fun _ _ _ _ => rfl) (fun ts => Nat.le_refl _)
          (foresees_symbol (by decide) (by simp)) fun _ => ?_
        exact hsuffixes _
termination_by 4 * ts.length + 0
decreasing_by
  all_goals
    subst_vars
    simp only [List.length_cons] at *
    omega

theorem Expr.readList_prospect {close : Symbol} (hclose : close = .rparen ∨ close = .rbracket)
    (ts : List Token) :
    Prospect fun us => (Expr.readList (.symbol close) (ts ++ us)).toReading := by
  cases ts with
  | nil =>
    refine .completes [] [.symbol close]
      (List.forall_mem_singleton.mpr (Token.writable_symbol close)) fun more _ => ?_
    exact Expr.readList_nil_of_head rfl
  | cons t ts =>
    by_cases hhead : t.kind = .symbol close
    · refine .settles [] ts fun us => ?_
      have hhead' : Kind.ofHead (t :: (ts ++ us)) = .symbol close := hhead
      exact Expr.readList_nil_of_head hhead'
    · have hhead' : ∀ us, Kind.ofHead (t :: (ts ++ us)) ≠ .symbol close := fun us => hhead
      apply Prospect.congr _ fun us => congrArg toReading (Expr.readList_cons (hhead' us))
      refine prospect_andThen (fun _ _ _ _ => rfl) (length_append_nil_le (t :: ts))
        (prospect_weaken _ (Expr.read_prospect 0 (t :: ts))) fun e => ?_
      exact ⟨canStart_map (canStart_moreExprs hclose),
        fun rest hrest => prospect_map (Expr.readMoreList_prospect hclose rest)⟩
termination_by 4 * ts.length + 2
decreasing_by
  all_goals
    subst_vars
    simp only [List.length_cons] at *
    omega

theorem Expr.readMoreList_prospect {close : Symbol}
    (hclose : close = .rparen ∨ close = .rbracket) (ts : List Token) :
    Prospect fun us => (Expr.readMoreList (.symbol close) (ts ++ us)).toReading := by
  cases ts with
  | nil => exact (canStart_moreExprs hclose).prospect
  | cons t ts =>
    by_cases hcomma : t = .symbol .comma
    · subst hcomma
      apply Prospect.congr _ fun us => congrArg toReading
        (Expr.readMoreList_comma (.symbol close) (ts ++ us))
      refine prospect_weaken _ (prospect_andThen (fun _ _ _ _ => rfl)
        (length_tail_append_nil_le ts) (Expr.read_prospect 0 ts) fun e => ?_)
      exact ⟨canStart_map (canStart_moreExprs hclose),
        fun rest hrest => prospect_map (Expr.readMoreList_prospect hclose rest)⟩
    · have hhead : ∀ us, (t :: (ts ++ us)).head? ≠ some (.symbol .comma) :=
        fun us h => hcomma (Option.some.inj h)
      apply Prospect.congr _ fun us => congrArg toReading (Expr.readMoreList_end (hhead us))
      exact prospect_map (prospect_symbol close (t :: ts))
termination_by 4 * ts.length + 0
decreasing_by
  all_goals
    subst_vars
    simp only [List.length_cons] at *
    omega

theorem Expr.readPairs_prospect (ts : List Token) :
    Prospect fun us => (Expr.readPairs (ts ++ us)).toReading := by
  cases ts with
  | nil => exact canStart_pairs.prospect
  | cons t ts =>
    by_cases hbrace : t = .symbol .rbrace
    · subst hbrace
      exact .settles [] ts fun us => Expr.readPairs_rbrace (ts ++ us)
    · have hhead : ∀ us, (t :: (ts ++ us)).head? ≠ some (.symbol .rbrace) :=
        fun us h => hbrace (Option.some.inj h)
      have hexpr : Foresees (ts.length + 1) fun ts => (Expr.read 0 ts).toReading :=
        ⟨canStart_expr 0, fun rest hrest => Expr.read_prospect 0 rest⟩
      apply Prospect.congr _ fun us => congrArg toReading (Expr.readPairs_cons (hhead us))
      refine prospect_andThen (fun _ _ _ _ => rfl) (length_append_nil_le (t :: ts))
        (prospect_weaken _ (Expr.read_prospect 0 (t :: ts))) fun key => ?_
      refine .andThen (fun _ _ _ _ => rfl) (fun ts => Nat.le_refl _)
        (foresees_symbol (by decide) (by simp)) fun _ => ?_
      refine .andThen (fun us value rest hle => ?_) (fun ts => Nat.le_refl _) hexpr.weaken
        fun value => foresees_pairsEnd key value fun rest hrest => Expr.readPairs_prospect rest
      by_cases hend : rest.head? = some (.symbol .rbrace)
      · obtain ⟨rest, rfl⟩ := List.head?_eq_some_iff.mp hend
        rfl
      · by_cases hcomma : rest.head? = some (.symbol .comma)
        · obtain ⟨rest, rfl⟩ := List.head?_eq_some_iff.mp hcomma
          rfl
        · rw [readPairsEnd_fails key value hend hcomma]
          split
          · exact absurd rfl hend
          · exact absurd rfl hcomma
          · rfl
termination_by 4 * ts.length + 2
decreasing_by
  all_goals
    subst_vars
    simp only [List.length_cons] at *
    omega

theorem Block.read_prospect (ts : List Token) :
    Prospect fun us => (Block.read (ts ++ us)).toReading := by
  cases ts with
  | nil => exact canStart_block.prospect
  | cons t ts =>
    by_cases hbrace : t = .symbol .rbrace
    · subst hbrace
      exact .settles [] ts fun us => Block.read_rbrace (ts ++ us)
    · apply Prospect.congr _ fun us => congrArg toReading (Block.read_cons hbrace (ts ++ us))
      refine prospect_weaken _ (prospect_regardless (fun _ _ _ _ => rfl) (length_append_nil_le ts)
        (Statement.read_prospect t ts) fun s => ?_)
      exact ⟨canStart_map canStart_block,
        fun rest hrest => prospect_map (Block.read_prospect rest)⟩
termination_by 4 * ts.length + 3
decreasing_by
  all_goals
    subst_vars
    simp only [List.length_cons] at *
    omega

theorem Statement.read_prospect (t : Token) (ts : List Token) :
    Prospect fun us => (Statement.read (t :: (ts ++ us))).toReading := by
  have hexpr : Foresees ts.length fun ts => (Expr.read 0 ts).toReading :=
    ⟨canStart_expr 0, fun rest hrest => Expr.read_prospect 0 rest⟩
  by_cases hlet : t = .keyword .let
  · subst hlet
    apply Prospect.congr _ fun us => congrArg toReading (Statement.read_let (ts ++ us))
    refine prospect_dropSemicolon (prospect_andThen (fun _ _ _ _ => rfl)
      (length_append_nil_le ts) (prospect_name ts) fun name => ?_)
    refine .andThen (fun _ _ _ _ => rfl) (fun ts => Nat.le_refl _)
      (foresees_symbol (by decide) (by simp)) fun _ => ?_
    exact hexpr.map.weaken
  · by_cases hreturn : t = .keyword .return
    · subst hreturn
      apply Prospect.congr _ fun us => congrArg toReading (Statement.read_return (ts ++ us))
      exact prospect_dropSemicolon (prospect_weaken _ (prospect_map (Expr.read_prospect 0 ts)))
    · apply Prospect.congr _ fun us => congrArg toReading (Statement.read_expr (t :: (ts ++ us))
        (fun vs h => hlet (List.cons.inj h).1) fun vs h => hreturn (List.cons.inj h).1)
      exact prospect_dropSemicolon (prospect_map (Expr.read_prospect 0 (t :: ts)))
termination_by 4 * (ts.length + 1) + 2
decreasing_by
  all_goals
    subst_vars
    simp only [List.length_cons] at *
    omega

end

/-- Whatever tokens there are, a program without errors can start with them, or they
settle the first error. -/
theorem Program.read_prospect (ts : List Token) :
    (∃ us, (∀ t ∈ us, t.Writable) ∧ (Program.read (ts ++ us)).errors = []) ∨
      ∃ e, ∀ us, (Program.read (ts ++ us)).errors.head? = some e := by
  match ts with
  | [] =>
    refine .inl ⟨[], fun t ht => absurd ht List.not_mem_nil, ?_⟩
    rw [List.append_nil, Program.read]
  | t :: ts =>
    have hread : ∀ us, (Program.read (t :: (ts ++ us))).errors =
        (Statement.read (t :: (ts ++ us))).errors ++
          (Program.read (Statement.read (t :: (ts ++ us))).rest).errors := by
      intro us
      rw [Program.read]
    cases Statement.read_prospect t ts with
    | fails e h =>
      refine .inr ⟨e, fun us => ?_⟩
      rw [List.cons_append, hread]
      exact List.mem_head?_append_of_mem_head? (h us)
    | settles s rest h =>
      have hlt : rest.length < (t :: ts).length := by
        have hle := length_le_of_settles h
        exact Nat.lt_succ_of_le (Nat.le_trans hle (length_append_nil_le ts))
      have hrest : ∀ us, (Program.read (t :: (ts ++ us))).errors =
          (Program.read (rest ++ us)).errors := by
        intro us
        rw [hread, h us]
        rfl
      simp only [List.cons_append, hrest]
      exact Program.read_prospect rest
    | completes s us hus h =>
      refine .inl ⟨us, hus, ?_⟩
      have hall := h [] closes_nil
      rw [List.append_nil] at hall
      rw [List.cons_append, hread, hall]
      simp only [Reading.ok, Program.read, List.append_nil]
termination_by ts.length
decreasing_by exact hlt

section Texts

variable {u : String}

/-- A text, a blank and another text have the tokens of both. -/
theorem parse_errors_append (hu : ¬ EndsInString u.toList) (v : String) :
    (parse (u ++ " " ++ v)).2 =
      (Program.read (tokens u.toList ++ tokens v.toList)).errors := by
  have htokens : tokens (u ++ " " ++ v).toList = tokens u.toList ++ tokens v.toList := by
    rw [String.toList_append, String.toList_append, List.append_assoc]
    exact tokens_append_blank hu rfl v.toList
  rw [errors_parse, htokens]

/-- A text that ends outside a string either starts a program without errors, or has
settled the first error, whatever comes behind it. So as long as what was read can be
completed there is no error, and once it cannot, the error is there. -/
theorem first_error_earliest (u : String) (hu : ¬ EndsInString u.toList) :
    (∃ v, (parse (u ++ " " ++ v)).2 = []) ∨
      ∃ e, ∀ v, (parse (u ++ " " ++ v)).2.head? = some e := by
  obtain ⟨us, hus, hread⟩ | ⟨e, he⟩ := Program.read_prospect (tokens u.toList)
  · obtain ⟨v, hv⟩ := exists_text hus
    refine .inl ⟨v, ?_⟩
    rw [parse_errors_append hu, hv, hread]
  · refine .inr ⟨e, fun v => ?_⟩
    rw [parse_errors_append hu, he]

/-- A closing brace that closes nothing is an error, and the first one. -/
theorem first_error_earliest_rbrace :
    ¬ EndsInString "\x7d".toList ∧ ∃ e, ∀ v, (parse ("\x7d" ++ " " ++ v)).2.head? = some e := by
  have hu : ¬ EndsInString "\x7d".toList := by decide
  refine ⟨hu, ?_⟩
  obtain ⟨v, hv⟩ | he := first_error_earliest "\x7d" hu
  · have htokens : tokens "\x7d".toList = [.symbol .rbrace] := by
      have h := tokens_symbol (r := []) .rbrace (by simp)
      rwa [tokens_nil] at h
    rw [parse_errors_append hu, htokens] at hv
    obtain ⟨ss, -, -, hss⟩ := Program.read_finds _ hv
    obtain heq | ⟨t, us, heq, ht⟩ := hss.statements_head
    · cases heq
    · cases heq
      cases ht
  · exact he

end Texts

end Monkey
