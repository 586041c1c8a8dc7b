import Monkey.Proofs.Canonical
import Monkey.Proofs.Grammar.Parse
import Monkey.Syntax.Render

/-!
Rendering a canonical tree and parsing the text gives the tree back.

The renderings are shown to be derived, and parsing follows. A rendered
expression is a primary or a call, whatever it is made of, and this is all that
whoever builds on it has to know. What comes after the expression is arbitrary,
as long as no word of the expression runs on into it.
-/

namespace Monkey

attribute [local simp] Expr.render

section Tokens

variable (r : List Char)

@[simp] theorem tokens_space : tokens (' ' :: r) = tokens r :=
  tokens_blank rfl r

@[simp] theorem tokens_lparen : tokens ('(' :: r) = .symbol .lparen :: tokens r :=
  tokens_symbol .lparen (by simp)

@[simp] theorem tokens_rparen : tokens (')' :: r) = .symbol .rparen :: tokens r :=
  tokens_symbol .rparen (by simp)

@[simp] theorem tokens_lbrace : tokens ('{' :: r) = .symbol .lbrace :: tokens r :=
  tokens_symbol .lbrace (by simp)

@[simp] theorem tokens_rbrace : tokens ('}' :: r) = .symbol .rbrace :: tokens r :=
  tokens_symbol .rbrace (by simp)

@[simp] theorem tokens_lbracket : tokens ('[' :: r) = .symbol .lbracket :: tokens r :=
  tokens_symbol .lbracket (by simp)

@[simp] theorem tokens_rbracket : tokens (']' :: r) = .symbol .rbracket :: tokens r :=
  tokens_symbol .rbracket (by simp)

@[simp] theorem tokens_comma : tokens (',' :: r) = .symbol .comma :: tokens r :=
  tokens_symbol .comma (by simp)

@[simp] theorem tokens_colon : tokens (':' :: r) = .symbol .colon :: tokens r :=
  tokens_symbol .colon (by simp)

@[simp] theorem tokens_semicolon : tokens (';' :: r) = .symbol .semicolon :: tokens r :=
  tokens_symbol .semicolon (by simp)

/-- An equals sign by itself is followed by a blank. -/
@[simp] theorem tokens_assign : tokens ('=' :: ' ' :: r) = .symbol .assign :: tokens r := by
  have h : tokens ('=' :: ' ' :: r) = .symbol .assign :: tokens (' ' :: r) :=
    tokens_symbol .assign (by simp)
  rw [h, tokens_space]

/-- Nothing that starts with an equals sign is an expression. -/
theorem tokens_equals : ∃ s us,
    tokens ('=' :: r) = .symbol s :: us ∧ (Token.symbol s).startsExpr = false := by
  by_cases h : r.head? = some '='
  · obtain ⟨s, rfl⟩ := List.head?_eq_some_iff.mp h
    have htokens : tokens ('=' :: '=' :: s) = .symbol .eq :: tokens s :=
      tokens_symbol .eq (by simp)
    exact ⟨_, _, htokens, rfl⟩
  · have htokens : tokens ('=' :: r) = .symbol .assign :: tokens r :=
      tokens_symbol .assign fun _ => h
    exact ⟨_, _, htokens, rfl⟩

/-- And so is a keyword before a word. -/
theorem tokens_keyword_space (k : Keyword) :
    tokens (k.text.toList ++ ' ' :: r) = .keyword k :: tokens r := by
  rw [tokens_keyword k (splits_cons ⟨rfl, rfl⟩ r), tokens_space]

theorem tokens_operator (op : BinaryOp) :
    tokens (op.text.toList ++ ' ' :: r) = .symbol op.symbol :: tokens r := by
  have htext : op.text = op.symbol.text := by cases op <;> rfl
  rw [htext, tokens_symbol op.symbol (by simp), tokens_space]

end Tokens

/-- A number is written in digits, which say what number it is. -/
theorem Integer.derives_text {n : Int64} (hn : 0 ≤ n.toInt) {r : List Char} (hr : Splits r) :
    Derives (.expr .primary) (tokens ((Integer.text n).toList ++ r)) (Expr.int n)
      (tokens r) := by
  obtain ⟨k, hk⟩ := Int.eq_ofNat_of_zero_le hn
  have htext : Integer.text n = toString k := by
    unfold Integer.text
    rw [hk]
    rfl
  have hdigits : ∀ c ∈ (toString k).toList, c.isDigit = true := by
    intro c hc
    simp only [Nat.toString_eq_repr, Nat.toList_repr] at hc
    exact Nat.isDigit_of_mem_toDigits (by decide) (by decide) hc
  have hdecimal : decimal (toString k) = k := by
    simp [decimal]
  have hlt : k < 2 ^ 63 := by
    have hn := n.toInt_lt
    omega
  have hvalue : Int64.ofNat k = n := by
    rw [← Int64.toInt_inj, Int64.toInt_ofNat_of_lt hlt, hk]
  have hderives : Derives (.expr .primary) (.int (toString k) :: tokens r)
      (Expr.int (Int64.ofNat (decimal (toString k)))) (tokens r) := by
    apply Derives.int
    rw [hdecimal]
    omega
  rw [hdecimal, hvalue] at hderives
  rw [htext, tokens_digits (by simp) hdigits hr]
  exact hderives

namespace Derives

variable {ts rest : List Token} {e : Expr}

theorem applied_of_primary (h : Derives (.expr .primary) ts e rest) :
    Derives (.expr .applied) ts e rest := .tighter h

theorem equality_of_applied (h : Derives (.expr .applied) ts e rest) :
    Derives (.expr .equality) ts e rest :=
  h.widen (Nat.zero_le _)

/-- In parentheses an expression of any layer can be built on. -/
theorem grouped {l : Layer} (h : Derives (.expr l) ts e (.symbol .rparen :: rest)) :
    Derives (.expr .applied) (.symbol .lparen :: ts) e rest := by
  apply applied_of_primary
  apply group
  exact h.widen (Nat.zero_le _)

end Derives

/-- The rendering of an expression is derived before any text that splits from
it. -/
def Expr.Rendered (e : Expr) : Prop :=
  ∀ r, Splits r → Derives (.expr .applied) (tokens (e.render.toList ++ r)) e (tokens r)

def Expr.EachRendered (es : List Expr) : Prop :=
  ∀ r, Splits r → Derives .exprs (tokens ((Text.commaSeparated (Expr.renderEach es)).toList ++ r))
    es (tokens r)

def Expr.PairsRendered (ps : List (Expr × Expr)) : Prop :=
  ∀ r, Splits r → Derives .pairs
    (tokens ((Text.commaSeparated (Expr.renderPairs ps)).toList ++ r)) ps (tokens r)

/-- The text, which need not be the rendering, is derived for the expression before any text
that splits from it. -/
def Expr.WrittenAs (e : Expr) (text : String) : Prop :=
  ∀ r, Splits r → Derives (.expr .equality) (tokens (text.toList ++ r)) e (tokens r)

def Expr.EachWrittenAs (es : List Expr) (texts : List String) : Prop :=
  ∀ r, Splits r →
    Derives .exprs (tokens ((Text.commaSeparated texts).toList ++ r)) es (tokens r)

def Expr.PairsWrittenAs (ps : List (Expr × Expr)) (texts : List String) : Prop :=
  ∀ r, Splits r →
    Derives .pairs (tokens ((Text.commaSeparated texts).toList ++ r)) ps (tokens r)

/-- After a block there must be something that ends its last statement. -/
def Block.Rendered (b : List Statement) : Prop :=
  ∀ r, Splits r → (∀ next ∈ (tokens r).head?, next.continues = false) →
    Derives .statements (tokens ((Block.render b).toList ++ r)) b (tokens r)

section Expressions

variable {a b c e f : Expr} {t : List Statement}

theorem Expr.Rendered.equality (h : e.Rendered) {r : List Char} (hr : Splits r) :
    Derives (.expr .equality) (tokens (e.render.toList ++ r)) e (tokens r) :=
  (h r hr).equality_of_applied

theorem Expr.Rendered.writtenAs (h : e.Rendered) : e.WrittenAs e.render :=
  fun _ hr => h.equality hr

theorem rendered_ident {name : String} (h : IsName name) : (Expr.ident name).Rendered := by
  intro r hr
  rw [Expr.render, tokens_name h hr]
  exact Derives.ident.applied_of_primary

theorem rendered_int {n : Int64} (h : 0 ≤ n.toInt) : (Expr.int n).Rendered := by
  intro r hr
  rw [Expr.render]
  exact (Integer.derives_text h hr).applied_of_primary

theorem rendered_str {text : String} (h : '"' ∉ text.toList) : (Expr.str text).Rendered := by
  intro r hr
  have htext : (Expr.str text).render.toList ++ r = '"' :: (text.toList ++ '"' :: r) := by
    simp
  rw [htext, tokens_str h]
  exact Derives.str.applied_of_primary

theorem rendered_bool (b : Bool) : (Expr.bool b).Rendered := by
  intro r hr
  cases b with
  | true =>
    have htokens : tokens ((Expr.bool true).render.toList ++ r) = .keyword .true :: tokens r := by
      rw [Expr.render]
      exact tokens_keyword .true hr
    rw [htokens]
    exact Derives.truth.applied_of_primary
  | false =>
    have htokens : tokens ((Expr.bool false).render.toList ++ r) =
        .keyword .false :: tokens r := by
      rw [Expr.render]
      exact tokens_keyword .false hr
    rw [htokens]
    exact Derives.falsity.applied_of_primary

/-- An expression does not start with an equals sign, so that `!` before it does
not become a longer symbol. -/
theorem Expr.Rendered.head_ne_equals (h : e.Rendered) {r : List Char} (hr : Splits r) :
    (e.render.toList ++ r).head? ≠ some '=' := by
  intro hhead
  obtain ⟨s, hs⟩ := List.head?_eq_some_iff.mp hhead
  obtain ⟨t, us, hts, ht⟩ := (h r hr).head_starts rfl
  obtain ⟨symbol, vs, hequals, hsymbol⟩ := tokens_equals s
  rw [hs, hequals] at hts
  obtain rfl : Token.symbol symbol = t := (List.cons.inj hts).1
  have hstarts : (Token.symbol symbol).startsExpr = true := ht
  rw [hsymbol] at hstarts
  cases hstarts

theorem rendered_unary (op : UnaryOp) (ha : a.Rendered) : (Expr.unary op a).Rendered := by
  intro r hr
  have hr' : Splits (')' :: r) := splits_cons ⟨rfl, rfl⟩ r
  have htext : op.text = op.symbol.text := by cases op <;> rfl
  have htokens : tokens ((Expr.unary op a).render.toList ++ r) =
      .symbol .lparen :: .symbol op.symbol :: tokens (a.render.toList ++ ')' :: r) := by
    simp [htext, tokens_symbol op.symbol fun _ => ha.head_ne_equals hr']
  have hoperand := ha _ hr'
  rw [tokens_rparen] at hoperand
  rw [htokens]
  apply Derives.grouped
  apply Derives.unary
  exact hoperand.widen (by decide)

theorem rendered_binary (op : BinaryOp) (ha : a.Rendered) (hb : b.Rendered) :
    (Expr.binary op a b).Rendered := by
  intro r hr
  have htokens : tokens ((Expr.binary op a b).render.toList ++ r) =
      .symbol .lparen :: tokens (a.render.toList ++
        ' ' :: (op.text.toList ++ ' ' :: (b.render.toList ++ ')' :: r))) := by
    simp
  have hleft := ha (' ' :: (op.text.toList ++ ' ' :: (b.render.toList ++ ')' :: r)))
    (splits_cons ⟨rfl, rfl⟩ _)
  have hright := hb (')' :: r) (splits_cons ⟨rfl, rfl⟩ r)
  rw [tokens_space, tokens_operator] at hleft
  rw [tokens_rparen] at hright
  have hlayer : op.layer.depth ≤ Layer.applied.depth := by cases op <;> decide
  have htighter : op.layer.tighter.depth ≤ Layer.applied.depth := by cases op <;> decide
  rw [htokens]
  apply Derives.grouped
  exact Derives.operator (hleft.widen hlayer) (hright.widen htighter)

theorem rendered_index (ha : a.Rendered) (hb : b.Rendered) : (Expr.index a b).Rendered := by
  intro r hr
  have htokens : tokens ((Expr.index a b).render.toList ++ r) =
      .symbol .lparen ::
        tokens (a.render.toList ++ '[' :: (b.render.toList ++ ']' :: ')' :: r)) := by
    simp
  have hleft := ha ('[' :: (b.render.toList ++ ']' :: ')' :: r)) (splits_cons ⟨rfl, rfl⟩ _)
  have hkey := hb.equality (splits_cons (c := ']') ⟨rfl, rfl⟩ (')' :: r))
  rw [tokens_lbracket] at hleft
  rw [tokens_rbracket, tokens_rparen] at hkey
  rw [htokens]
  apply Derives.grouped
  exact Derives.index hleft hkey

/-- A block in braces needs nothing of what comes after it. -/
theorem Block.Rendered.braced (ht : Block.Rendered t) (r : List Char) :
    Derives .block (tokens ((Block.braced t (Block.render t)).toList ++ r)) t (tokens r) := by
  cases t with
  | nil =>
    have htokens : tokens ((Block.braced [] (Block.render [])).toList ++ r) =
        .symbol .lbrace :: .symbol .rbrace :: tokens r := by
      simp [Block.braced]
    rw [htokens]
    exact .block .noStatements
  | cons s ss =>
    have htokens : tokens ((Block.braced (s :: ss) (Block.render (s :: ss))).toList ++ r) =
        .symbol .lbrace :: tokens ((Block.render (s :: ss)).toList ++ ' ' :: '}' :: r) := by
      simp [Block.braced]
    have hbody := ht (' ' :: '}' :: r) (splits_cons ⟨rfl, rfl⟩ _) (by simp [Token.continues])
    rw [tokens_space, tokens_rbrace] at hbody
    rw [htokens]
    exact .block hbody

/-- A condition and what stands behind its parenthesis. -/
theorem Expr.Rendered.condition (hc : c.Rendered) (r : List Char) :
    Derives (.expr .equality) (tokens (c.render.toList ++ ')' :: ' ' :: r)) c
      (.symbol .rparen :: tokens r) := by
  have hcond := hc.equality (splits_cons (c := ')') ⟨rfl, rfl⟩ (' ' :: r))
  rw [tokens_rparen, tokens_space] at hcond
  exact hcond

/-- A block and what stands behind the `else` that belongs to it. -/
theorem Block.Rendered.before_else (ht : Block.Rendered t) (r : List Char) :
    Derives .block (tokens ((Block.braced t (Block.render t)).toList ++
      ' ' :: (Keyword.else.text.toList ++ ' ' :: r))) t (.keyword .else :: tokens r) := by
  have hblock := ht.braced (' ' :: (Keyword.else.text.toList ++ ' ' :: r))
  rw [tokens_space, tokens_keyword_space] at hblock
  exact hblock

theorem rendered_cond (hc : c.Rendered) (ht : Block.Rendered t) :
    (Expr.cond c t none).Rendered := by
  intro r hr
  have htokens : tokens ((Expr.cond c t none).render.toList ++ r) =
      .keyword .if :: .symbol .lparen :: tokens (c.render.toList ++
        ')' :: ' ' :: ((Block.braced t (Block.render t)).toList ++ r)) := by
    rw [← tokens_lparen, ← tokens_keyword_space]
    simp [Keyword.text]
  rw [htokens]
  apply Derives.applied_of_primary
  exact Derives.cond (hc.condition _) (ht.braced r)

theorem rendered_condElse {e : List Statement} (hc : c.Rendered) (ht : Block.Rendered t)
    (he : Block.Rendered e) : (Expr.cond c t (some e)).Rendered := by
  intro r hr
  have htokens : tokens ((Expr.cond c t (some e)).render.toList ++ r) =
      .keyword .if :: .symbol .lparen :: tokens (c.render.toList ++
        ')' :: ' ' :: ((Block.braced t (Block.render t)).toList ++
          ' ' :: (Keyword.else.text.toList ++
            ' ' :: ((Block.braced e (Block.render e)).toList ++ r)))) := by
    rw [← tokens_lparen, ← tokens_keyword_space]
    simp [Keyword.text]
  rw [htokens]
  apply Derives.applied_of_primary
  exact Derives.condElse (hc.condition _) (ht.before_else _) (he.braced r)

/-- Names with commas between them. -/
theorem derives_names {names : List String} (h : ∀ name ∈ names, IsName name) {r : List Char}
    (hr : Splits r) :
    Derives .names (tokens ((Text.commaSeparated names).toList ++ r)) names (tokens r) := by
  induction names with
  | nil => exact .noNames
  | cons name names ih =>
    obtain ⟨hname, hnames⟩ := List.forall_mem_cons.mp h
    cases names with
    | nil =>
      rw [Text.commaSeparated, tokens_name hname hr]
      exact .lastName
    | cons next names =>
      have htext : (Text.commaSeparated (name :: next :: names)).toList ++ r =
          name.toList ++ ',' :: ' ' :: ((Text.commaSeparated (next :: names)).toList ++ r) := by
        simp [Text.commaSeparated]
      rw [htext, tokens_name hname (splits_cons ⟨rfl, rfl⟩ _), tokens_comma, tokens_space]
      exact .moreNames (ih hnames)

theorem rendered_function {params : List String} {body : List Statement}
    (hparams : ∀ name ∈ params, IsName name) (hbody : Block.Rendered body) :
    (Expr.function params body).Rendered := by
  intro r hr
  have htokens : tokens ((Expr.function params body).render.toList ++ r) =
      .keyword .fn :: .symbol .lparen :: tokens ((Text.commaSeparated params).toList ++
        ')' :: ' ' :: ((Block.braced body (Block.render body)).toList ++ r)) := by
    rw [← tokens_lparen, ← tokens_keyword .fn (splits_cons ⟨rfl, rfl⟩ _)]
    simp [Keyword.text]
  have hnames := derives_names hparams (splits_cons (c := ')') ⟨rfl, rfl⟩
    (' ' :: ((Block.braced body (Block.render body)).toList ++ r)))
  rw [tokens_rparen, tokens_space] at hnames
  rw [htokens]
  apply Derives.applied_of_primary
  exact Derives.function hnames (hbody.braced r)

theorem written_noExprs : Expr.EachWrittenAs [] [] := by
  intro r hr
  exact .noExprs

theorem written_moreExprs {es : List Expr} {text : String} {texts : List String}
    (he : e.WrittenAs text) (hes : Expr.EachWrittenAs es texts) (hnil : es = [] ↔ texts = []) :
    Expr.EachWrittenAs (e :: es) (text :: texts) := by
  intro r hr
  cases es with
  | nil =>
    obtain rfl : texts = [] := hnil.mp rfl
    exact .lastExpr (he r hr)
  | cons next es =>
    obtain ⟨nextText, texts, rfl⟩ :=
      List.exists_cons_of_ne_nil fun h => List.cons_ne_nil next es (hnil.mpr h)
    have htext : (Text.commaSeparated (text :: nextText :: texts)).toList ++ r =
        text.toList ++ ',' :: ' ' :: ((Text.commaSeparated (nextText :: texts)).toList ++ r) := by
      simp [Text.commaSeparated]
    have hfirst := he (',' :: ' ' :: ((Text.commaSeparated (nextText :: texts)).toList ++ r))
      (splits_cons ⟨rfl, rfl⟩ _)
    rw [tokens_comma, tokens_space] at hfirst
    rw [htext]
    exact .moreExprs hfirst (hes r hr)

theorem rendered_moreExprs {es : List Expr} (he : e.Rendered) (hes : Expr.EachRendered es) :
    Expr.EachRendered (e :: es) :=
  written_moreExprs he.writtenAs hes (by cases es <;> simp [Expr.renderEach])

theorem written_noPairs : Expr.PairsWrittenAs [] [] := by
  intro r hr
  exact .noPairs

/-- A key and what stands after the colon behind it. -/
theorem Expr.WrittenAs.key {text : String} (h : e.WrittenAs text) (r : List Char) :
    Derives (.expr .equality) (tokens (text.toList ++ ':' :: ' ' :: r)) e
      (.symbol .colon :: tokens r) := by
  have hkey := h (':' :: ' ' :: r) (splits_cons ⟨rfl, rfl⟩ _)
  rw [tokens_colon, tokens_space] at hkey
  exact hkey

theorem written_morePairs {k v : Expr} {ps : List (Expr × Expr)} {keyText valueText : String}
    {texts : List String} (hk : k.WrittenAs keyText) (hv : v.WrittenAs valueText)
    (hps : Expr.PairsWrittenAs ps texts) (hnil : ps = [] ↔ texts = []) :
    Expr.PairsWrittenAs ((k, v) :: ps) ((keyText ++ ": " ++ valueText) :: texts) := by
  intro r hr
  cases ps with
  | nil =>
    obtain rfl : texts = [] := hnil.mp rfl
    have htext : (Text.commaSeparated [keyText ++ ": " ++ valueText]).toList ++ r =
        keyText.toList ++ ':' :: ' ' :: (valueText.toList ++ r) := by
      simp [Text.commaSeparated]
    rw [htext]
    exact .lastPair (hk.key _) (hv r hr)
  | cons next ps =>
    obtain ⟨nextText, texts, rfl⟩ :=
      List.exists_cons_of_ne_nil fun h => List.cons_ne_nil next ps (hnil.mpr h)
    have htext :
        (Text.commaSeparated ((keyText ++ ": " ++ valueText) :: nextText :: texts)).toList ++ r =
          keyText.toList ++ ':' :: ' ' :: (valueText.toList ++
            ',' :: ' ' :: ((Text.commaSeparated (nextText :: texts)).toList ++ r)) := by
      simp [Text.commaSeparated]
    have hvalue := hv (',' :: ' ' :: ((Text.commaSeparated (nextText :: texts)).toList ++ r))
      (splits_cons ⟨rfl, rfl⟩ _)
    rw [tokens_comma, tokens_space] at hvalue
    rw [htext]
    exact .morePairs (hk.key _) hvalue (hps r hr)

theorem rendered_morePairs {k v : Expr} {ps : List (Expr × Expr)} (hk : k.Rendered)
    (hv : v.Rendered) (hps : Expr.PairsRendered ps) : Expr.PairsRendered ((k, v) :: ps) :=
  written_morePairs hk.writtenAs hv.writtenAs hps (by cases ps <;> simp [Expr.renderPairs])

theorem rendered_call {args : List Expr} (hf : f.Rendered) (hargs : Expr.EachRendered args) :
    (Expr.call f args).Rendered := by
  intro r hr
  have htext : (Expr.call f args).render.toList ++ r = f.render.toList ++
      '(' :: ((Text.commaSeparated (Expr.renderEach args)).toList ++ ')' :: r) := by
    simp
  have hcallee := hf ('(' :: ((Text.commaSeparated (Expr.renderEach args)).toList ++ ')' :: r))
    (splits_cons ⟨rfl, rfl⟩ _)
  have hlist := hargs (')' :: r) (splits_cons ⟨rfl, rfl⟩ r)
  rw [tokens_lparen] at hcallee
  rw [tokens_rparen] at hlist
  rw [htext]
  exact .call hcallee hlist

/-- In its brackets a list of expressions needs nothing of what comes after it. -/
theorem written_vector {es : List Expr} {texts : List String}
    (hes : Expr.EachWrittenAs es texts) (r : List Char) :
    Derives (.expr .primary) (tokens (("[" ++ Text.commaSeparated texts ++ "]").toList ++ r))
      (Expr.vector es) (tokens r) := by
  have htokens : tokens (("[" ++ Text.commaSeparated texts ++ "]").toList ++ r) =
      .symbol .lbracket :: tokens ((Text.commaSeparated texts).toList ++ ']' :: r) := by
    simp
  have hlist := hes (']' :: r) (splits_cons ⟨rfl, rfl⟩ r)
  rw [tokens_rbracket] at hlist
  rw [htokens]
  exact .vector hlist

theorem rendered_vector {es : List Expr} (hes : Expr.EachRendered es) :
    (Expr.vector es).Rendered := by
  intro r hr
  rw [Expr.render]
  exact (written_vector hes r).applied_of_primary

theorem written_dict {ps : List (Expr × Expr)} {texts : List String}
    (hps : Expr.PairsWrittenAs ps texts) (r : List Char) :
    Derives (.expr .primary)
      (tokens (("\x7b" ++ Text.commaSeparated texts ++ "\x7d").toList ++ r))
      (Expr.dict ps) (tokens r) := by
  have htokens : tokens (("\x7b" ++ Text.commaSeparated texts ++ "\x7d").toList ++ r) =
      .symbol .lbrace :: tokens ((Text.commaSeparated texts).toList ++ '}' :: r) := by
    simp
  have hlist := hps ('}' :: r) (splits_cons ⟨rfl, rfl⟩ r)
  rw [tokens_rbrace] at hlist
  rw [htokens]
  exact .dict hlist

theorem rendered_dict {ps : List (Expr × Expr)} (hps : Expr.PairsRendered ps) :
    (Expr.dict ps).Rendered := by
  intro r hr
  rw [Expr.render]
  exact (written_dict hps r).applied_of_primary

end Expressions

section Statements

/-- A statement without its end. -/
def Statement.clause : Statement → String
  | .let name e => "let " ++ name ++ " = " ++ e.render
  | .return e => "return " ++ e.render
  | .expr e => e.render

/-- Whether a statement has its end with it or only gets it from what follows. -/
def Statement.ending : Statement → String
  | .expr _ => ""
  | _ => ";"

theorem Statement.render_eq (s : Statement) : s.render = s.clause ++ s.ending := by
  cases s <;> simp [Statement.render, Statement.clause, Statement.ending]

/-- Before another statement, every statement has its end. -/
theorem Statement.render_separator (s : Statement) :
    s.render ++ s.separator = s.clause ++ "; " := by
  cases s with
  | expr e => rfl
  | _ =>
    rw [Statement.render_eq, String.append_assoc]
    rfl

/-- The clause of a statement is derived before any text that splits from it. -/
def Statement.Rendered (s : Statement) : Prop :=
  ∀ r, Splits r → Derives .clause (tokens (s.clause.toList ++ r)) s (tokens r)

variable {e : Expr} {s : Statement} {ss : List Statement}

theorem rendered_let {name : String} (hname : IsName name) (he : e.Rendered) :
    (Statement.let name e).Rendered := by
  intro r hr
  have htokens : tokens ((Statement.let name e).clause.toList ++ r) = .keyword .let ::
      tokens (name.toList ++ ' ' :: '=' :: ' ' :: (e.render.toList ++ r)) := by
    rw [← tokens_keyword_space]
    simp [Statement.clause, Keyword.text]
  rw [htokens, tokens_name hname (splits_cons ⟨rfl, rfl⟩ _), tokens_space, tokens_assign]
  exact .let (he.equality hr)

theorem rendered_return (he : e.Rendered) : (Statement.return e).Rendered := by
  intro r hr
  have htokens : tokens ((Statement.return e).clause.toList ++ r) = .keyword .return ::
      tokens (e.render.toList ++ r) := by
    rw [← tokens_keyword_space]
    simp [Statement.clause, Keyword.text]
  rw [htokens]
  exact .return (he.equality hr)

theorem rendered_bare (he : e.Rendered) : (Statement.expr e).Rendered := by
  intro r hr
  exact .bare (he.equality hr)

theorem rendered_noStatements : Block.Rendered [] := by
  intro r hr hnext
  exact .noStatements

/-- The last statement has its end with it, or nothing that comes after it carries
it on. -/
theorem Statement.Rendered.last (hs : s.Rendered) {r : List Char} (hr : Splits r)
    (hnext : ∀ next ∈ (tokens r).head?, next.continues = false) :
    Derives .statement (tokens (s.render.toList ++ r)) s (tokens r) := by
  rw [Statement.render_eq, String.toList_append, List.append_assoc]
  cases s with
  | expr e => exact .unended (hs r hr) hnext
  | «let» | «return» =>
    have hclause := hs (';' :: r) (splits_cons ⟨rfl, rfl⟩ r)
    rw [tokens_semicolon] at hclause
    simp only [Statement.ending]
    exact .ended hclause

theorem rendered_moreStatements (hs : s.Rendered) (hss : Block.Rendered ss) :
    Block.Rendered (s :: ss) := by
  intro r hr hnext
  cases ss with
  | nil => exact .moreStatements (hs.last hr hnext) .noStatements
  | cons t ss =>
    have htext : (Block.render (s :: t :: ss)).toList ++ r =
        s.clause.toList ++ ';' :: ' ' :: ((Block.render (t :: ss)).toList ++ r) := by
      rw [Block.render, Statement.render_separator]
      simp
    have hclause := hs (';' :: ' ' :: ((Block.render (t :: ss)).toList ++ r))
      (splits_cons ⟨rfl, rfl⟩ _)
    rw [tokens_semicolon, tokens_space] at hclause
    rw [htext]
    exact .moreStatements (.ended hclause) (hss r hr hnext)

end Statements

mutual

theorem Expr.rendered_of_canonical : (e : Expr) → e.Canonical → e.Rendered
  | .ident _, h => rendered_ident h
  | .int _, h => rendered_int h
  | .str _, h => rendered_str h
  | .bool b, _ => rendered_bool b
  | .unary op a, h => rendered_unary op (a.rendered_of_canonical h)
  | .binary op a b, ⟨ha, hb⟩ =>
    rendered_binary op (a.rendered_of_canonical ha) (b.rendered_of_canonical hb)
  | .cond c t none, ⟨hc, ht⟩ =>
    rendered_cond (c.rendered_of_canonical hc) (Block.rendered_of_canonical t ht)
  | .cond c t (some e), ⟨hc, ht, he⟩ =>
    rendered_condElse (c.rendered_of_canonical hc) (Block.rendered_of_canonical t ht)
      (Block.rendered_of_canonical e he)
  | .function _ body, ⟨hparams, hbody⟩ =>
    rendered_function hparams (Block.rendered_of_canonical body hbody)
  | .call f args, ⟨hf, hargs⟩ =>
    rendered_call (f.rendered_of_canonical hf) (Expr.eachRendered_of_canonical args hargs)
  | .vector es, h => rendered_vector (Expr.eachRendered_of_canonical es h)
  | .dict ps, h => rendered_dict (Expr.pairsRendered_of_canonical ps h)
  | .index a i, ⟨ha, hi⟩ =>
    rendered_index (a.rendered_of_canonical ha) (i.rendered_of_canonical hi)

theorem Statement.rendered_of_canonical : (s : Statement) → s.Canonical → s.Rendered
  | .let _ e, ⟨hname, he⟩ => rendered_let hname (e.rendered_of_canonical he)
  | .return e, h => rendered_return (e.rendered_of_canonical h)
  | .expr e, h => rendered_bare (e.rendered_of_canonical h)

theorem Block.rendered_of_canonical : (b : List Statement) → Block.Canonical b → Block.Rendered b
  | [], _ => rendered_noStatements
  | s :: ss, ⟨hs, hss⟩ =>
    rendered_moreStatements (s.rendered_of_canonical hs) (Block.rendered_of_canonical ss hss)

theorem Expr.eachRendered_of_canonical : (es : List Expr) → Expr.EachCanonical es →
    Expr.EachRendered es
  | [], _ => written_noExprs
  | e :: es, ⟨he, hes⟩ =>
    rendered_moreExprs (e.rendered_of_canonical he) (Expr.eachRendered_of_canonical es hes)

theorem Expr.pairsRendered_of_canonical : (ps : List (Expr × Expr)) → Expr.PairsCanonical ps →
    Expr.PairsRendered ps
  | [], _ => written_noPairs
  | (k, v) :: ps, ⟨hk, hv, hps⟩ =>
    rendered_morePairs (k.rendered_of_canonical hk) (v.rendered_of_canonical hv)
      (Expr.pairsRendered_of_canonical ps hps)

end

/-- A canonical program is what its rendering is parsed to. -/
theorem parse_render_of_canonical {p : Program} (h : Block.Canonical p) :
    parse (Block.render p) = (p, []) := by
  have hderives := Block.rendered_of_canonical p h [] splits_nil (by simp [tokens_nil])
  rw [List.append_nil, tokens_nil] at hderives
  exact parse_of_derives hderives

/-- Rendering and parsing are inverse to each other on the canonical programs,
and these are the ones that the parser produces, whether or not it met errors. -/
theorem parse_render :
    (∀ source, Block.Canonical (parse source).1) ∧
      (∀ p : Program, Block.Canonical p → parse (Node.program p).render = (p, [])) ∧
      (∀ p : Program, Block.Canonical p ↔ ∃ source, (parse source).1 = p) ∧
      ∀ source, parse (Node.program (parse source).1).render = ((parse source).1, []) ∧
        (Node.program (parse (Node.program (parse source).1).render).1).render =
          (Node.program (parse source).1).render := by
  have hinverse : ∀ p : Program, Block.Canonical p → parse (Node.program p).render = (p, []) :=
    fun p hp => parse_render_of_canonical hp
  refine ⟨parse_canonical, hinverse, fun p => ⟨fun hp => ?_, ?_⟩, fun source => ?_⟩
  · exact ⟨(Node.program p).render, congrArg Prod.fst (hinverse p hp)⟩
  · rintro ⟨source, rfl⟩
    exact parse_canonical source
  · have hparse := hinverse _ (parse_canonical source)
    exact ⟨hparse, by rw [hparse]⟩

/-- The callee is not in parentheses, and `!` stands before a numeral. -/
theorem parse_render_call :
    Block.Canonical [.let "x" (.call (.ident "f") [.unary .bang (.int 7)])] ∧
      parse (Node.program [.let "x" (.call (.ident "f") [.unary .bang (.int 7)])]).render =
        ([.let "x" (.call (.ident "f") [.unary .bang (.int 7)])], []) := by
  have hx : IsName "x" := by decide
  have hf : IsName "f" := by decide
  have hseven : 0 ≤ (7 : Int64).toInt := by decide
  have hp : Block.Canonical [.let "x" (.call (.ident "f") [.unary .bang (.int 7)])] :=
    ⟨⟨hx, hf, hseven, trivial⟩, trivial⟩
  exact ⟨hp, parse_render.2.1 _ hp⟩

end Monkey
