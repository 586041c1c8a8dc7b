import Monkey.Proofs.Grammar

/-!
Texts one after the other. What follows a text of the grammar matters only through
the token that comes next, and after a semicolon not even that does. So statements
of which the last has its semicolon, and statements after them, are statements
together.
-/

namespace Monkey

variable {c : Category} {ts us rest : List Token}

private theorem suffix_behind {t : Token} (h : (t :: rest) <:+ ts) : rest <:+ ts :=
  (List.suffix_cons t rest).trans h

private theorem suffix_before {t : Token} (h : rest <:+ ts) : rest <:+ t :: ts :=
  h.trans (List.suffix_cons t ts)

/-- What follows a text is the end of the tokens. -/
theorem Derives.isSuffix {tree : c.Tree} (h : Derives c ts tree rest) : rest <:+ ts := by
  induction h with
  | tighter _ ih | lastExpr _ ih | bare _ ih | unended _ _ ih => exact ih
  | unary _ ih | «return» _ ih => exact suffix_before ih
  | moreNames _ ih => exact suffix_before (suffix_before ih)
  | «let» _ ih => exact suffix_before (suffix_before (suffix_before ih))
  | ident | str | truth | falsity | int | lastName => exact List.suffix_cons _ _
  | noNames | noExprs | noPairs | noStatements => exact List.suffix_refl _
  | group _ ih | vector _ ih | dict _ ih | block _ ih => exact suffix_before (suffix_behind ih)
  | ended _ ih => exact suffix_behind ih
  | operator _ _ iha ihb => exact ihb.trans (suffix_behind iha)
  | call _ _ iha ihb | index _ _ iha ihb => exact (suffix_behind ihb).trans (suffix_behind iha)
  | cond _ _ iha ihb | function _ _ iha ihb =>
    exact suffix_before (suffix_before (ihb.trans (suffix_behind iha)))
  | condElse _ _ _ ihc iht ihe =>
    have hblocks := ihe.trans (suffix_behind iht)
    exact suffix_before (suffix_before (hblocks.trans (suffix_behind ihc)))
  | moreExprs _ _ iha ihb | lastPair _ _ iha ihb => exact ihb.trans (suffix_behind iha)
  | morePairs _ _ _ ihk ihv ihps =>
    exact (ihps.trans (suffix_behind ihv)).trans (suffix_behind ihk)
  | moreStatements _ _ ihs ihss => exact ihss.trans ihs

/-- Whether the texts of a category have a last token, which is no semicolon. -/
def Category.isClosed : Category → Bool
  | .expr _ | .block | .clause => true
  | _ => false

theorem Derives.exists_last {tree : c.Tree} (h : Derives c ts tree rest)
    (hclosed : c.isClosed = true) :
    ∃ t, t ≠ .symbol .semicolon ∧ (t :: rest) <:+ ts := by
  induction h with
  | tighter _ ih | bare _ ih => exact ih rfl
  | unary _ ih | «return» _ ih =>
    obtain ⟨t, ht, hend⟩ := ih rfl
    exact ⟨t, ht, suffix_before hend⟩
  | «let» _ ih =>
    obtain ⟨t, ht, hend⟩ := ih rfl
    exact ⟨t, ht, suffix_before (suffix_before (suffix_before hend))⟩
  | ident | str | truth | falsity | int => exact ⟨_, by simp, List.suffix_refl _⟩
  | group h | vector h | dict h | block h => exact ⟨_, by simp, suffix_before h.isSuffix⟩
  | operator ha _ _ ih =>
    obtain ⟨t, ht, hend⟩ := ih rfl
    exact ⟨t, ht, hend.trans (suffix_behind ha.isSuffix)⟩
  | call ha hb | index ha hb =>
    exact ⟨_, by simp, hb.isSuffix.trans (suffix_behind ha.isSuffix)⟩
  | cond ha _ _ ih | function ha _ _ ih =>
    obtain ⟨t, ht, hend⟩ := ih rfl
    have hhead := hend.trans (suffix_behind ha.isSuffix)
    exact ⟨t, ht, suffix_before (suffix_before hhead)⟩
  | condElse hc hthen _ _ _ ih =>
    obtain ⟨t, ht, hend⟩ := ih rfl
    have hblocks := hend.trans (suffix_behind hthen.isSuffix)
    have hhead := hblocks.trans (suffix_behind hc.isSuffix)
    exact ⟨t, ht, suffix_before (suffix_before hhead)⟩
  | noNames | lastName | moreNames | noExprs | lastExpr | moreExprs | noPairs | lastPair
  | morePairs | ended | unended | noStatements | moreStatements => cases hclosed

/-- What stands behind a text does not matter, as long as it would not carry on an
expression with which the tokens had come to an end. -/
theorem Derives.append_of_next {tree : c.Tree} (h : Derives c ts tree rest) (us : List Token)
    (hnext : rest = [] → ∀ next ∈ us.head?, next.continues = false) :
    Derives c (ts ++ us) tree (rest ++ us) := by
  induction h with
  | tighter _ ih => exact .tighter (ih hnext)
  | operator _ _ iha ihb => exact .operator (iha nofun) (ihb hnext)
  | unary _ ih => exact .unary (ih hnext)
  | call _ _ ihf ihargs => exact .call (ihf nofun) (ihargs nofun)
  | index _ _ iha ihi => exact .index (iha nofun) (ihi nofun)
  | ident => exact .ident
  | str => exact .str
  | truth => exact .truth
  | falsity => exact .falsity
  | int hdigits => exact .int hdigits
  | group _ ih => exact .group (ih nofun)
  | cond _ _ ihc iht => exact .cond (ihc nofun) (iht hnext)
  | condElse _ _ _ ihc iht ihe => exact .condElse (ihc nofun) (iht nofun) (ihe hnext)
  | function _ _ ihparams ihbody => exact .function (ihparams nofun) (ihbody hnext)
  | vector _ ih => exact .vector (ih nofun)
  | dict _ ih => exact .dict (ih nofun)
  | noNames => exact .noNames
  | lastName => exact .lastName
  | moreNames _ ih => exact .moreNames (ih hnext)
  | noExprs => exact .noExprs
  | lastExpr _ ih => exact .lastExpr (ih hnext)
  | moreExprs _ _ ihe ihes => exact .moreExprs (ihe nofun) (ihes hnext)
  | noPairs => exact .noPairs
  | lastPair _ _ ihk ihv => exact .lastPair (ihk nofun) (ihv hnext)
  | morePairs _ _ _ ihk ihv ihps => exact .morePairs (ihk nofun) (ihv nofun) (ihps hnext)
  | block _ ih => exact .block (ih nofun)
  | «let» _ ih => exact .let (ih hnext)
  | «return» _ ih => exact .return (ih hnext)
  | bare _ ih => exact .bare (ih hnext)
  | ended _ ih => exact .ended (ih nofun)
  | @unended _ rest _ _ hends ih =>
    apply Derives.unended (ih hnext)
    cases rest with
    | nil => exact hnext rfl
    | cons t rest => exact hends
  | noStatements => exact .noStatements
  | moreStatements _ hss ihs ihss =>
    refine .moreStatements (ihs fun hnil => hnext ?_) (ihss hnext)
    exact List.suffix_nil.mp (hnil ▸ hss.isSuffix)

/-- What stands behind the tokens that follow a text does not matter. -/
theorem Derives.append {tree : c.Tree} (h : Derives c ts tree rest) (hrest : rest ≠ [])
    (us : List Token) : Derives c (ts ++ us) tree (rest ++ us) :=
  h.append_of_next us fun hnil => absurd hnil hrest

/-- A statement that ends with a semicolon ends there. -/
theorem Derives.append_statement {s : Statement} (h : Derives .statement ts s [])
    (hlast : ts.getLast? = some (.symbol .semicolon)) (us : List Token) :
    Derives .statement (ts ++ us) s us := by
  cases h with
  | ended hs => exact .ended (hs.append (by simp) us)
  | unended hs _ =>
    obtain ⟨t, ht, xs, rfl⟩ := hs.exists_last rfl
    rw [List.getLast?_concat] at hlast
    exact absurd (Option.some.inj hlast) ht

/-- Statements of which the last ends with a semicolon go on with the statements
that follow them. -/
theorem Derives.append_statements {ss more : List Statement} (h : Derives .statements ts ss [])
    (hlast : ts.getLast? = some (.symbol .semicolon)) (hmore : Derives .statements us more rest) :
    Derives .statements (ts ++ us) (ss ++ more) rest := by
  induction ss generalizing ts with
  | nil =>
    cases h
    cases hlast
  | cons s ss ih =>
    cases h with
    | @moreStatements _ mid _ _ _ hs hss =>
      cases mid with
      | nil =>
        cases hss with
        | noStatements => exact .moreStatements (hs.append_statement hlast us) hmore
        | moreStatements hnone _ =>
          obtain ⟨t, ts', hnil, -⟩ := hnone.head_starts rfl
          cases hnil
      | cons t mid =>
        have hmid : (t :: mid).getLast? = some (.symbol .semicolon) := by
          obtain ⟨xs, rfl⟩ := hs.isSuffix
          rw [List.getLast?_append, List.getLast?_cons] at hlast
          rw [List.getLast?_cons]
          exact hlast
        exact .moreStatements (hs.append (by simp) us) (ih hss hmid)

end Monkey
