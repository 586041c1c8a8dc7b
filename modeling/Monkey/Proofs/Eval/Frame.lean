import Monkey.Proofs.Eval.Keeps
import Monkey.Proofs.Store
import Monkey.Session

/-!
What evaluation leaves alone. A node that is evaluated in a scope writes to that
scope and to scopes that it opens itself; in the scope it binds only names that
a `let` of the node names. The `let`s in function literals do not count: they
are for the scope of a call, which no other scope sees.

The frame is stated from one store to a later one. The scopes that the later
store has in addition are of no concern to it.
-/

open Monkey.Action

namespace Monkey

mutual

/-- The names of the `let`s in an expression that are not in a function literal. -/
def Expr.lets : Expr → List String
  | .ident _ | .int _ | .str _ | .bool _ => []
  | .unary _ a => a.lets
  | .binary _ a b => a.lets ++ b.lets
  | .cond c t none => c.lets ++ Block.lets t
  | .cond c t (some e) => c.lets ++ (Block.lets t ++ Block.lets e)
  | .function _ _ => []
  | .call f args => f.lets ++ Expr.letsEach args
  | .vector es => Expr.letsEach es
  | .dict ps => Expr.letsPairs ps
  | .index a i => a.lets ++ i.lets

def Statement.lets : Statement → List String
  | .let name e => name :: e.lets
  | .return e => e.lets
  | .expr e => e.lets

def Block.lets : List Statement → List String
  | [] => []
  | s :: ss => s.lets ++ Block.lets ss

def Expr.letsEach : List Expr → List String
  | [] => []
  | e :: es => e.lets ++ Expr.letsEach es

def Expr.letsPairs : List (Expr × Expr) → List String
  | [] => []
  | (k, v) :: ps => k.lets ++ (v.lets ++ Expr.letsPairs ps)

end

def Node.lets : Node → List String
  | .program p => Block.lets p
  | .block b => Block.lets b
  | .statement s => s.lets
  | .expr e => e.lets

theorem Block.lets_subset {ss : List Statement} {s : Statement} (hs : s ∈ ss) :
    s.lets ⊆ Block.lets ss := by
  induction ss with
  | nil => cases hs
  | cons t ss ih =>
    intro x hx
    rw [Block.lets]
    rcases List.mem_cons.mp hs with rfl | hs
    · exact List.mem_append_left _ hx
    · exact List.mem_append_right _ (ih hs hx)

theorem Expr.letsEach_subset {es : List Expr} {e : Expr} (he : e ∈ es) :
    e.lets ⊆ Expr.letsEach es := by
  induction es with
  | nil => cases he
  | cons d es ih =>
    intro x hx
    rw [Expr.letsEach]
    rcases List.mem_cons.mp he with rfl | he
    · exact List.mem_append_left _ hx
    · exact List.mem_append_right _ (ih he hx)

theorem Expr.letsPairs_subset {ps : List (Expr × Expr)} {p : Expr × Expr} (hp : p ∈ ps) :
    p.1.lets ⊆ Expr.letsPairs ps ∧ p.2.lets ⊆ Expr.letsPairs ps := by
  induction ps with
  | nil => cases hp
  | cons q ps ih =>
    obtain ⟨k, v⟩ := q
    rw [Expr.letsPairs]
    rcases List.mem_cons.mp hp with rfl | hp
    · constructor
      · exact List.subset_append_left _ _
      · intro x hx
        exact List.mem_append_right _ (List.mem_append_left _ hx)
    · obtain ⟨hkey, hvalue⟩ := ih hp
      constructor
      · intro x hx
        exact List.mem_append_right _ (List.mem_append_right _ (hkey hx))
      · intro x hx
        exact List.mem_append_right _ (List.mem_append_right _ (hvalue hx))

/-- A later state of a scope, in which only some names may have been bound. -/
structure Scope.Framed (names : List String) (sc sc' : Scope) : Prop where
  outer_eq : sc'.outer = sc.outer
  stays_bound : ∀ x, (sc.get? x).isSome → (sc'.get? x).isSome
  get?_eq : ∀ x, x ∉ names → sc'.get? x = sc.get? x

namespace Scope.Framed

variable {names : List String} {sc sc' sc'' : Scope}

theorem refl (sc : Scope) : sc.Framed names sc :=
  ⟨rfl, fun _ h => h, fun _ _ => rfl⟩

theorem trans (h : sc.Framed names sc') (h' : sc'.Framed names sc'') : sc.Framed names sc'' := by
  constructor
  · rw [h'.outer_eq, h.outer_eq]
  · intro x hx
    exact h'.stays_bound x (h.stays_bound x hx)
  · intro x hx
    rw [h'.get?_eq x hx, h.get?_eq x hx]

theorem mono {more : List String} (h : sc.Framed names sc') (hsub : names ⊆ more) :
    sc.Framed more sc' := by
  constructor
  · exact h.outer_eq
  · exact h.stays_bound
  · intro x hx
    exact h.get?_eq x fun hmem => hx (hsub hmem)

theorem bind {name : String} (hname : name ∈ names) (sc : Scope) (v : Value) :
    sc.Framed names (sc.bind name v) := by
  constructor
  · rfl
  · intro x hx
    rw [Scope.get?_bind]
    split
    · rfl
    · exact hx
  · intro x hx
    rw [Scope.get?_bind, if_neg]
    rintro rfl
    exact hx hname

end Scope.Framed

namespace Store

/-- A later store, in which only one of the scopes that were there may have
changed, and only some names in it. -/
structure Framed (scope : ScopeId) (names : List String) (st st' : Store) : Prop where
  size_le : st.scopes.size ≤ st'.scopes.size
  others : ∀ i < st.scopes.size, i ≠ scope → st'.scopes[i]? = st.scopes[i]?
  own : ∀ sc, st.scopes[scope]? = some sc →
    ∃ sc', st'.scopes[scope]? = some sc' ∧ sc.Framed names sc'

/-- A later store, in which every scope is as it was. -/
structure Preserved (st st' : Store) : Prop where
  size_le : st.scopes.size ≤ st'.scopes.size
  scopes_eq : ∀ i < st.scopes.size, st'.scopes[i]? = st.scopes[i]?

variable {scope : ScopeId} {names : List String} {st st' st'' : Store}

theorem Preserved.framed (h : st.Preserved st') : st.Framed scope names st' := by
  constructor
  · exact h.size_le
  · intro i hi _
    exact h.scopes_eq i hi
  · intro sc hsc
    obtain ⟨hlt, -⟩ := Array.getElem?_eq_some_iff.mp hsc
    refine ⟨sc, ?_, .refl sc⟩
    rw [h.scopes_eq scope hlt, hsc]

theorem Preserved.of_scopes_eq (h : st'.scopes = st.scopes) : st.Preserved st' := by
  constructor
  · exact Nat.le_of_eq (congrArg Array.size h.symm)
  · intro i _
    rw [h]

theorem Framed.trans (h : st.Framed scope names st') (h' : st'.Framed scope names st'') :
    st.Framed scope names st'' := by
  constructor
  · exact Nat.le_trans h.size_le h'.size_le
  · intro i hi hne
    have hi' : i < st'.scopes.size := Nat.lt_of_lt_of_le hi h.size_le
    rw [h'.others i hi' hne, h.others i hi hne]
  · intro sc hsc
    obtain ⟨sc', hsc', hframed⟩ := h.own sc hsc
    obtain ⟨sc'', hsc'', hframed'⟩ := h'.own sc' hsc'
    exact ⟨sc'', hsc'', hframed.trans hframed'⟩

theorem Framed.mono {more : List String} (h : st.Framed scope names st') (hsub : names ⊆ more) :
    st.Framed scope more st' := by
  constructor
  · exact h.size_le
  · exact h.others
  · intro sc hsc
    obtain ⟨sc', hsc', hframed⟩ := h.own sc hsc
    exact ⟨sc', hsc', hframed.mono hsub⟩

theorem Framed.bind {name : String} (hname : name ∈ names) (st : Store) (v : Value) :
    st.Framed scope names (st.bind scope name v) := by
  constructor
  · exact Nat.le_of_eq (Store.size_bind st scope name v).symm
  · intro i _ hne
    rw [Store.scopes_bind, if_neg (Ne.symm hne)]
  · intro sc hsc
    refine ⟨sc.bind name v, ?_, .bind hname sc v⟩
    rw [Store.scopes_bind, if_pos rfl, hsc]
    rfl

theorem Framed.refl (st : Store) : st.Framed scope names st :=
  (Preserved.of_scopes_eq rfl).framed

/-- To be framed by an earlier store is an invariant of the scopes. -/
theorem Framed.ofScopes (st : Store) : OfScopes (st.Framed scope names) := by
  intro mid st' hscopes h
  exact h.trans (Preserved.of_scopes_eq hscopes).framed

/-- What happens in a scope that is new, after parameters were bound in it, is
seen in none of the others. -/
theorem Preserved.of_framed_opened {outer : Option ScopeId} {bindings : List (String × Value)}
    (h : ((st.openScope outer).2.bindAll st.scopes.size bindings).Framed st.scopes.size names
      st') : st.Preserved st' := by
  have hsize : ((st.openScope outer).2.bindAll st.scopes.size bindings).scopes.size =
      st.scopes.size + 1 := by
    rw [Store.size_bindAll]
    exact Array.size_push _
  constructor
  · have hle := h.size_le
    omega
  · intro i hi
    have hlt : i < st.scopes.size + 1 := Nat.lt_succ_of_lt hi
    have hne : st.scopes.size ≠ i := Nat.ne_of_gt hi
    rw [h.others i (hsize ▸ hlt) hne.symm, Store.scopes_bindAll_of_ne _ hne]
    simp only [Store.openScope, Array.getElem?_push, if_neg hne.symm]

end Store

/-- An evaluator of the parts of nodes that writes only to the scope that it is
given, and only names that a part names. -/
abbrev RunsFramed (run : Node → ScopeId → Action) : Prop :=
  ∀ node scope st v st', run node scope st = some (v, st') → st.Framed scope node.lets st'

section Step

variable {run : Node → ScopeId → Action}

theorem enter_preserved (hrun : RunsFramed run) {bindings : List (String × Value)} {body : Block}
    {outer : ScopeId} {st st' : Store} {v : Value}
    (h : enter run bindings body outer st = some (v, st')) : st.Preserved st' := by
  have hbody : ∀ start : Store, ((run (.block body) st.scopes.size).unwrapped).Keeps
      (start.Framed st.scopes.size (Block.lets body)) fun _ => True := by
    intro start
    apply keepsOr_unwrapped _ fun _ h => h
    apply keeps_of_forall
    intro mid w mid' hmid hw
    exact ⟨hmid.trans (hrun _ _ _ _ _ hw), trivial⟩
  have hframed := ((hbody _).of_some (Store.Framed.refl _) h).1
  have hopened : st.tick.Preserved st' := Store.Preserved.of_framed_opened hframed
  exact ⟨hopened.size_le, hopened.scopes_eq⟩

/-- A call writes to no scope that is there before it: neither to the scope that
it comes from, nor to the one that the function captured. -/
theorem apply_preserved (hrun : RunsFramed run) {callee : Value} {args : List Value}
    {st st' : Store} {v : Value} (h : apply run callee args st = some (v, st')) :
    st.Preserved st' := by
  have hfail : ∀ (e : RuntimeError), fail e st = some (v, st') → st.Preserved st' := by
    intro e he
    cases he
    exact .of_scopes_eq rfl
  cases callee with
  | function id params body scope =>
    simp only [apply] at h
    split at h
    · exact enter_preserved hrun h
    · exact hfail _ h
  | builtin b =>
    simp only [apply] at h
    cases hcall : b.call st.clock args with
    | ok w =>
      rw [hcall] at h
      cases h
      exact .of_scopes_eq rfl
    | error e =>
      rw [hcall] at h
      cases h
      exact .of_scopes_eq rfl
  | _ => exact hfail _ h

variable {scope : ScopeId} {names : List String} (start : Store)

/-- A part of a node is framed as the node is. -/
theorem RunsFramed.keeps (hrun : RunsFramed run) (node : Node) (hsub : node.lets ⊆ names) :
    (run node scope).Keeps (start.Framed scope names) fun _ => True := by
  apply keeps_of_forall
  intro st v st' hst h
  exact ⟨hst.trans ((hrun _ _ _ _ _ h).mono hsub), trivial⟩

theorem ofExcept_framed (r : Except RuntimeError Value) :
    (Action.ofExcept r).Keeps (start.Framed scope names) fun _ => True :=
  keepsOr_ofExcept (Store.Framed.ofScopes start) (fun _ _ => trivial) fun _ => trivial

theorem create_framed (make : Nat → Value) :
    (create make).Keeps (start.Framed scope names) fun _ => True :=
  keepsOr_create (Store.Framed.ofScopes start) fun _ => trivial

theorem apply_framed (hrun : RunsFramed run) (callee : Value) (args : List Value) :
    (apply run callee args).Keeps (start.Framed scope names) fun _ => True := by
  apply keeps_of_forall
  intro st v st' hst h
  exact ⟨hst.trans (apply_preserved hrun h).framed, trivial⟩

theorem inSequence_framed (hrun : RunsFramed run) (scope : ScopeId) (ss : List Statement) :
    (inSequence (fun s => run (.statement s) scope) .null ss).Keeps
      (start.Framed scope (Block.lets ss)) fun _ => True := by
  apply keepsOr_inSequence trivial
  intro s hs
  exact hrun.keeps start (.statement s) (Block.lets_subset hs)

theorem step_framed (hrun : RunsFramed run) (scope : ScopeId) (node : Node) :
    (step run scope node).Keeps (start.Framed scope node.lets) fun _ => True := by
  match node with
  | .program p => exact keepsOr_unwrapped (inSequence_framed start hrun scope p) fun _ h => h
  | .block b => exact inSequence_framed start hrun scope b
  | .statement (.let name e) =>
    apply keepsOr_andThen (hrun.keeps start (.expr e) (List.subset_cons_self _ _))
    intro v _ _
    apply keepsOr_bind (Store.Framed.ofScopes start) _ trivial
    intro st hst
    exact hst.trans (Store.Framed.bind List.mem_cons_self st v)
  | .statement (.return e) =>
    apply keepsOr_andThen (hrun.keeps start (.expr e) (List.Subset.refl _))
    intro v _ _
    exact keepsOr_pure trivial
  | .statement (.expr e) => exact hrun.keeps start (.expr e) (List.Subset.refl _)
  | .expr (.ident name) =>
    exact keepsOr_resolve (Store.Framed.ofScopes start) (fun _ _ _ _ => trivial)
      (fun _ => trivial) fun _ => trivial
  | .expr (.int n) | .expr (.str text) | .expr (.bool b) => exact keepsOr_pure trivial
  | .expr (.unary op a) =>
    apply keepsOr_andThen (hrun.keeps start (.expr a) (List.Subset.refl _))
    intro v _ _
    exact ofExcept_framed start _
  | .expr (.binary op a b) =>
    apply keepsOr_andThen (hrun.keeps start (.expr a) (List.subset_append_left _ _))
    intro v _ _
    apply keepsOr_andThen (hrun.keeps start (.expr b) (List.subset_append_right _ _))
    intro w _ _
    exact ofExcept_framed start _
  | .expr (.cond c t none) =>
    apply keepsOr_andThen (hrun.keeps start (.expr c) (List.subset_append_left _ _))
    intro v _ _
    split
    · exact hrun.keeps start (.block t) (List.subset_append_right _ _)
    · exact keepsOr_pure trivial
  | .expr (.cond c t (some e)) =>
    have hblocks : Block.lets t ++ Block.lets e ⊆ (Expr.cond c t (some e)).lets :=
      List.subset_append_right _ _
    apply keepsOr_andThen (hrun.keeps start (.expr c) (List.subset_append_left _ _))
    intro v _ _
    split
    · exact hrun.keeps start (.block t)
        (List.Subset.trans (List.subset_append_left _ _) hblocks)
    · exact hrun.keeps start (.block e)
        (List.Subset.trans (List.subset_append_right _ _) hblocks)
  | .expr (.function params body) =>
    change (create fun id => .function id params body scope).Keeps _ _
    exact create_framed start _
  | .expr (.call f args) =>
    apply keepsOr_andThen (hrun.keeps start (.expr f) (List.subset_append_left _ _))
    intro callee _ _
    apply keepsOr_gather
    · intro e he
      have hsub : e.lets ⊆ (Expr.call f args).lets :=
        List.Subset.trans (Expr.letsEach_subset he) (List.subset_append_right _ _)
      exact hrun.keeps start (.expr e) hsub
    · intro vs _
      exact apply_framed start hrun callee vs
  | .expr (.vector es) =>
    apply keepsOr_gather
    · intro e he
      exact hrun.keeps start (.expr e) (Expr.letsEach_subset he)
    · intro vs _
      exact create_framed start _
  | .expr (.dict ps) =>
    apply keepsOr_gatherPairs (Store.Framed.ofScopes start)
    · intro p hp
      obtain ⟨hkey, hvalue⟩ := Expr.letsPairs_subset hp
      exact ⟨hrun.keeps start (.expr p.1) hkey, hrun.keeps start (.expr p.2) hvalue⟩
    · exact fun _ => trivial
    · intro entries _
      exact create_framed start _
  | .expr (.index a i) =>
    apply keepsOr_andThen (hrun.keeps start (.expr a) (List.subset_append_left _ _))
    intro v _ _
    apply keepsOr_andThen (hrun.keeps start (.expr i) (List.subset_append_right _ _))
    intro w _ _
    exact ofExcept_framed start _

end Step

/-- At every depth, evaluation writes to one scope only. -/
theorem eval_framed (depth : Nat) : RunsFramed (eval depth) := by
  induction depth with
  | zero =>
    intro node scope st v st' h
    cases h
  | succ depth ih =>
    intro node scope st v st' h
    have hstart : st.Framed scope node.lets (st.arrive node) :=
      (Store.Preserved.of_scopes_eq (st.scopes_arrive node)).framed
    exact ((step_framed st ih scope node).of_some hstart h).1

theorem call_preserved (depth : Nat) {callee : Value} {args : List Value} {st st' : Store}
    {v : Value} (h : call depth callee args st = some (v, st')) : st.Preserved st' :=
  apply_preserved (eval_framed depth) h

/-- Evaluation in a scope, if it comes to an end, changes no other scope that was
there before. In its own scope it removes no name, and changes the bindings of
those names only for which a `let` occurs in the node outside all function
literals. A call changes no scope that was there before. -/
theorem evaluation_writes_own_scope :
    (∀ depth node scope st v st', eval depth node scope st = some (v, st') →
      st.Framed scope node.lets st') ∧
    ∀ depth callee args st v st', call depth callee args st = some (v, st') →
      st.Preserved st' := by
  constructor
  · intro depth node scope st v st' h
    exact eval_framed depth node scope st v st' h
  · intro depth callee args st v st' h
    exact call_preserved depth h

/-- The statement `let x = 1` in a fresh session, and a call of `fn() { let x = 2 }`
after it. -/
theorem evaluation_writes_own_scope_let :
    eval 2 (.statement (.let "x" (.int 1))) 0 Session.fresh.store =
        some (.null, ⟨#[⟨none, [("x", .int 1)]⟩], 3, []⟩) ∧
      Session.fresh.store.Framed 0 ["x"] ⟨#[⟨none, [("x", .int 1)]⟩], 3, []⟩ ∧
      call 3 (.function 0 [] [.let "x" (.int 2)] 0) [] ⟨#[⟨none, [("x", .int 1)]⟩], 3, []⟩ =
        some (.null,
          ⟨#[⟨none, [("x", .int 1)]⟩, ⟨some 0, [("x", .int 2)]⟩], 7, []⟩) ∧
      Store.Preserved ⟨#[⟨none, [("x", .int 1)]⟩], 3, []⟩
        ⟨#[⟨none, [("x", .int 1)]⟩, ⟨some 0, [("x", .int 2)]⟩], 7, []⟩ := by
  have heval : eval 2 (.statement (.let "x" (.int 1))) 0 Session.fresh.store =
      some (.null, ⟨#[⟨none, [("x", .int 1)]⟩], 3, []⟩) := rfl
  have hcall : call 3 (.function 0 [] [.let "x" (.int 2)] 0) []
      ⟨#[⟨none, [("x", .int 1)]⟩], 3, []⟩ =
        some (.null, ⟨#[⟨none, [("x", .int 1)]⟩, ⟨some 0, [("x", .int 2)]⟩], 7, []⟩) := rfl
  have hframed := evaluation_writes_own_scope.1 2 _ _ _ _ _ heval
  have hpreserved := evaluation_writes_own_scope.2 3 _ _ _ _ _ hcall
  exact ⟨heval, hframed, hcall, hpreserved⟩

end Monkey
