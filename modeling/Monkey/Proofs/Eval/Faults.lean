import Monkey.Proofs.Eval.Clean

/-!
A fault is the last thing that happens. Whatever is evaluated in a clean store
either records no fault and comes to something that is not an error, or records
one fault, comes to the error of that fault, and does nothing after it.

That nothing was done since a fault arose is what its time says. Every statement
and every expression that is evaluated takes time, and so does every change of a
scope and every new scope; and the time of the fault is still the present one.
-/

open Monkey.Action

namespace Monkey

namespace Store

/-- A later store: without time nothing changes. -/
structure Later (st st' : Store) : Prop where
  clock_le : st.clock ≤ st'.clock
  scopes_eq : st'.clock = st.clock → st'.scopes = st.scopes

/-- How what starts in a store may end. -/
inductive Ends (st : Store) : Value → Store → Prop where
  | well {v : Value} {st' : Store} :
      v.isError = false → st'.faults = st.faults → st.Ends v st'
  /-- The fault arose at the end. -/
  | fault {message : String} {st' : Store} :
      st'.faults = ⟨message, st'.clock⟩ :: st.faults → st.Ends (.error message) st'

variable {st mid st' : Store} {v w : Value}

theorem Later.refl (st : Store) : st.Later st := ⟨Nat.le_refl _, fun _ => rfl⟩

theorem Later.trans (h : st.Later mid) (h' : mid.Later st') : st.Later st' := by
  have hle := h.clock_le
  have hle' := h'.clock_le
  constructor
  · exact Nat.le_trans hle hle'
  · intro heq
    rw [h'.scopes_eq (by omega), h.scopes_eq (by omega)]

theorem Later.of_lt (h : st.clock < st'.clock) : st.Later st' :=
  ⟨Nat.le_of_lt h, fun heq => absurd heq (Nat.ne_of_gt h)⟩

/-- What is gone on with was no fault. -/
theorem Ends.faults_eq (h : st.Ends v st') (hproceeds : v.isAbrupt = false) :
    st'.faults = st.faults := by
  cases h with
  | well _ hfaults => exact hfaults
  | fault _ => cases hproceeds

theorem Ends.of_faults_eq (h : mid.Ends v st') (hfaults : mid.faults = st.faults) :
    st.Ends v st' := by
  cases h with
  | well hv hend => exact .well hv (hend.trans hfaults)
  | fault hend => exact .fault (hfaults ▸ hend)

theorem Ends.unwrap (h : st.Ends v st') (hv : v.Settled) : st.Ends v.unwrap st' := by
  cases h with
  | well hne hfaults =>
    cases hv with
    | clean hclean =>
      cases hclean <;> exact .well rfl hfaults
    | error message => cases hne
    | returned hclean =>
      cases hclean <;> exact .well rfl hfaults
  | fault hfaults => exact .fault hfaults

/-- The outcome of what was evaluated in a clean store. -/
structure Reported (st : Store) (v : Value) (st' : Store) : Prop where
  clean : st'.Clean
  settled : v.Settled
  later : st.Later st'
  ends : st.Ends v st'

/-- One thing was done after another. -/
theorem Reported.andThen (h : st.Reported v mid) (hproceeds : v.isAbrupt = false)
    (h' : mid.Reported w st') : st.Reported w st' := by
  constructor
  · exact h'.clean
  · exact h'.settled
  · exact h.later.trans h'.later
  · exact h'.ends.of_faults_eq (h.ends.faults_eq hproceeds)

/-- Time passed before anything else was done. -/
theorem Reported.of_lt (h : mid.Reported v st') (hclock : st.clock < mid.clock)
    (hfaults : mid.faults = st.faults) : st.Reported v st' := by
  constructor
  · exact h.clean
  · exact h.settled
  · exact .of_lt (Nat.lt_of_lt_of_le hclock h.later.clock_le)
  · exact h.ends.of_faults_eq hfaults

theorem Reported.of_tick (h : st.tick.Reported v st') : st.Reported v st' :=
  h.of_lt (Nat.lt_succ_self st.clock) rfl

theorem Reported.of_arrive {node : Node} (h : (st.arrive node).Reported v st') :
    st.Reported v st' := by
  cases node with
  | program p | block b => exact h
  | statement s | expr e => exact h.of_tick

theorem Clean.arrive (hst : st.Clean) (node : Node) : (st.arrive node).Clean :=
  Clean.ofScopes st _ (st.scopes_arrive node) hst

end Store

namespace Value

theorem Clean.isError_eq_false {v : Value} (h : v.Clean) : v.isError = false := by
  cases h <;> rfl

end Value

namespace Action

/-- Comes to an end in clean stores only with a report. -/
def Reports (a : Action) : Prop :=
  ∀ st v st', st.Clean → a st = some (v, st') → st.Reported v st'

variable {a : Action}

theorem reports_stuck : stuck.Reports := by
  intro st v st' _ h
  cases h

theorem reports_pure {v : Value} (hv : v.Settled) (hne : v.isError = false) :
    (pure v).Reports := by
  intro st w st' hst h
  cases h
  exact ⟨hst, hv, .refl st, .well hne rfl⟩

theorem reports_clean {v : Value} (hv : v.Clean) : (pure v).Reports :=
  reports_pure (.clean hv) hv.isError_eq_false

theorem reports_fail (e : RuntimeError) : (fail e).Reports := by
  intro st w st' hst h
  cases h
  exact ⟨Store.Clean.ofScopes st _ rfl hst, .error _, ⟨Nat.le_refl _, fun _ => rfl⟩, .fault rfl⟩

theorem reports_ofExcept {r : Except RuntimeError Value} (h : ∀ v, r = .ok v → v.Clean) :
    (ofExcept r).Reports := by
  cases r with
  | ok v => exact reports_clean (h v rfl)
  | error e => exact reports_fail e

theorem reports_create {make : Nat → Value} (hmake : ∀ id, (make id).Clean) :
    (create make).Reports := by
  intro st w st' hst h
  cases h
  exact ⟨Store.Clean.ofScopes st _ rfl hst, .clean (hmake _), .of_lt (Nat.lt_succ_self _),
    .well (hmake _).isError_eq_false rfl⟩

theorem reports_bind (scope : ScopeId) (name : String) {v : Value} (hv : v.Clean) :
    (bind scope name v).Reports := by
  intro st w st' hst h
  cases h
  exact ⟨(Store.Clean.ofScopes st _ rfl hst).bind scope name hv, .clean .null,
    .of_lt (Nat.lt_succ_self _), .well rfl rfl⟩

theorem reports_resolve (scope : ScopeId) (name : String) : (resolve scope name).Reports := by
  intro st w st' hst h
  obtain ⟨hv, rfl⟩ | ⟨b, rfl, rfl⟩ | hfail := resolve_cases h
  · exact reports_clean (hst.lookup hv) _ _ _ hst rfl
  · exact reports_clean (.builtin b) _ _ _ hst rfl
  · exact reports_fail _ _ _ _ hst hfail

theorem reports_andThen {next : Value → Action} (ha : a.Reports)
    (hnext : ∀ v, v.Clean → (next v).Reports) : (a.andThen next).Reports := by
  intro st w st' hst h
  obtain ⟨ha', -⟩ | ⟨v, mid, ha', hproceeds, hnext'⟩ := andThen_cases h
  · exact ha st w st' hst ha'
  · have hmid := ha st v mid hst ha'
    have hv := hmid.settled.clean_of_proceeds hproceeds
    exact hmid.andThen hproceeds (hnext v hv mid w st' hmid.clean hnext')

theorem reports_unwrapped (ha : a.Reports) : a.unwrapped.Reports := by
  intro st w st' hst h
  obtain ⟨v, ha', rfl⟩ := unwrapped_cases h
  have hend := ha st v st' hst ha'
  exact ⟨hend.clean, hend.settled.unwrap.settled, hend.later, hend.ends.unwrap hend.settled⟩

theorem reports_inSequence {run : Statement → Action} {last : Value} {ss : List Statement}
    (hlast : last.Clean) (hrun : ∀ s, (run s).Reports) : (inSequence run last ss).Reports := by
  induction ss generalizing last with
  | nil => exact reports_clean hlast
  | cons s ss ih =>
    apply reports_andThen (hrun s)
    intro v hv
    exact ih hv

theorem reports_gather {run : Expr → Action} {es : List Expr} {next : List Value → Action}
    (hrun : ∀ e, (run e).Reports)
    (hnext : ∀ vs : List Value, (∀ v ∈ vs, v.Clean) → (next vs).Reports) :
    (gather run es next).Reports := by
  induction es generalizing next with
  | nil =>
    apply hnext
    intro v hv
    cases hv
  | cons e es ih =>
    apply reports_andThen (hrun e)
    intro v hv
    apply ih
    intro vs hvs
    exact hnext (v :: vs) (List.forall_mem_cons.mpr ⟨hv, hvs⟩)

theorem reports_gatherPairs {run : Expr → Action} {ps : List (Expr × Expr)}
    {next : List (Key × Value) → Action} (hrun : ∀ e, (run e).Reports)
    (hnext : ∀ es : List (Key × Value), (∀ e ∈ es, e.2.Clean) → (next es).Reports) :
    (gatherPairs run ps next).Reports := by
  induction ps generalizing next with
  | nil =>
    apply hnext
    intro e he
    cases he
  | cons p ps ih =>
    obtain ⟨k, e⟩ := p
    apply reports_andThen (hrun k)
    intro v _
    split
    · exact reports_fail _
    · rename_i key _
      apply reports_andThen (hrun e)
      intro w hw
      apply ih
      intro es hes
      exact hnext ((key, w) :: es) (List.forall_mem_cons.mpr ⟨hw, hes⟩)

end Action

/-- An evaluator of the parts of nodes that reports what goes wrong. -/
abbrev RunsReport (run : Node → ScopeId → Action) : Prop :=
  ∀ node scope, (run node scope).Reports

section Step

variable {run : Node → ScopeId → Action}

theorem enter_reports (hrun : RunsReport run) {bindings : List (String × Value)}
    (hbindings : ∀ b ∈ bindings, b.2.Clean) (body : Block) (outer : ScopeId) :
    (enter run bindings body outer).Reports := by
  intro st v st' hst h
  have hopened : (st.tick.openScope (some outer)).2.Clean :=
    (Store.Clean.ofScopes st st.tick rfl hst).openScope (some outer)
  have hbody := reports_unwrapped (hrun (.block body) st.scopes.size) _ v st'
    (hopened.bindAll st.scopes.size hbindings) h
  apply hbody.of_lt
  · rw [Store.clock_bindAll]
    exact Nat.lt_succ_self _
  · rw [Store.faults_bindAll]
    rfl

theorem apply_reports (hrun : RunsReport run) (callee : Value) {args : List Value}
    (hargs : ∀ v ∈ args, v.Clean) : (apply run callee args).Reports := by
  cases callee with
  | function id params body scope =>
    simp only [apply]
    split
    · apply enter_reports hrun
      intro b hb
      exact hargs b.2 (List.of_mem_zip hb).2
    · exact reports_fail _
  | builtin b =>
    intro st v st' hst h
    have hcall : (ofExcept (b.call st.clock args)).Reports :=
      reports_ofExcept fun v hv => Value.clean_inherited.call hargs hv
    exact (hcall st.tick v st' (Store.Clean.ofScopes st _ rfl hst) h).of_tick
  | _ => exact reports_fail _

theorem step_reports (hrun : RunsReport run) (scope : ScopeId) (node : Node) :
    (step run scope node).Reports := by
  match node with
  | .program p => exact reports_unwrapped (reports_inSequence .null fun s => hrun _ _)
  | .block b => exact reports_inSequence .null fun s => hrun _ _
  | .statement (.let name e) =>
    apply reports_andThen (hrun _ _)
    intro v hv
    exact reports_bind scope name hv
  | .statement (.return e) =>
    apply reports_andThen (hrun _ _)
    intro v hv
    exact reports_pure (.returned hv) rfl
  | .statement (.expr e) => exact hrun _ _
  | .expr (.ident name) => exact reports_resolve scope name
  | .expr (.int n) => exact reports_clean (.int n)
  | .expr (.str text) => exact reports_clean (.str text)
  | .expr (.bool b) => exact reports_clean (.bool b)
  | .expr (.unary op a) =>
    apply reports_andThen (hrun _ _)
    intro v _
    exact reports_ofExcept fun r hr => (UnaryOp.plain_of_apply hr).clean
  | .expr (.binary op a b) =>
    apply reports_andThen (hrun _ _)
    intro v _
    apply reports_andThen (hrun _ _)
    intro w _
    exact reports_ofExcept fun r hr => (BinaryOp.plain_of_apply hr).clean
  | .expr (.cond c t e) =>
    apply reports_andThen (hrun _ _)
    intro v _
    split
    · exact hrun _ _
    · split
      · exact hrun _ _
      · exact reports_clean .null
  | .expr (.function params body) =>
    change (create fun id => .function id params body scope).Reports
    exact reports_create fun id => .function id params body scope
  | .expr (.call f args) =>
    apply reports_andThen (hrun _ _)
    intro callee _
    apply reports_gather fun e => hrun _ _
    intro vs hvs
    exact apply_reports hrun callee hvs
  | .expr (.vector es) =>
    apply reports_gather fun e => hrun _ _
    intro vs hvs
    exact reports_create fun id => .vector id hvs
  | .expr (.dict ps) =>
    apply reports_gatherPairs fun e => hrun _ _
    intro entries hentries
    exact reports_create fun id => .dict id (Dict.clean_ofPairs hentries)
  | .expr (.index a i) =>
    apply reports_andThen (hrun _ _)
    intro v hv
    apply reports_andThen (hrun _ _)
    intro w _
    exact reports_ofExcept fun r hr => Value.clean_inherited.index hv hr

end Step

/-- At every depth, evaluation reports what goes wrong. -/
theorem eval_reports (depth : Nat) : RunsReport (eval depth) := by
  induction depth with
  | zero => exact fun node scope => reports_stuck
  | succ depth ih =>
    intro node scope st v st' hst h
    exact (step_reports ih scope node _ v st' (hst.arrive node) h).of_arrive

/-- What is come to takes its time before any of its parts. -/
theorem eval_reports_of_arrive {depth : Nat} {node : Node} {scope : ScopeId} {st st' : Store}
    {v : Value} (hst : st.Clean) (h : eval depth node scope st = some (v, st')) :
    (st.arrive node).Reported v st' := by
  cases depth with
  | zero => cases h
  | succ depth => exact step_reports (eval_reports depth) scope node _ v st' (hst.arrive node) h

theorem call_reports (depth : Nat) (callee : Value) {args : List Value}
    (hargs : ∀ v ∈ args, v.Clean) : (call depth callee args).Reports :=
  apply_reports (eval_reports depth) callee hargs

/-- A program that is evaluated in a clean store either records no fault, and is not
an error, or records one fault, at the very end, and is the error of that fault; the
same holds of everything that is evaluated in it, and of calls. The end is the time
at which nothing was done any more: every statement and expression that is evaluated
takes time, and without time no scope is new or changed. -/
theorem first_fault_ends_program :
    (∀ depth p scope st v st', st.Clean → eval depth (.program p) scope st = some (v, st') →
      (v.isError = false ∧ st'.faults = st.faults) ∨
        ∃ message, v = .error message ∧ st'.faults = ⟨message, st'.clock⟩ :: st.faults) ∧
    (∀ depth node scope st v st', st.Clean → eval depth node scope st = some (v, st') →
      st.Ends v st' ∧ (st.arrive node).Later st') ∧
    ∀ depth callee args st v st', st.Clean → (∀ a ∈ args, a.Clean) →
      call depth callee args st = some (v, st') → st.Ends v st' ∧ st.Later st' := by
  refine ⟨?_, ?_, ?_⟩
  · intro depth p scope st v st' hst h
    cases (eval_reports depth _ _ st v st' hst h).ends with
    | well hv hfaults => exact .inl ⟨hv, hfaults⟩
    | fault hfaults => exact .inr ⟨_, rfl, hfaults⟩
  · intro depth node scope st v st' hst h
    exact ⟨(eval_reports depth _ _ st v st' hst h).ends, (eval_reports_of_arrive hst h).later⟩
  · intro depth callee args st v st' hst hargs h
    have hcall := call_reports depth callee hargs st v st' hst h
    exact ⟨hcall.ends, hcall.later⟩

/-- The program `let x = 1; fn() { 1 + true; y }(); let z = 2` in a fresh session, and the
call `len()` after it. -/
theorem first_fault_ends_program_mismatch :
    Session.fresh.store.Clean ∧
      eval 8 (.program [.let "x" (.int 1),
          .expr (.call (.function []
            [.expr (.binary .plus (.int 1) (.bool true)), .expr (.ident "y")]) []),
          .let "z" (.int 2)]) 0 Session.fresh.store =
        some (.error "type mismatch: int + bool",
          ⟨#[⟨none, [("x", .int 1)]⟩, ⟨some 0, []⟩], 12, [⟨"type mismatch: int + bool", 12⟩]⟩) ∧
      (∃ message, Value.error "type mismatch: int + bool" = .error message ∧
        [(⟨"type mismatch: int + bool", 12⟩ : Fault)] = [⟨message, 12⟩]) ∧
      Session.fresh.store.Later
        ⟨#[⟨none, [("x", .int 1)]⟩, ⟨some 0, []⟩], 12, [⟨"type mismatch: int + bool", 12⟩]⟩ ∧
      call 0 (.builtin .len) [] Session.fresh.store =
        some (.error "wrong number of arguments. expected=1, got=0",
          ⟨#[⟨none, []⟩], 1, [⟨"wrong number of arguments. expected=1, got=0", 1⟩]⟩) ∧
      Session.fresh.store.Ends (.error "wrong number of arguments. expected=1, got=0")
        ⟨#[⟨none, []⟩], 1, [⟨"wrong number of arguments. expected=1, got=0", 1⟩]⟩ := by
  have hfresh := Session.fresh_clean
  have heval : eval 8 (.program [.let "x" (.int 1),
      .expr (.call (.function []
        [.expr (.binary .plus (.int 1) (.bool true)), .expr (.ident "y")]) []),
      .let "z" (.int 2)]) 0 Session.fresh.store =
        some (.error "type mismatch: int + bool",
          ⟨#[⟨none, [("x", .int 1)]⟩, ⟨some 0, []⟩], 12,
            [⟨"type mismatch: int + bool", 12⟩]⟩) := rfl
  have hcall : call 0 (.builtin .len) [] Session.fresh.store =
      some (.error "wrong number of arguments. expected=1, got=0",
        ⟨#[⟨none, []⟩], 1, [⟨"wrong number of arguments. expected=1, got=0", 1⟩]⟩) := rfl
  have hfault := first_fault_ends_program.1 8 _ _ _ _ _ hfresh heval
  have hlater := (first_fault_ends_program.2.1 8 _ _ _ _ _ hfresh heval).2
  have hends := (first_fault_ends_program.2.2 0 _ [] _ _ _ hfresh (by simp) hcall).1
  refine ⟨hfresh, heval, ?_, hlater, hcall, hends⟩
  exact hfault.resolve_left fun hwell => Bool.noConfusion hwell.1

end Monkey
