import Monkey.Proofs.Eval.WellFormed

/-!
The moments of a run. At any moment there is a store, and there are values in hand: what
was evaluated, what names mean and what is inside of these. Moments follow each other
from a fresh session on. Between two of them lies a single thing that is done to the
store, or all that the evaluation of a node or a call does; so there are moments between
programs, and also while a program runs, in whatever function it is.

Each moment is in a world of every growth that starts with a fresh session. So what is
known of worlds is known of all moments.
-/

namespace Monkey

/-- A store that a run may come upon, with values in hand. -/
inductive Moment : Store → List Value → Prop where
  | fresh : Moment Session.fresh.store []
  | tick {st : Store} {vs : List Value} : Moment st vs → Moment st.tick vs
  | fail {st : Store} {vs : List Value} (message : String) :
      Moment st vs → Moment (st.fail message) vs
  | bind {st : Store} {vs : List Value} {v : Value} (scope : ScopeId) (name : String) :
      Moment st vs → v ∈ vs → Moment (st.bind scope name v) vs
  | openScope {st : Store} {vs : List Value} {outer : ScopeId} :
      Moment st vs → outer < st.scopes.size → Moment (st.openScope (some outer)).2 vs
  | eval {st st' : Store} {vs : List Value} {v : Value} {depth : Nat} {node : Node}
      {scope : ScopeId} :
      Moment st vs → scope < st.scopes.size → eval depth node scope st = some (v, st') →
      Moment st' (v :: vs)
  | call {st st' : Store} {vs args : List Value} {v callee : Value} {depth : Nat} :
      Moment st vs → callee ∈ vs → (∀ a ∈ args, a ∈ vs) →
      call depth callee args st = some (v, st') → Moment st' (v :: vs)
  | lookup {st : Store} {vs : List Value} {v : Value} {scope : ScopeId} {name : String} :
      Moment st vs → st.lookup scope name = some v → Moment st (v :: vs)
  | part {st : Store} {vs : List Value} {u v : Value} :
      Moment st vs → v ∈ vs → u ∈ v.parts → Moment st (u :: vs)

theorem Moment.exists_world (G : Growth) (start : G.World)
    (hstart : G.store start = Session.fresh.store) {st : Store} {vs : List Value}
    (h : Moment st vs) : ∃ w, G.store w = st ∧ ∀ v ∈ vs, G.Holds w v := by
  have hmore : ∀ {w w' : G.World} {u : Value} {us : List Value}, G.Later w w' → G.Holds w' u →
      (∀ v ∈ us, G.Holds w v) → ∀ v ∈ u :: us, G.Holds w' v := fun hlater hu hus =>
    List.forall_mem_cons.mpr ⟨hu, fun v hv => G.holds_later hlater (hus v hv)⟩
  induction h with
  | fresh => exact ⟨start, hstart, nofun⟩
  | tick _ ih =>
    obtain ⟨w, rfl, hvs⟩ := ih
    obtain ⟨w', hlater, hstore⟩ := G.tick w
    exact ⟨w', hstore, fun v hv => G.holds_later hlater (hvs v hv)⟩
  | fail message _ ih =>
    obtain ⟨w, rfl, hvs⟩ := ih
    obtain ⟨w', hlater, hstore⟩ := G.fail w message
    exact ⟨w', hstore, fun v hv => G.holds_later hlater (hvs v hv)⟩
  | bind scope name _ hv ih =>
    obtain ⟨w, rfl, hvs⟩ := ih
    obtain ⟨w', hlater, hstore⟩ := G.bind scope name (hvs _ hv)
    exact ⟨w', hstore, fun v hv => G.holds_later hlater (hvs v hv)⟩
  | openScope _ houter ih =>
    obtain ⟨w, rfl, hvs⟩ := ih
    obtain ⟨w', hlater, hstore⟩ := G.openScope houter
    exact ⟨w', hstore, fun v hv => G.holds_later hlater (hvs v hv)⟩
  | eval _ hscope h ih =>
    obtain ⟨w, rfl, hvs⟩ := ih
    obtain ⟨w', hlater, hstore, hv⟩ := eval_grows G _ _ _ w hscope w _ _ (G.later_refl w) h
    exact ⟨w', hstore, hmore hlater hv hvs⟩
  | call _ hcallee hargs h ih =>
    obtain ⟨w, rfl, hvs⟩ := ih
    obtain ⟨w', hlater, hstore, hv⟩ :=
      call_grows G _ (hvs _ hcallee) (fun a ha => hvs a (hargs a ha)) h
    exact ⟨w', hstore, hmore hlater hv hvs⟩
  | lookup _ h ih =>
    obtain ⟨w, rfl, hvs⟩ := ih
    exact ⟨w, rfl, hmore (G.later_refl w) (G.holds_lookup h) hvs⟩
  | part _ hv hu ih =>
    obtain ⟨w, rfl, hvs⟩ := ih
    exact ⟨w, rfl, hmore (G.later_refl w) (G.holds_part (hvs _ hv) hu) hvs⟩

/-- The end of a program is a moment of the run. -/
theorem Session.Reachable.moment {s : Session} (h : s.Reachable) :
    ∃ vs, Moment s.store vs := by
  induction h with
  | fresh => exact ⟨[], .fresh⟩
  | @eval s s' depth p v hs hrun ih =>
    obtain ⟨vs, hmoment⟩ := ih
    unfold Session.eval at hrun
    split at hrun
    · cases hrun
    · rename_i heval
      cases hrun
      exact ⟨_, hmoment.eval hs.wellFormed.root_lt heval⟩

end Monkey
