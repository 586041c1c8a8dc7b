import Monkey.Proofs.Eval.WellFormed

/-!
The ledger of a run. For each identity it has the object that was made with it.
Evaluation adds an entry with each object that it makes, at the present time, and never
changes one; all that names and values lead to agrees with the ledger. So two objects
that are identical are one and the same, wherever and whenever they come up in a run.
-/

namespace Monkey

namespace Value

/-- The identity of an object. -/
def identity? : Value → Option Nat
  | .function id .. | .vector id _ | .dict id _ => some id
  | _ => none

theorem eq_or_identity_of_isIdentical {v w : Value} (h : v.isIdentical w = true) :
    v = w ∨ ∃ id, v.identity? = some id ∧ w.identity? = some id := by
  unfold isIdentical at h
  split at h
  · exact .inl (congrArg Value.int (eq_of_beq h))
  · exact .inl (congrArg Value.str (eq_of_beq h))
  · exact .inl (congrArg Value.bool (eq_of_beq h))
  · exact .inl rfl
  · exact .inr ⟨_, rfl, congrArg some (eq_of_beq h).symm⟩
  · exact .inr ⟨_, rfl, congrArg some (eq_of_beq h).symm⟩
  · exact .inr ⟨_, rfl, congrArg some (eq_of_beq h).symm⟩
  · exact .inl (congrArg Value.builtin (eq_of_beq h))
  · cases h

/-- An object is identical to nothing that has another identity or none. -/
theorem isIdentical_eq_false {v w : Value} {id : Nat} (hv : v.identity? ≠ some id)
    (hw : w.identity? = some id) : v.isIdentical w = false ∧ w.isIdentical v = false := by
  constructor
  · apply Bool.eq_false_iff.mpr
    intro h
    obtain rfl | ⟨id', hid, hid'⟩ := eq_or_identity_of_isIdentical h
    · exact hv hw
    · exact hv (hid.trans (hid'.symm.trans hw))
  · apply Bool.eq_false_iff.mpr
    intro h
    obtain rfl | ⟨id', hid, hid'⟩ := eq_or_identity_of_isIdentical h
    · exact hv hw
    · exact hv (hid'.trans (hid.symm.trans hw))

theorem Within.identity_lt {clock size id : Nat} {v : Value} (h : v.Within clock size)
    (hid : v.identity? = some id) : id < clock := by
  cases h with
  | function _ _ hlt _ | vector hlt _ | dict hlt _ =>
    cases hid
    exact hlt
  | _ => cases hid

/-- Every object in the value is the one that the ledger has for its identity. -/
inductive Filed (ledger : Nat → Value) : Value → Prop where
  | int (n : Int64) : Filed ledger (.int n)
  | str (text : String) : Filed ledger (.str text)
  | bool (b : Bool) : Filed ledger (.bool b)
  | null : Filed ledger .null
  | builtin (b : Builtin) : Filed ledger (.builtin b)
  | error (message : String) : Filed ledger (.error message)
  | returned {v : Value} : Filed ledger v → Filed ledger (.returned v)
  | function {id : Nat} {params : List String} {body : Block} {scope : ScopeId} :
      ledger id = .function id params body scope → Filed ledger (.function id params body scope)
  | vector {id : Nat} {elements : List Value} :
      ledger id = .vector id elements → (∀ v ∈ elements, Filed ledger v) →
      Filed ledger (.vector id elements)
  | dict {id : Nat} {entries : List (Key × Value)} :
      ledger id = .dict id entries → (∀ e ∈ entries, Filed ledger e.2) →
      Filed ledger (.dict id entries)

namespace Filed

variable {ledger ledger' : Nat → Value} {v w : Value}

theorem of_plain (h : v.Plain) : v.Filed ledger := by
  cases h with
  | int n => exact .int n
  | str text => exact .str text
  | bool b => exact .bool b
  | null => exact .null

theorem of_mem_parts (h : v.Filed ledger) (hw : w ∈ v.parts) : w.Filed ledger := by
  cases h with
  | vector _ helements => exact helements w hw
  | dict _ hentries =>
    obtain ⟨e, he, rfl⟩ := List.mem_map.mp hw
    exact hentries e he
  | _ => cases hw

theorem unwrap (h : v.Filed ledger) : v.unwrap.Filed ledger := by
  cases h with
  | returned hv => exact hv
  | int n => exact .int n
  | str text => exact .str text
  | bool b => exact .bool b
  | null => exact .null
  | builtin b => exact .builtin b
  | error message => exact .error message
  | function hid => exact .function hid
  | vector hid helements => exact .vector hid helements
  | dict hid hentries => exact .dict hid hentries

/-- Entries for objects from later on make no difference. -/
theorem mono {clock size : Nat} (hv : v.Within clock size) (h : v.Filed ledger)
    (hagree : ∀ id < clock, ledger' id = ledger id) : v.Filed ledger' := by
  induction hv with
  | int n => exact .int n
  | str text => exact .str text
  | bool b => exact .bool b
  | null => exact .null
  | builtin b => exact .builtin b
  | error message => exact .error message
  | returned _ ih =>
    cases h with
    | returned h => exact .returned (ih h)
  | function params body hid _ =>
    cases h with
    | function hentry => exact .function ((hagree _ hid).trans hentry)
  | vector hid _ ih =>
    cases h with
    | vector hentry helements =>
      exact .vector ((hagree _ hid).trans hentry) fun v hv => ih v hv (helements v hv)
  | dict hid _ ih =>
    cases h with
    | dict hentry hentries =>
      exact .dict ((hagree _ hid).trans hentry) fun e he => ih e he (hentries e he)

theorem entry_eq {id : Nat} (h : v.Filed ledger) (hid : v.identity? = some id) :
    ledger id = v := by
  cases h with
  | function hentry | vector hentry _ | dict hentry _ =>
    cases hid
    exact hentry
  | _ => cases hid

/-- Identical values are one and the same. -/
theorem eq_of_isIdentical (hv : v.Filed ledger) (hw : w.Filed ledger)
    (h : v.isIdentical w = true) : v = w := by
  obtain heq | ⟨id, hid, hid'⟩ := eq_or_identity_of_isIdentical h
  · exact heq
  · exact (hv.entry_eq hid).symm.trans (hw.entry_eq hid')

end Filed

end Value

/-- A well-formed store with a ledger of all objects that its names lead to. -/
structure Ledger where
  entry : Nat → Value
  store : Store
  wellFormed : store.WellFormed
  filed : store.EveryBound (Value.Filed entry)

namespace Ledger

/-- A ledger that has more in it, and nothing else in place of what was there. -/
structure Later (w w' : Ledger) : Prop where
  grown : w.store.Grown w'.store
  entry_eq : ∀ id < w.store.clock, w'.entry id = w.entry id

/-- Made of objects that are there and in the ledger. -/
structure Holds (w : Ledger) (v : Value) : Prop where
  held : w.store.Holds v
  filed : v.Filed w.entry

variable {w w' : Ledger} {v : Value}

theorem Later.holds (h : w.Later w') (hv : w.Holds v) : w'.Holds v :=
  ⟨h.grown.holds hv.held, hv.filed.mono hv.held h.entry_eq⟩

theorem Later.refl (w : Ledger) : w.Later w := ⟨.refl w.store, fun _ _ => rfl⟩

theorem Later.trans {w'' : Ledger} (h : w.Later w') (h' : w'.Later w'') : w.Later w'' := by
  refine ⟨h.grown.trans h'.grown, fun id hid => ?_⟩
  rw [h'.entry_eq id (Nat.lt_of_lt_of_le hid h.grown.clock_le), h.entry_eq id hid]

/-- With another store, and the same entries. -/
def move (w : Ledger) (st : Store) (hst : st.WellFormed)
    (hfiled : st.EveryBound (Value.Filed w.entry)) : Ledger :=
  ⟨w.entry, st, hst, hfiled⟩

theorem Later.move {st : Store} (hst : st.WellFormed)
    (hfiled : st.EveryBound (Value.Filed w.entry)) (hgrown : w.store.Grown st) :
    w.Later (w.move st hst hfiled) :=
  ⟨hgrown, fun _ _ => rfl⟩

/-- With an entry for an object that is made now. -/
def record (w : Ledger) (v : Value) : Ledger where
  entry id := if id = w.store.clock then v else w.entry id
  store := w.store.tick
  wellFormed := w.wellFormed.tick
  filed := fun sc hsc b hb => by
    apply (w.filed sc hsc b hb).mono (w.wellFormed.holds sc hsc b hb)
    intro id hid
    exact if_neg (Nat.ne_of_lt hid)

theorem Later.record (w : Ledger) (v : Value) : w.Later (w.record v) :=
  ⟨.tick w.store, fun _ hid => if_neg (Nat.ne_of_lt hid)⟩

theorem entry_record (w : Ledger) (v : Value) : (w.record v).entry w.store.clock = v :=
  if_pos rfl

/-- From ledgers to others with more entries. -/
def growth : Growth where
  World := Ledger
  store := Ledger.store
  Later := Later
  Holds := Holds
  later_refl := .refl
  later_trans := .trans
  size_le h := h.grown.size_le
  holds_later h hv := h.holds hv
  holds_plain _ _ hv := ⟨.of_plain hv, .of_plain hv⟩
  holds_builtin _ b := ⟨.builtin b, .builtin b⟩
  holds_error _ message := ⟨.error message, .error message⟩
  holds_returned hv := ⟨.returned hv.held, .returned hv.filed⟩
  holds_unwrap hv := ⟨hv.held.unwrap, hv.filed.unwrap⟩
  holds_part hv hu := ⟨hv.held.of_mem_parts hu, hv.filed.of_mem_parts hu⟩
  holds_lookup {w _ _ _} h := ⟨w.wellFormed.holds.lookup h, w.filed.lookup h⟩
  scope_lt h := Store.growth.scope_lt (w := ⟨_, Ledger.wellFormed _⟩) h.held
  tick w := ⟨w.move w.store.tick w.wellFormed.tick w.filed, .move _ _ (.tick w.store), rfl⟩
  fail w message :=
    ⟨w.move _ (w.wellFormed.fail message) w.filed, .move _ _ (.fail w.store message), rfl⟩
  bind {w v} scope name hv :=
    ⟨w.move _ (w.wellFormed.bind scope name hv.held) (w.filed.bind scope name hv.filed),
      .move _ _ (.bind w.store scope name v), rfl⟩
  openScope {w outer} houter :=
    ⟨w.move _ (w.wellFormed.openInside houter) (w.filed.openScope (some outer)),
      .move _ _ (.openScope w.store (some outer)), rfl⟩
  function {w scope} params body hscope := by
    refine ⟨w.record (.function w.store.clock params body scope), .record w _, rfl, ?_, ?_⟩
    · exact .function params body (Nat.lt_succ_self _) hscope
    · exact .function (entry_record w _)
  vector {w vs} hvs := by
    have hvs' : ∀ v ∈ vs, (w.record (.vector w.store.clock vs)).Holds v :=
      fun v hv => (Later.record w _).holds (hvs v hv)
    refine ⟨w.record (.vector w.store.clock vs), .record w _, rfl, ?_, ?_⟩
    · exact .vector (Nat.lt_succ_self _) fun v hv => (hvs' v hv).held
    · exact .vector (entry_record w _) fun v hv => (hvs' v hv).filed
  dict {w es} _ hes := by
    have hes' : ∀ e ∈ es, (w.record (.dict w.store.clock es)).Holds e.2 :=
      fun e he => (Later.record w _).holds (hes e he)
    refine ⟨w.record (.dict w.store.clock es), .record w _, rfl, ?_, ?_⟩
    · exact .dict (Nat.lt_succ_self _) fun e he => (hes' e he).held
    · exact .dict (entry_record w _) fun e he => (hes' e he).filed

/-- In a fresh session no object was made yet. -/
def fresh : Ledger where
  entry _ := .null
  store := Session.fresh.store
  wellFormed := Session.fresh_wellFormed.store
  filed := Store.EveryBound.empty.openScope none

end Ledger

namespace Session

/-- What programs that were run one after the other, from a fresh session on, have come
to: the value of each and the session after it. The latest comes first. -/
inductive History : List (Value × Session) → Session → Prop where
  | fresh : History [] fresh
  | eval {past : List (Value × Session)} {s s' : Session} {depth : Nat} {p : Program}
      {v : Value} :
      History past s → s.eval depth p = some (v, s') → History ((v, s') :: past) s'

/-- What comes up in a value and a session: the value, what any scope binds, and the
parts of what comes up. -/
inductive Shows (v : Value) (s : Session) : Value → Prop where
  | value : Shows v s v
  | bound {sc : Scope} {b : String × Value} :
      sc ∈ s.store.scopes → b ∈ sc.bindings → Shows v s b.2
  | part {u w : Value} : Shows v s u → w ∈ u.parts → Shows v s w

theorem Shows.holds {v u : Value} {s : Session} {w : Ledger} (h : Shows v s u)
    (hstore : w.store = s.store) (hv : w.Holds v) : w.Holds u := by
  induction h with
  | value => exact hv
  | bound hsc hb =>
    rw [← hstore] at hsc
    exact ⟨w.wellFormed.holds _ hsc _ hb, w.filed _ hsc _ hb⟩
  | part _ hu ih => exact ⟨ih.held.of_mem_parts hu, ih.filed.of_mem_parts hu⟩

/-- There is a ledger of all that has ever come up. -/
theorem History.exists_ledger {past : List (Value × Session)} {s : Session}
    (h : History past s) :
    s.root < s.store.scopes.size ∧ ∃ w : Ledger, w.store = s.store ∧
      ∀ m ∈ past, ∀ u, Shows m.1 m.2 u → w.Holds u := by
  induction h with
  | fresh => exact ⟨fresh_wellFormed.root_lt, Ledger.fresh, rfl, nofun⟩
  | @eval past s s' depth p v _ hrun ih =>
    obtain ⟨hroot, w, hw, hpast⟩ := ih
    unfold Session.eval at hrun
    split at hrun
    · cases hrun
    · rename_i _ store heval
      cases hrun
      rw [← hw] at hroot heval
      obtain ⟨w', hlater, hw', hv⟩ :=
        eval_grows Ledger.growth depth (.program p) s.root w hroot w v store (.refl w) heval
      obtain rfl : w'.store = store := hw'
      refine ⟨Nat.lt_of_lt_of_le hroot hlater.grown.size_le, w', rfl, ?_⟩
      intro m hm u hu
      rcases List.mem_cons.mp hm with rfl | hm
      · exact hu.holds rfl hv
      · exact hlater.holds (hpast m hm u hu)

end Session

end Monkey
