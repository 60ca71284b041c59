import Mathlib.Data.List.Basic
import Mathlib.Logic.Function.Basic

/-!
# A write gate

Tasks share a store.  A call takes the gate and works on the store piece by piece, until it
gives the gate back.  A transaction keeps what it does to itself until it commits: it takes the
gate with its first write and gives it back at its end; its commit works on the store piece by
piece.  Queries of the store need no gate.  One that comes while somebody works on the store
may be answered anything: it is listed apart.  Reads of a transaction that has not written yet
need no gate either, but they do not come while somebody works on the store.

The history of a run lists what else was answered, in the order in which it took effect: a
transaction stands in it once, with all its answers since it took the gate, where it was
committed or dropped.  Every run is serial (`Run.inv`): the history, done one event after
the other, gives the same answers and the same store.
-/

namespace Gate

/-- A store that is called, queried and changed by transactions.  Where an operation does not
return, there is no result. -/
structure Access (Store Tx Call Query Op Reply : Type*) where
  call : Call → Store → Option (Reply × Store)
  query : Query → Store → Option Reply
  start : Tx
  op : Op → Store → Tx → Option (Reply × Store × Tx)
  Writes : Op → Prop
  commit : Store → Tx → Option (Reply × Store)

/-- What takes effect at one point of a run. -/
inductive Event (Call Query Op Reply : Type*)
  | call (c : Call) (reply : Reply)
  | query (q : Query) (reply : Reply)
  /-- A read of a transaction that has not written yet. -/
  | read (o : Op) (reply : Reply)
  | committed (answers : List (Op × Reply)) (reply : Reply)
  | dropped (answers : List (Op × Reply))

/-- An open transaction, with what it was answered since it took the gate. -/
structure Session (Tx Op Reply : Type*) where
  tx : Tx
  answers : List (Op × Reply)

/-- Who has the gate. -/
inductive Phase (Task Call : Type*)
  | free
  /-- A transaction that has written, between its operations. -/
  | held (t : Task)
  /-- A call that works on the store. -/
  | calling (c : Call)
  /-- A transaction whose commit works on the store. -/
  | committing (t : Task)

/-- The transaction that has the gate. -/
def Phase.holder {Task Call : Type*} : Phase Task Call → Option Task
  | .held t | .committing t => some t
  | .free | .calling _ => none

/-- Nobody works on the store. -/
def Phase.Still {Task Call : Type*} : Phase Task Call → Prop
  | .free | .held _ => True
  | .calling _ | .committing _ => False

structure State (Task Store Tx Call Query Op Reply : Type*) where
  /-- The store, without what is being done to it. -/
  store : Store
  phase : Phase Task Call
  sessions : Task → Option (Session Tx Op Reply)
  history : List (Event Call Query Op Reply)
  /-- Queries that were answered while somebody worked on the store. -/
  glimpses : List (Query × Reply)

section

variable {Task Store Tx Call Query Op Reply : Type*} (A : Access Store Tx Call Query Op Reply)

/-! ## Serial runs -/

/-- A transaction performs operations from its start, with the store `s` to itself. -/
inductive Performs (s : Store) : List (Op × Reply) → Tx → Prop
  | nil : Performs s [] A.start
  | snoc {answers : List (Op × Reply)} {tx tx' : Tx} {o : Op} {reply : Reply}
      (h : Performs s answers tx) (hop : A.op o s tx = some (reply, s, tx')) :
      Performs s (answers ++ [(o, reply)]) tx'

/-- What an event does to the store, when nothing else happens meanwhile. -/
def Effect (s : Store) : Event Call Query Op Reply → Store → Prop
  | .call c reply, s' => A.call c s = some (reply, s')
  | .query q reply, s' => A.query q s = some reply ∧ s' = s
  | .read o reply, s' => A.op o s A.start = some (reply, s, A.start) ∧ s' = s
  | .committed answers reply, s' =>
      ∃ tx, Performs A s answers tx ∧ A.commit s tx = some (reply, s')
  | .dropped answers, s' => (∃ tx, Performs A s answers tx) ∧ s' = s

/-- One event after the other. -/
inductive Serial (s₀ : Store) : List (Event Call Query Op Reply) → Store → Prop
  | nil : Serial s₀ [] s₀
  | snoc {events : List (Event Call Query Op Reply)} {e : Event Call Query Op Reply} {s s' : Store}
      (h : Serial s₀ events s) (he : Effect A s e s') : Serial s₀ (events ++ [e]) s'

/-! ## Concurrent runs -/

variable [DecidableEq Task]

/-- The gate when the transaction of `t` has ended without a commit at work. -/
def Phase.without (t : Task) (phase : Phase Task Call) : Phase Task Call :=
  if phase.holder = some t then .free else phase

/-- A step of one task; `t` is the task of a transaction. -/
inductive Step (s : State Task Store Tx Call Query Op Reply) :
    State Task Store Tx Call Query Op Reply → Prop
  /-- A call takes the gate. -/
  | enter {c : Call} (hfree : s.phase = .free) : Step s { s with phase := .calling c }
  /-- A call is done. -/
  | call {c : Call} {reply : Reply} {store : Store} (hphase : s.phase = .calling c)
      (h : A.call c s.store = some (reply, store)) :
      Step s { s with store, phase := .free, history := s.history ++ [.call c reply] }
  | query {q : Query} {reply : Reply} (hstill : s.phase.Still)
      (h : A.query q s.store = some reply) :
      Step s { s with history := s.history ++ [.query q reply] }
  /-- A query while somebody works on the store. -/
  | glimpse (q : Query) (reply : Reply) (hwork : ¬ s.phase.Still) :
      Step s { s with glimpses := s.glimpses ++ [(q, reply)] }
  | start {t : Task} (hnew : s.sessions t = none) :
      Step s { s with sessions := Function.update s.sessions t (some ⟨A.start, []⟩) }
  /-- An operation of the transaction that has the gate, or takes it. -/
  | gated {t : Task} {x : Session Tx Op Reply} {o : Op} {reply : Reply} {store : Store} {tx : Tx}
      (hopen : s.sessions t = some x) (hgate : s.phase = .held t ∨ s.phase = .free ∧ A.Writes o)
      (h : A.op o s.store x.tx = some (reply, store, tx)) :
      Step s { s with
        store
        phase := .held t
        sessions := Function.update s.sessions t (some ⟨tx, x.answers ++ [(o, reply)]⟩) }
  /-- A read without the gate. -/
  | read {t : Task} {x : Session Tx Op Reply} {o : Op} {reply : Reply} {store : Store} {tx : Tx}
      (hopen : s.sessions t = some x) (hstill : s.phase.Still) (hnot : s.phase.holder ≠ some t)
      (hread : ¬ A.Writes o) (h : A.op o s.store x.tx = some (reply, store, tx)) :
      Step s { s with
        store
        sessions := Function.update s.sessions t (some ⟨tx, x.answers⟩)
        history := s.history ++ [.read o reply] }
  /-- The commit of a transaction that has written begins to work. -/
  | prepare {t : Task} (hphase : s.phase = .held t) : Step s { s with phase := .committing t }
  /-- A commit is done; that of a transaction without the gate is so at once. -/
  | commit {t : Task} {x : Session Tx Op Reply} {reply : Reply} {store : Store}
      (hopen : s.sessions t = some x)
      (hphase : s.phase = .committing t ∨ s.phase.holder ≠ some t)
      (h : A.commit s.store x.tx = some (reply, store)) :
      Step s { s with
        store
        phase := s.phase.without t
        sessions := Function.update s.sessions t none
        history := s.history ++ [.committed x.answers reply] }
  | drop {t : Task} {x : Session Tx Op Reply} (hopen : s.sessions t = some x)
      (hphase : s.phase ≠ .committing t) :
      Step s { s with
        phase := s.phase.without t
        sessions := Function.update s.sessions t none
        history := s.history ++ [.dropped x.answers] }

/-- Nobody has the gate, and nothing has happened yet. -/
def State.initial (store : Store) : State Task Store Tx Call Query Op Reply where
  store
  phase := .free
  sessions _ := none
  history := []
  glimpses := []

/-- A run from the store `s₀`. -/
inductive Run (s₀ : Store) : State Task Store Tx Call Query Op Reply → Prop
  | initial : Run s₀ (.initial s₀)
  | step {s s' : State Task Store Tx Call Query Op Reply} (h : Run s₀ s) (hstep : Step A s s') :
      Run s₀ s'

/-! ## Every run is serial -/

/-- In a quiet store transactions keep what they do to themselves, reads do not even change
the transaction, and the commit of a transaction that has just started changes nothing. -/
structure Staged (Quiet : Store → Prop) : Prop where
  call {c : Call} {s s' : Store} {reply : Reply} (hs : Quiet s)
    (h : A.call c s = some (reply, s')) : Quiet s'
  op {o : Op} {s s' : Store} {tx tx' : Tx} {reply : Reply} (hs : Quiet s)
    (h : A.op o s tx = some (reply, s', tx')) : s' = s
  read {o : Op} {s s' : Store} {tx tx' : Tx} {reply : Reply} (hs : Quiet s)
    (hread : ¬ A.Writes o) (h : A.op o s tx = some (reply, s', tx')) : tx' = tx
  commit {s s' : Store} {tx : Tx} {reply : Reply} (hs : Quiet s)
    (h : A.commit s tx = some (reply, s')) : Quiet s'
  commit_start {s s' : Store} {reply : Reply} (hs : Quiet s)
    (h : A.commit s A.start = some (reply, s')) : s' = s

/-- A session is what its answers say if it has the gate, and a fresh one otherwise. -/
def Sound (s : State Task Store Tx Call Query Op Reply) (t : Task) (x : Session Tx Op Reply) :
    Prop :=
  if s.phase.holder = some t then Performs A s.store x.answers x.tx else x = ⟨A.start, []⟩

/-- What holds between two steps. -/
structure Inv (Quiet : Store → Prop) (s₀ : Store)
    (s : State Task Store Tx Call Query Op Reply) : Prop where
  quiet : Quiet s.store
  serial : Serial A s₀ s.history s.store
  sound : ∀ t x, s.sessions t = some x → Sound A s t x
  /-- Only an open transaction has the gate. -/
  isOpen : ∀ t, s.phase.holder = some t → (s.sessions t).isSome

variable {A} {Quiet : Store → Prop} {s₀ : Store} {s s' : State Task Store Tx Call Query Op Reply}
  {t : Task} {x : Session Tx Op Reply}

/-- Without the gate, a session is a fresh one. -/
theorem Inv.fresh (h : Inv A Quiet s₀ s) (hopen : s.sessions t = some x)
    (hnot : s.phase.holder ≠ some t) : x = ⟨A.start, []⟩ := by
  have hsound := h.sound t x hopen
  rwa [Sound, if_neg hnot] at hsound

/-- What a transaction was answered since it took the gate is what it is answered alone. -/
theorem Inv.performs (h : Inv A Quiet s₀ s) (hopen : s.sessions t = some x) :
    Performs A s.store x.answers x.tx := by
  have hsound := h.sound t x hopen
  rw [Sound] at hsound
  split at hsound
  · exact hsound
  · subst hsound
    exact .nil

/-- While no transaction has the gate, every session is a fresh one. -/
theorem Inv.sound_free (h : Inv A Quiet s₀ s) (hfree : s.phase.holder = none)
    {s' : State Task Store Tx Call Query Op Reply} (hfree' : s'.phase.holder = none) (t : Task)
    (x : Session Tx Op Reply) (hopen : s.sessions t = some x) : Sound A s' t x := by
  rw [Sound, if_neg (by simp [hfree'])]
  exact h.fresh hopen (by simp [hfree])

/-- The sessions of the other transactions are sound when the gate is where it was. -/
theorem Inv.sound_update (h : Inv A Quiet s₀ s) {phase : Phase Task Call}
    {new : Option (Session Tx Op Reply)} {history : List (Event Call Query Op Reply)}
    (hother : ∀ t', t' ≠ t → (phase.holder = some t' ↔ s.phase.holder = some t'))
    (hnew : ∀ x', new = some x' →
      Sound A { s with phase, sessions := Function.update s.sessions t new, history } t x')
    (t' : Task) (x' : Session Tx Op Reply) (hopen : Function.update s.sessions t new t' = some x') :
    Sound A { s with phase, sessions := Function.update s.sessions t new, history } t' x' := by
  by_cases heq : t' = t
  · subst heq
    rw [Function.update_self] at hopen
    exact hnew x' hopen
  · rw [Function.update_of_ne heq] at hopen
    have hsound := h.sound t' x' hopen
    simp only [Sound, hother t' heq] at hsound ⊢
    exact hsound

/-- The gate after a transaction has gone on. -/
theorem Inv.isOpen_update (h : Inv A Quiet s₀ s) {new : Session Tx Op Reply} {t' : Task}
    (hheld : s.phase.holder = some t') :
    (Function.update s.sessions t (some new) t').isSome := by
  by_cases heq : t' = t
  · subst heq
    rw [Function.update_self]
    rfl
  · rw [Function.update_of_ne heq]
    exact h.isOpen t' hheld

/-- Nobody but the task that ends can lose the gate. -/
theorem without_holder {phase : Phase Task Call} {t' : Task} (hne : t' ≠ t) :
    (phase.without t).holder = some t' ↔ phase.holder = some t' := by
  unfold Phase.without
  by_cases hheld : phase.holder = some t
  · rw [if_pos hheld, hheld]
    simpa [Phase.holder] using fun heq => hne heq.symm
  · rw [if_neg hheld]

theorem without_ne (phase : Phase Task Call) : (phase.without t).holder ≠ some t := by
  unfold Phase.without
  by_cases hheld : phase.holder = some t
  · rw [if_pos hheld]
    exact nofun
  · rwa [if_neg hheld]

/-- The gate after the end of a transaction. -/
theorem Inv.isOpen_without (h : Inv A Quiet s₀ s) (t' : Task)
    (hheld : (s.phase.without t).holder = some t') :
    (Function.update s.sessions t none t').isSome := by
  by_cases heq : t' = t
  · subst heq
    exact absurd hheld (without_ne s.phase)
  · rw [Function.update_of_ne heq]
    exact h.isOpen t' ((without_holder heq).mp hheld)

/-- The end of a transaction that leaves the store as it is for the others. -/
theorem Inv.ended (h : Inv A Quiet s₀ s) {store : Store} {e : Event Call Query Op Reply}
    (hquiet : Quiet store) (he : Effect A s.store e store)
    (hstore : s.phase.holder ≠ some t → store = s.store) :
    Inv A Quiet s₀ { s with
      store
      phase := s.phase.without t
      sessions := Function.update s.sessions t none
      history := s.history ++ [e] } := by
  refine ⟨hquiet, .snoc h.serial he, fun t' x' hopen => ?_, fun t' => h.isOpen_without t'⟩
  by_cases hheld : s.phase.holder = some t
  · -- no transaction has the gate any more, so all sessions are fresh
    change Function.update s.sessions t none t' = some x' at hopen
    have hne : t' ≠ t := by
      rintro rfl
      rw [Function.update_self] at hopen
      cases hopen
    rw [Function.update_of_ne hne] at hopen
    have hnot : s.phase.holder ≠ some t' := by
      rw [hheld]
      exact fun heq => hne (Option.some.inj heq).symm
    rw [Sound, if_neg (mt (without_holder hne).mp hnot)]
    exact h.fresh hopen hnot
  · rw [hstore hheld]
    refine h.sound_update (fun t' hne => without_holder hne) (fun x' hnew => ?_) t' x' hopen
    cases hnew

/-- **A step keeps the invariant.** -/
theorem Inv.step (hA : Staged A Quiet) (h : Inv A Quiet s₀ s) (hstep : Step A s s') :
    Inv A Quiet s₀ s' := by
  cases hstep with
  | enter hfree =>
      have hnone : s.phase.holder = none := by rw [hfree]; rfl
      exact ⟨h.quiet, h.serial, h.sound_free hnone rfl, fun t => nofun⟩
  | call hphase hcall =>
      have hnone : s.phase.holder = none := by rw [hphase]; rfl
      exact ⟨hA.call h.quiet hcall, .snoc h.serial hcall, h.sound_free hnone rfl, fun t => nofun⟩
  | query hstill hquery => exact ⟨h.quiet, .snoc h.serial ⟨hquery, rfl⟩, h.sound, h.isOpen⟩
  | glimpse q reply hwork => exact ⟨h.quiet, h.serial, h.sound, h.isOpen⟩
  | @start t hnew =>
      have hnot : s.phase.holder ≠ some t := by
        intro hheld
        have hsome := h.isOpen t hheld
        rw [hnew] at hsome
        cases hsome
      refine ⟨h.quiet, h.serial, h.sound_update (fun _ _ => Iff.rfl) fun x hx => ?_, fun t' ht' => ?_⟩
      · cases hx
        rw [Sound, if_neg hnot]
      · exact h.isOpen_update ht'
  -- the task has the gate from here on, if it did not have it; the store does not change
  | @gated t x o reply store tx hopen hgate hop =>
      obtain rfl : store = s.store := hA.op h.quiet hop
      have hother : ∀ t', t' ≠ t →
          ((Phase.held t : Phase Task Call).holder = some t' ↔ s.phase.holder = some t') := by
        intro t' hne
        rcases hgate with hheld | ⟨hfree, -⟩
        · rw [hheld]
        · simpa [hfree, Phase.holder] using fun heq => hne heq.symm
      refine ⟨h.quiet, h.serial, h.sound_update hother fun x' hx' => ?_, fun t' ht' => ?_⟩
      · cases hx'
        have hheld : (Phase.held t : Phase Task Call).holder = some t := rfl
        rw [Sound, if_pos hheld]
        exact .snoc (h.performs hopen) hop
      · obtain rfl := Option.some.inj ht'
        show (Function.update s.sessions t _ t).isSome
        rw [Function.update_self]
        rfl
  -- a read without the gate sees the start of the session, so it can be put at this place
  | @read t x o reply store tx hopen hstill hnot hread hop =>
      obtain rfl : store = s.store := hA.op h.quiet hop
      obtain rfl : tx = x.tx := hA.read h.quiet hread hop
      obtain rfl := h.fresh hopen hnot
      refine ⟨h.quiet, .snoc h.serial ⟨hop, rfl⟩,
        h.sound_update (fun _ _ => Iff.rfl) fun x' hx' => ?_, fun t' ht' => ?_⟩
      · cases hx'
        rw [Sound, if_neg hnot]
      · exact h.isOpen_update ht'
  | @prepare t hphase =>
      have hholder : s.phase.holder = (Phase.committing t : Phase Task Call).holder := by
        rw [hphase]
        rfl
      refine ⟨h.quiet, h.serial, fun t' x' hopen => ?_, fun t' ht' => h.isOpen t' ?_⟩
      · have hsound := h.sound t' x' hopen
        rwa [Sound, hholder] at hsound
      · rw [hholder]
        exact ht'
  -- only here the store changes, and the session is put at this place
  | @commit t x reply store hopen hphase hcommit =>
      refine h.ended (hA.commit h.quiet hcommit) ⟨x.tx, h.performs hopen, hcommit⟩ fun hnot => ?_
      obtain rfl := h.fresh hopen hnot
      exact hA.commit_start h.quiet hcommit
  | @drop t x hopen hphase =>
      exact h.ended h.quiet ⟨⟨x.tx, h.performs hopen⟩, rfl⟩ fun _ => rfl

/-- **Every run is serial.** -/
theorem Run.inv (hA : Staged A Quiet) (hs₀ : Quiet s₀)
    (h : Run A s₀ s) : Inv A Quiet s₀ s := by
  induction h with
  | initial =>
      refine ⟨hs₀, .nil, fun t x hopen => ?_, fun t hheld => ?_⟩
      · cases hopen
      · cases hheld
  | step _ hstep ih => exact ih.step hA hstep

end

end Gate
