import BoogyDb.DbRuns
import BoogyDb.Lib.Gate
import BoogyDb.VectorDb

/-!
# The write gate of the async wrapper

`AsyncBoogyDb` puts a gate in front of the database.  A call that writes holds the gate while
it runs.  An interactive transaction (`OwnedAsyncTransaction`) takes it with its first write
and holds it until it is committed or dropped.  Reads take no gate.

A call and the commit of a transaction publish pages, roots and counts one after the other, so
a query that runs meanwhile on another thread may see some of it: a run lists such a query, and
says nothing about its answer.  The read of a transaction that has not written yet would carry
away the pages that a call has staged; in a run it does not come meanwhile.  What else a
transaction does, it does under the write guard, on pages of its own.

A call that panics has no step, nor has one that fails after it has written pages in place and
leaves them in the overlay.  The transactions of `begin` and `transaction`, which write without
the gate, and the settings are left out.  With that, every run of any number of tasks is serial
(`asyncRun_serial`).
-/

namespace BoogyDb

open Wp WriteGuard

/-- Nothing is in the shared overlay. -/
def Db.Quiet (db : Db) : Prop := db.file.writeState = ⟨∅, 0⟩

theorem quiet_iff {db : Db} : db.Quiet ↔
    db.file.writeState.dirty.entries = [] ∧ db.file.writeState.newPageCount = 0 := by
  constructor
  · intro h
    rw [Db.Quiet] at h
    rw [h]
    exact ⟨rfl, rfl⟩
  · rintro ⟨hdirty, hcount⟩
    have hempty : db.file.writeState.dirty = ∅ := AList.ext hdirty
    show (⟨db.file.writeState.dirty, db.file.writeState.newPageCount⟩ : WriteState) = _
    rw [hempty, hcount]

instance decidableQuiet (db : Db) : Decidable db.Quiet := decidable_of_iff _ quiet_iff.symm

/-! ## The calls -/

/-- The calls that take the gate; the settings are changed without it. -/
def Call.gated : Call → Bool
  | .setDurability _ | .setAcid _ | .setMaxRowSize _ => false
  | _ => true

/-- The calls of the wrapper that hold the gate while they run. -/
abbrev GatedCall := { call : Call // call.gated = true }

/-- The reads of the wrapper. -/
inductive Query
  | get (table : String) (id : UInt64)
  | find (table : String) (opts : FindOptions)
  | countWith (table : String) (filters : List Filter) (orGroups : List (List Filter))

/-- The operations for which a transaction ensures that it has the gate. -/
def TxCall.writes : TxCall → Bool
  | .row _ _ | .upsert _ _ _ | .upsertIncrement _ _ _ _ _ => true
  | .get _ _ | .find _ _ | .countWith _ _ _ | .scanBatch _ _ _ _ _ _ => false

/-- What a task is answered. -/
abbrev AsyncReply := Except BoogyError TxReply

/-- The answer of a call and the state it leaves, unless it panics. -/
def settled {σ α : Type} (x : StateResult σ α) (s : σ) : Option (Except BoogyError α × σ) :=
  match x s with
  | .ok a s' => some (.ok a, s')
  | .error (.error e) s' => some (.error e, s')
  | .error _ _ => none

/-- The answer of a read. -/
def answer {α : Type} (x : Result α) : Option (Except BoogyError α) :=
  match x with
  | .ok a => some (.ok a)
  | .error (.error e) => some (.error e)
  | .error _ => none

section

variable [Crc32Fast]

def Query.perform (db : Db) : Query → Result TxReply
  | .get table id => do
      let row ← db.get? table id
      pure (.row row)
  | .find table opts => do
      let found ← db.find table opts
      pure (.found found)
  | .countWith table filters orGroups => do
      let n ← db.countWith table filters orGroups
      pure (.counted (UInt64.ofNat n))

/-- A call under the gate, which leaves nothing in the overlay. -/
def GatedCall.perform (call : GatedCall) (db : Db) : Option (AsyncReply × Db) := do
  let (reply, db') ← settled (call.1.perform .code) db
  if db'.Quiet then pure (reply.map .wrote, db') else none

/-- The database behind the gate. -/
def asyncAccess : Gate.Access Db AcidTransaction GatedCall Query TxCall AsyncReply where
  call := GatedCall.perform
  query q db := answer (q.perform db)
  start := .new
  op o db tx := (settled (o.perform .code) ⟨db, tx⟩).map fun r => (r.1, r.2.db, r.2.tx)
  Writes o := o.writes = true
  commit db tx := (settled InTransaction.commit ⟨db, tx⟩).map fun r =>
    (r.1.map fun _ => .wrote .done, r.2.db)

/-! ## What the calls leave behind -/

omit [Crc32Fast] in
theorem settled_eq_some {σ α : Type} {x : StateResult σ α} {s s' : σ} {r : Except BoogyError α} :
    settled x s = some (r, s') ↔
      (∃ a, r = .ok a ∧ x s = .ok a s') ∨ ∃ e, r = .error e ∧ x s = .error (.error e) s' := by
  unfold settled
  cases x s with
  | ok a s₁ => grind
  | error e s₁ => cases e <;> grind

omit [Crc32Fast] in
/-- What a transaction that settles leaves of the database. -/
theorem LeavesDb.settled {α : Type} {x : StateResult InTransaction α} {s s' : InTransaction}
    {r : Except BoogyError α} (hx : LeavesDb x) (h : settled x s = some (r, s')) :
    Untouched s s' := by
  rcases settled_eq_some.mp h with ⟨a, -, hrun⟩ | ⟨e, -, hrun⟩
  · exact hx.ok hrun
  · exact hx.error hrun

omit [Crc32Fast] in
/-- What a read that settles leaves of the transaction. -/
theorem LeavesTx.settled {α : Type} {x : StateResult InTransaction α} {s s' : InTransaction}
    {r : Except BoogyError α} (hx : LeavesTx x) (h : BoogyDb.settled x s = some (r, s')) :
    Unchanged s s' := by
  rcases settled_eq_some.mp h with ⟨a, -, hrun⟩ | ⟨e, -, hrun⟩
  · exact hx.ok hrun
  · exact hx.error hrun

/-- An operation of a transaction, as a step of it. -/
theorem op_eq_some {o : TxCall} {db db' : Db} {tx tx' : AcidTransaction} {reply : AsyncReply} :
    asyncAccess.op o db tx = some (reply, db', tx') ↔
      settled (o.perform .code) ⟨db, tx⟩ = some (reply, ⟨db', tx'⟩) := by
  show (settled (o.perform .code) ⟨db, tx⟩).map _ = _ ↔ _
  cases settled (o.perform .code) ⟨db, tx⟩ with
  | none => simp
  | some r =>
      obtain ⟨reply', s⟩ := r
      obtain ⟨db₁, tx₁⟩ := s
      simp

theorem commit_eq_some {db db' : Db} {tx : AcidTransaction} {reply : AsyncReply}
    (h : asyncAccess.commit db tx = some (reply, db')) :
    ∃ r tx', settled InTransaction.commit ⟨db, tx⟩ = some (r, ⟨db', tx'⟩) := by
  obtain ⟨r, hr, hres⟩ := Option.map_eq_some_iff.mp h
  obtain ⟨r, db₁, tx'⟩ := r
  obtain ⟨-, rfl⟩ := Prod.mk.inj hres
  exact ⟨r, tx', hr⟩

/-- A read leaves the transaction as it was. -/
theorem LeavesTx.perform {o : TxCall} (hread : ¬ o.writes = true) (w : TreeWriters) :
    LeavesTx (o.perform w) := by
  cases o with
  | get table id => exact (get? _ _).bind fun _ => pure _
  | find table opts => exact (find _ _).bind fun _ => pure _
  | countWith table filters orGroups => exact (countWith _ _ _).bind fun _ => pure _
  | scanBatch table filters orGroups order after limit =>
      exact (scanBatch _ _ _ _ _ _).bind fun _ => pure _
  | _ => exact absurd rfl hread

omit [Crc32Fast] in
/-- Publishing the overlay does not fail with an error. -/
theorem commit_ne_error (g : WriteGuard) (e : BoogyError) : WriteGuard.commit g ≠ .error (.error e) := by
  have hstore : ∀ (images : List (ℕ × Page)) (cache : List (Option Page)),
      (images.foldlM (fun (cache : List (Option Page)) e =>
        if e.1 < cache.length then (.ok (cache.set e.1 (some e.2)) : Result _) else panic) cache) ≠
          .error (.error e) := by
    intro images
    induction images with
    | nil => exact fun cache => nofun
    | cons image images ih =>
        intro cache
        rw [List.foldlM_cons]
        split
        · exact ih _
        · exact nofun
  intro h
  rw [WriteGuard.commit] at h
  dsimp only at h
  split at h
  · cases h
  · cases hcache : List.foldlM (fun (cache : List (Option Page)) (e : ℕ × Page) =>
        if e.1 < cache.length then (.ok (cache.set e.1 (some e.2)) : Result _) else panic)
        (g.pages ++ List.replicate (g.bound - g.pages.length) none)
        (g.writeState.dirty.entries.map fun e => (e.1, e.2)) with
    | ok cache =>
        rw [hcache] at h
        cases h
    | error fault =>
        rw [hcache] at h
        obtain rfl : fault = .error e := Except.error.inj h
        exact hstore _ _ hcache

/-- A commit that settles leaves nothing in the overlay. -/
theorem commitFile_quiet {durability : Durability} {tableId : UInt32} {file file' : PageFile}
    {wal wal' : Wal}
    (h : commitFile durability tableId file wal = .ok (file', wal') ∨
      ∃ e, commitFile durability tableId file wal = .error (.error e, file', wal')) :
    file'.writeState = ⟨∅, 0⟩ := by
  unfold commitFile at h
  cases hcommit : WriteGuard.commit file with
  | error fault =>
      rw [hcommit] at h
      rcases h with h | ⟨e, h⟩
      · cases h
      · obtain ⟨rfl, -⟩ := Prod.mk.inj (Except.error.inj h)
        exact absurd hcommit (commit_ne_error file e)
  | ok res =>
      obtain ⟨images, file₁⟩ := res
      have hquiet := (commit_eq hcommit).2.1
      rw [hcommit] at h
      dsimp only at h
      split at h
      · rcases h with h | ⟨e, h⟩
        · cases h
          exact hquiet
        · cases h
      · split at h
        · rcases h with h | ⟨e, h⟩
          · cases h
            exact hquiet
          · cases h
        · rcases h with h | ⟨e, h⟩
          · cases h
          · cases h
            exact hquiet

/-- The commit of a transaction, when it settles. -/
theorem txCommit_quiet {s s' : InTransaction} {r : Except BoogyError Unit} (hquiet : s.db.Quiet)
    (h : settled InTransaction.commit s = some (r, s')) : s'.db.Quiet := by
  have hrun : wp InTransaction.commit (fun _ s' => s'.db.Quiet)
      (fun fault s' => ∀ e, fault = .error e → s'.db.Quiet) s := by
    unfold wp InTransaction.commit
    by_cases hnone : s.tx.privateDirty.entries.isEmpty && s.tx.metaDeltas.entries.isEmpty
    · rw [if_pos hnone]
      exact hquiet
    · rw [if_neg hnone]
      dsimp only
      cases hcommit : commitFile s.db.durability
          (((s.tx.metaDeltas.entries.map fun e => (e.1, e.2)).head?.map fun d => d.2.tableId).getD 0)
          (s.tx.enter s.db.file) s.db.wal with
      | ok res =>
          obtain ⟨file, wal⟩ := res
          exact commitFile_quiet (.inl hcommit)
      | error res =>
          obtain ⟨fault, file, wal⟩ := res
          rintro e rfl
          exact commitFile_quiet (.inr ⟨e, hcommit⟩)
  rcases settled_eq_some.mp h with ⟨a, -, hx⟩ | ⟨e, -, hx⟩
  · exact hrun.ok hx
  · exact hrun.error hx e rfl

/-- A transaction that has just started has nothing to commit. -/
theorem txCommit_new (db : Db) : InTransaction.commit ⟨db, .new⟩ = .ok () ⟨db, .new⟩ := rfl

/-! ## Operations in place

What an operation in place writes it commits; behind the commit it changes its table alone. -/

/-- If it returns, nothing is in the overlay. -/
def Commits {α : Type} (x : StateResult Session α) : Prop :=
  ∀ s, wlp x (fun _ s' => s'.file.writeState = ⟨∅, 0⟩) s

/-- If it returns and nothing was in the overlay, nothing is. -/
def Settles {α : Type} (x : StateResult Session α) : Prop :=
  ∀ s, s.file.writeState = ⟨∅, 0⟩ → wlp x (fun _ s' => s'.file.writeState = ⟨∅, 0⟩) s

section

variable {α β : Type} {x : StateResult Session α} {f : α → StateResult Session β}

omit [Crc32Fast]

theorem Commits.settles (h : Commits x) : Settles x := fun s _ => h s

theorem Commits.after (h : ∀ a, Commits (f a)) : Commits (x >>= f) := fun s =>
  wp.bind (wlp_true (s := s)) fun a s' _ => h a s'

theorem Commits.before (hx : Commits x) (hf : ∀ a, Settles (f a)) : Commits (x >>= f) := fun s =>
  wp.bind (hx s) fun a s' hs' => hf a s' hs'

theorem Commits.throw (e : Fault) : Commits (throw e : StateResult Session α) := fun _ => trivial

theorem Commits.ite {c : Prop} [Decidable c] {y : StateResult Session α} (hx : Commits x)
    (hy : Commits y) : Commits (if c then x else y) := fun s =>
  wlp_ite (fun _ => hx s) fun _ => hy s

theorem Settles.bind (hx : Settles x) (hf : ∀ a, Settles (f a)) : Settles (x >>= f) := fun s hs =>
  wp.bind (hx s hs) fun a s' hs' => hf a s' hs'

theorem Settles.pure (a : α) : Settles (pure a) := fun _ hs => hs

theorem Settles.throw (e : Fault) : Settles (throw e : StateResult Session α) := fun _ _ => trivial

theorem Settles.get : Settles (get : StateResult Session Session) := fun _ hs => hs

theorem Settles.modifyState (g : TableMeta → TableMeta) : Settles (modifyState g) := fun _ hs => hs

theorem Settles.lift (x : Result α) : Settles (liftM x : StateResult Session α) := fun _ hs =>
  wlp_lift fun _ _ => hs

theorem Settles.ite {c : Prop} [Decidable c] {y : StateResult Session α} (hx : Settles x)
    (hy : Settles y) : Settles (if c then x else y) := fun s hs =>
  wlp_ite (fun _ => hx s hs) fun _ => hy s hs

end

theorem Commits.commitWrite : Commits commitWrite := by
  intro s
  rw [wlp_iff]
  intro _ s' h
  unfold BoogyDb.commitWrite at h
  cases hcommit : commitFile s.durability s.state.tableId s.file s.wal with
  | error res =>
      rw [hcommit] at h
      cases h
  | ok res =>
      obtain ⟨file, wal⟩ := res
      rw [hcommit] at h
      cases h
      exact commitFile_quiet (.inl hcommit)

variable (w : TreeWriters)

theorem Commits.insertRow (id : UInt64) (row : List UInt8) : Commits (Session.insertRow w id row) :=
  after fun _ => after fun _ => after fun _ => after fun _ => commitWrite

omit [Crc32Fast] in
theorem Settles.countRow : Settles Session.countRow :=
  get.bind fun _ => (lift _).bind fun _ => modifyState _

theorem Commits.insert (data : RowData) : Commits (Session.insert w data) := by
  refine after fun s => after fun _ => after fun next => after fun _ => ite (throw _) ?_
  cases Session.enforceUniqueIndexes s.file s.state
      (encodeRow s.state.nextRowid (columnValues s.state data)) with
  | ok _ => exact (insertRow w _ _).before fun _ => Settles.countRow.bind fun _ => .pure _
  | error e =>
      cases e with
      | error e => exact after fun _ => throw _
      | panic => exact throw _
      | overflow => exact throw _
      | unspecified => exact throw _

theorem Commits.delete (id : UInt64) : Commits (Session.delete w id) := by
  unfold Session.delete
  refine after fun s => ?_
  have hcount : ∀ deleted : Bool, Settles (do
      if deleted then do
        let s ← get
        let rowCount ← subtract s.state.rowCount 1
        modifyState fun state => { state with rowCount }
      else pure ()
      pure deleted : StateResult Session Bool) := fun deleted =>
    .ite (.bind .get fun _ => .bind (.lift _) fun _ => .bind (.modifyState _) fun _ => .pure _)
      (.pure _)
  extract_lets rest
  have hrest : ∀ rowBytes : Option (List UInt8), Commits (rest rowBytes) := by
    intro rowBytes
    refine after fun deleted => ?_
    have hcommit := commitWrite.before fun _ => hcount deleted
    cases rowBytes with
    | none => exact hcommit
    | some bytes => exact ite (after fun _ => hcommit) hcommit
  exact ite (hrest none) (after hrest)

/-- **What an operation in place leaves when it returns.** -/
theorem Settles.inPlace (call : RowCall) : Settles (call.inPlace w) := by
  have hreplied : ∀ {α : Type} {reply : α → Reply} {x : StateResult Session α}, Settles x →
      Settles (replied reply x) := fun hx => hx.bind fun _ => pure _
  cases call with
  | insert data => exact hreplied (Commits.insert w data).settles
  | insertWithId rowid data =>
      refine hreplied (Commits.settles (.after fun s => .after fun _ => .ite (.throw _) ?_))
      have hrow : Commits (do Session.insertRow w rowid (encodeRow rowid (columnValues s.state data)); Session.countRow) :=
        (Commits.insertRow w _ _).before fun _ => countRow
      exact .after fun _ => .ite (.after fun _ => .after fun _ => hrow) hrow
  | insertMany rows =>
      refine hreplied (Commits.settles (.after fun s => .after fun _ => .after fun r => ?_))
      exact Commits.commitWrite.before fun _ => (lift _).bind fun _ => (modifyState _).bind fun _ =>
        pure _
  | update id fields =>
      refine hreplied (get.bind fun s => (lift _).bind fun _ => (lift _).bind fun found => ?_)
      cases found with
      | none => exact pure _
      | some bytes =>
          refine (lift _).bind fun existing => Settles.bind (Commits.settles ?_) fun _ => pure _
          exact .after fun _ => .after fun _ => .after fun _ => .after fun _ => .after fun _ =>
            .after fun _ => .commitWrite
  | updateWhere filters fields =>
      refine hreplied (Commits.settles (.after fun s => .after fun _ => .after fun _ =>
        .after fun r => .after fun _ => .after fun _ => ?_))
      exact Commits.commitWrite.before fun _ => pure _
  | delete id =>
      exact hreplied (Commits.delete w id).settles
  | deleteWhere filters =>
      refine hreplied (Commits.settles (.after fun s => .after fun _ => .after fun deleted =>
        .after fun _ => ?_))
      exact Commits.commitWrite.before fun _ => get.bind fun _ => (lift _).bind fun _ =>
        (modifyState _).bind fun _ => pure _

/-! ## Calls -/

/-- A call that returns leaves nothing in the overlay. -/
def Db.Settles {α : Type} (x : StateResult Db α) : Prop :=
  ∀ db : Db, db.Quiet → wlp x (fun _ db' => db'.Quiet) db

/-- Whatever it finds in the overlay. -/
def Db.Commits {α : Type} (x : StateResult Db α) : Prop :=
  ∀ db : Db, wlp x (fun _ db' => db'.Quiet) db

omit [Crc32Fast] in
theorem Db.Commits.after {α β : Type} {x : StateResult Db α} {f : α → StateResult Db β}
    (h : ∀ a, Db.Commits (f a)) : Db.Commits (x >>= f) := fun db =>
  wp.bind (wlp_true (s := db)) fun a db' _ => h a db'

omit [Crc32Fast] in
theorem Db.Commits.throw {α : Type} (e : Fault) : Db.Commits (throw e : StateResult Db α) :=
  fun _ => trivial

omit [Crc32Fast] in
theorem Db.Commits.ite {α : Type} {c : Prop} [Decidable c] {x y : StateResult Db α}
    (hx : Db.Commits x) (hy : Db.Commits y) : Db.Commits (if c then x else y) := fun db =>
  wlp_ite (fun _ => hx db) fun _ => hy db

theorem Db.Commits.commitWrite (tableId : UInt32) : Db.Commits (Db.commitWrite tableId) := by
  intro db
  rw [wlp_iff]
  intro _ db' h
  unfold Db.commitWrite at h
  cases hcommit : commitFile db.durability tableId db.file db.wal with
  | error res =>
      rw [hcommit] at h
      cases h
  | ok res =>
      obtain ⟨file, wal⟩ := res
      rw [hcommit] at h
      cases h
      exact commitFile_quiet (.inl hcommit)

theorem Db.Commits.persistRegistry : Db.Commits Db.persistRegistry :=
  after fun _ => after fun _ => commitWrite 0

omit [Crc32Fast] in
theorem Db.Settles.withTable {α : Type} {table : String} {x : StateResult Session α}
    (hx : BoogyDb.Settles x) : Db.Settles (Db.withTable table x) := by
  intro db hquiet
  rw [wlp_iff]
  intro a db' h
  unfold Db.withTable at h
  split at h
  · cases h
  · split at h
    · cases h
      rename_i state _ _ s hrun
      exact (hx ⟨state, db.file, db.wal, db.durability, db.maxRowSize⟩ hquiet).ok hrun
    · cases h

theorem Db.Settles.inTransaction {α : Type} {x : StateResult InTransaction α} (hx : LeavesDb x) :
    Db.Settles (Db.inTransaction x) := by
  intro db hquiet
  rw [wlp_iff]
  intro a db' h
  obtain ⟨s, s', hbody, hcommit, rfl⟩ := inTransaction_eq_ok h
  have hdb : s.db = db := (hx.ok hbody).db_eq hquiet
  refine txCommit_quiet ?_ (settled_eq_some.mpr (.inl ⟨(), rfl, hcommit⟩))
  rw [hdb]
  exact hquiet

/-- **A call that returns leaves nothing in the overlay.** -/
theorem Db.Settles.perform (call : Call) : Db.Settles (call.perform .code) := by
  have hreplied : ∀ {α : Type} {reply : α → Reply} {x : StateResult Db α}, Db.Settles x →
      Db.Settles (replied reply x) := fun hx db hquiet =>
    wp.bind (hx db hquiet) fun _ _ hquiet' => hquiet'
  have hcommits : ∀ {α : Type} {reply : α → Reply} {x : StateResult Db α}, Db.Commits x →
      Db.Settles (replied reply x) := fun hx => hreplied fun db _ => hx db
  have halter : ∀ (table : String) (x : StateResult Session Unit), Db.Commits (Db.alterTable table x) :=
    fun _ _ => .after fun _ => .persistRegistry
  cases call with
  | row table call =>
      intro db hquiet
      refine wlp_get_bind.mpr (wlp_ite (fun _ => ?_) fun _ => ?_)
      · exact inTransaction (LeavesDb.row OverlayFrom.code table call) db hquiet
      · exact withTable (BoogyDb.Settles.inPlace .code call) db hquiet
  | upsert table key set =>
      exact hreplied (inTransaction (LeavesDb.upsert OverlayFrom.code _ _ _))
  | upsertIncrement table key counter delta set =>
      exact hreplied (inTransaction (LeavesDb.upsertIncrement OverlayFrom.code _ _ _ _ _))
  | createTable name columns =>
      refine hcommits (.after fun db => .ite (.throw _) ?_)
      have hlast : Db.Commits (do
          let root ← Db.inFile BTreeWriter.create
          let nextTableId ← addOne32 db.nextTableId
          modify fun db => { db with nextTableId }
          Db.commitWrite db.nextTableId
          modify fun db' => { db' with
            tables := db'.tables.insert name (TableMeta.new name db.nextTableId columns root) }
          Db.persistRegistry) :=
        .after fun _ => .after fun _ => .after fun _ => .after fun _ => .after fun _ =>
          .persistRegistry
      exact .ite (.after fun _ => hlast) hlast
  | dropTable name =>
      exact hcommits (.after fun _ => .ite (.throw _) (.after fun _ => .persistRegistry))
  | createIndexEx table indexName columns unique =>
      exact hcommits (.ite (.throw _) (halter _ _))
  | dropIndex table indexName => exact hcommits (halter _ _)
  | addColumn table column => exact hcommits (.after fun _ => halter _ _)
  | renameColumn table old new => exact hcommits (.after fun _ => halter _ _)
  | dropColumn table name => exact hcommits (halter _ _)
  | setDurability durability => exact fun _ hquiet => hquiet
  | setAcid enabled => exact fun _ hquiet => hquiet
  | setMaxRowSize bytes => exact fun _ hquiet => hquiet

/-! ## Runs -/

/-- **What the gate relies on.** -/
theorem asyncAccess_staged : Gate.Staged asyncAccess Db.Quiet where
  call {call db db' reply} _ h := by
    obtain ⟨⟨r, db₁⟩, -, h⟩ := Option.bind_eq_some_iff.mp h
    dsimp only at h
    by_cases hquiet : db₁.Quiet
    · rw [if_pos hquiet] at h
      cases h
      exact hquiet
    · rw [if_neg hquiet] at h
      cases h
  op {o db db' tx tx' reply} hquiet h :=
    ((LeavesDb.perform OverlayFrom.code o).settled (op_eq_some.mp h)).db_eq hquiet
  read {o db db' tx tx' reply} hquiet hread h := by
    have hsame := ((LeavesTx.perform hread .code).settled (op_eq_some.mp h)).2 hquiet
    exact congrArg InTransaction.tx hsame
  commit {db db' tx reply} hquiet h := by
    obtain ⟨r, tx', h⟩ := commit_eq_some h
    exact txCommit_quiet (s := ⟨db, tx⟩) hquiet h
  commit_start {db db' reply} _ h := by
    obtain ⟨r, tx', h⟩ := commit_eq_some h
    rw [settled, show asyncAccess.start = .new from rfl, txCommit_new] at h
    cases h
    rfl

/-- A call that returns always has a step. -/
theorem gatedCall_returned {call : GatedCall} {db db' : Db} {reply : Reply} (hquiet : db.Quiet)
    (h : call.1.perform .code db = .ok reply db') :
    asyncAccess.call call db = some (.ok (.wrote reply), db') := by
  show (settled (call.1.perform .code) db >>= _) = _
  rw [settled, h]
  exact if_pos ((Db.Settles.perform call.1 db hquiet).ok h)

theorem open_quiet {storage : Storage} {db : Db} (h : Db.open storage = .ok db) : db.Quiet := by
  unfold Db.open at h
  obtain ⟨storage', -, h⟩ := bind_eq_ok.mp h
  obtain ⟨wal, -, h⟩ := bind_eq_ok.mp h
  obtain ⟨registry, -, h⟩ := bind_eq_ok.mp h
  cases h
  rfl

variable {Task : Type} [DecidableEq Task]
  {s : Gate.State Task Db AcidTransaction GatedCall Query TxCall AsyncReply}

/-- **Every run behind the gate is serial.**  From a database that has been opened, whatever the
tasks do: the calls, the queries that come while nobody works on the database, the reads and
the transactions, done one after the other in the order of the history, each transaction as a
whole, give the same answers and the same database.  An open transaction has been answered as
if it were alone, and nothing is in the overlay of the file. -/
theorem asyncRun_serial {storage : Storage} {db : Db} (hopen : Db.open storage = .ok db)
    (h : Gate.Run asyncAccess db s) :
    Gate.Serial asyncAccess db s.history s.store ∧
      (∀ t x, s.sessions t = some x → Gate.Performs asyncAccess s.store x.answers x.tx) ∧
      s.store.Quiet := by
  have hinv := h.inv asyncAccess_staged (open_quiet hopen)
  exact ⟨hinv.serial, fun t x hx => hinv.performs hx, hinv.quiet⟩

end

/-- The insertion of a row, in a transaction. -/
def insertFlagTx : TxCall := .row "t" (.insert [("flag", .boolean true)])

/-- One task creates a table, and another looks at it meanwhile; then one inserts a row in a
transaction while the other reads, and commits it while the other looks again. -/
theorem asyncRun_serial_two : letI := crc32Ieee
    ∃ created inserted row db,
      Gate.Serial asyncAccess newDb
        [.call ⟨createFlags, rfl⟩ (.ok (.wrote created)), .query (.get "t" 1) row,
          .committed [(insertFlagTx, .ok inserted)] (.ok (.wrote .done))] db := by
  let := crc32Ieee
  obtain ⟨created, hcreate⟩ := createFlags_returns
  have hquiet : newDb.Quiet := open_quiet open_new
  obtain ⟨inserted, hinsert⟩ := exists_of_attempt (x := insertFlagTx.perform .code)
    (s := (stateAfter (createFlags.perform .code) newDb).beginAcid) (by decide +kernel)
  obtain ⟨⟨⟩, hcommit⟩ := exists_of_attempt (x := InTransaction.commit)
    (s := stateAfter (insertFlagTx.perform .code)
      (stateAfter (createFlags.perform .code) newDb).beginAcid) (by decide +kernel)
  obtain ⟨row, hrow⟩ : ∃ row, asyncAccess.query (.get "t" 1)
      (stateAfter (insertFlagTx.perform .code)
        (stateAfter (createFlags.perform .code) newDb).beginAcid).db = some row :=
    Option.isSome_iff_exists.mp (by decide +kernel)
  generalize stateAfter (createFlags.perform .code) newDb = db₁ at hcreate hinsert hcommit hrow
  generalize stateAfter (insertFlagTx.perform .code) db₁.beginAcid = s at hinsert hcommit hrow
  generalize stateAfter InTransaction.commit s = s' at hcommit
  have hcall := @gatedCall_returned _ ⟨createFlags, rfl⟩ _ _ _ hquiet hcreate
  have hop : asyncAccess.op insertFlagTx db₁ asyncAccess.start = some (.ok inserted, s.db, s.tx) :=
    op_eq_some.mpr (settled_eq_some.mpr (.inl ⟨inserted, rfl, hinsert⟩))
  have hend : asyncAccess.commit s.db s.tx = some (.ok (.wrote .done), s'.db) := by
    have hsettled := settled_eq_some.mpr (.inl ⟨(), rfl, hcommit⟩)
    show (settled InTransaction.commit s).map _ = _
    rw [hsettled]
    rfl
  have hnew : Gate.Run asyncAccess newDb (Gate.State.initial newDb :
      Gate.State Bool Db AcidTransaction GatedCall Query TxCall AsyncReply) := .initial
  have hcreating := (hnew.step (.enter (c := ⟨createFlags, rfl⟩) rfl)).step
    (.glimpse (.get "t" 1) (.error (.tableNotFound "t")) id)
  have hcreated := hcreating.step (.call rfl hcall)
  have hstarted := hcreated.step (.start (t := true) rfl)
  have hinserted := hstarted.step (.gated (t := true) (x := ⟨.new, []⟩) (o := insertFlagTx)
    rfl (.inr ⟨rfl, rfl⟩) hop)
  have hread := hinserted.step (.query trivial hrow)
  have hcommitting := (hread.step (.prepare (t := true) rfl)).step
    (.glimpse (.get "t" 1) (.ok (.row none)) id)
  have hrun := hcommitting.step
    (.commit (t := true) (x := ⟨s.tx, [(insertFlagTx, .ok inserted)]⟩) rfl (.inl rfl) hend)
  exact ⟨created, inserted, row, s'.db, (asyncRun_serial open_new hrun).1⟩

end BoogyDb
