import BoogyDb.Recovery
import BoogyDb.RowRuns
import BoogyDb.TransactionRuns

/-!
# Runs of a database

A run (`Reaches`) starts from a new database.  Its steps are calls that return, calls that
fail in the checks before they write (`Call.checks`), calls in a transaction of their own that
fail before the commit, and transactions that are committed or dropped; no other call writes
while a transaction is open.  Between two steps the tables are sound (`Reaches.inv`).
-/

namespace BoogyDb

open Bytes Wp WriteGuard FencedTree Ownership

section

variable [Crc32Fast] {storable : UInt64 → List UInt8 → Prop} {keyed : Prop}

/-! ## Calls that are refused -/

/-- What a row operation reads of its table before it writes. -/
def Session.view (s : Session) : TableView where
  state := s.state
  nextRowid := s.state.nextRowid
  maxRowSize := s.maxRowSize
  unique := Session.enforceUniqueIndexes s.file s.state
  search := BTreeReader.search s.file s.state.rootPage

/-- The table under its lock. -/
def Db.session (db : Db) (state : TableMeta) : Session :=
  ⟨state, db.file, db.wal, db.durability, db.maxRowSize⟩

/-- Does `x` return? -/
def attempt {σ α : Type} (x : StateResult σ α) (s : σ) : Result Unit :=
  match x s with
  | .ok _ _ => .ok ()
  | .error e _ => .error e

/-- The next row id may have moved on; nothing else has changed. -/
def Session.Refused (s s' : Session) : Prop :=
  ∃ next, s.state.nextRowid ≤ next ∧ s' = { s with state := { s.state with nextRowid := next } }

omit [Crc32Fast] in
theorem Session.Refused.refl (s : Session) : s.Refused s := ⟨s.state.nextRowid, le_rfl, rfl⟩

/-- A program that fails and leaves the table as it was, up to the next row id. -/
abbrev Session.Fails {α : Type} (x : StateResult Session α) (s : Session) : Prop :=
  wp x (fun _ _ => False) (fun _ => s.Refused) s

section

variable {s : Session} {M : TableModel} {P : Set ℕ}

omit [Crc32Fast] in
theorem Session.fails_bind {α β : Type} {x : StateResult Session α}
    {f : α → StateResult Session β} (h : Session.Fails x s) : Session.Fails (x >>= f) s :=
  wp_bind.mpr (h.mono (fun _ _ => False.elim) fun _ _ => id)

omit [Crc32Fast] in
theorem Session.fails_lift_bind {α β : Type} {x : Result α} {f : α → StateResult Session β}
    (h : ∀ a, x = .ok a → Session.Fails (f a) s) :
    Session.Fails ((liftM x : StateResult Session α) >>= f) s := by
  cases x with
  | ok a => exact h a rfl
  | error e => exact Session.Refused.refl s

omit [Crc32Fast] in
theorem wp_modifyState_bind {β : Type} {f : TableMeta → TableMeta} {k : Unit → StateResult Session β}
    {R : β → Session → Prop} {E : Fault → Session → Prop} :
    wp (modifyState f >>= k) R E s ↔ wp (k ()) R E { s with state := f s.state } := Iff.rfl

/-- The row is in a tree already. -/
theorem fails_insertRow {id : UInt64} {row : List UInt8}
    (h : TableAt s.state.rootPage s.state.indexes M s.file P) (hid : (M.rows id).isSome) :
    wp (Session.insertRow .code id row) (fun _ _ => False) (fun _ s' => s' = s) s := by
  obtain ⟨Q, hQ, -⟩ := h.rowsTree
  have hdup := insert_duplicate hQ.holds hid row
  have hrun : inGuard (TreeWriters.code.insertRow s.state.rootPage id row) s =
      .error (.error (.duplicateKey id)) s := by
    change TreeWriters.code.insertRow s.state.rootPage id row s.file = _ at hdup
    unfold inGuard
    rw [hdup]
  unfold Session.insertRow
  refine wp_get_bind.mpr ?_
  rw [wp_bind]
  exact (wp_of_error hrun).mpr rfl

/-- **An operation that fails in its checks leaves the table as it was.** -/
theorem fails_inPlace {call : RowCall} {e : Fault}
    (h : TableAt s.state.rootPage s.state.indexes M s.file P)
    (hclean : s.file.writeState = ⟨∅, 0⟩) (hchecks : call.checks s.view = .error e) :
    Session.Fails (call.inPlace .code) s := by
  -- `checks` repeats what the call itself looks at before it writes, so each call is followed up
  -- to the step at which the checks say that it fails
  cases call with
  | insert data =>
      refine Session.fails_bind ?_
      unfold Session.insert
      refine wp_get_bind.mpr (Session.fails_lift_bind fun _ htypes => ?_)
      change (Session.enforceIndexTypes s.state data >>= fun _ =>
        s.view.checkRow s.state.nextRowid data) = _ at hchecks
      rw [htypes] at hchecks
      change s.view.checkRow s.state.nextRowid data = _ at hchecks
      refine Session.fails_lift_bind fun next hnext => wp_modifyState_bind.mpr ?_
      have hle : s.state.nextRowid ≤ next := (lt_of_addOne hnext).le
      refine wp_ite (fun _ => ⟨next, hle, rfl⟩) fun hsize => ?_
      have hunique : s.view.checkRow s.state.nextRowid data = s.view.unique _ := if_neg hsize
      rw [hunique] at hchecks
      change Session.enforceUniqueIndexes s.file s.state
        (encodeRow s.state.nextRowid (columnValues s.state data)) = _ at hchecks
      rw [hchecks]
      -- an error of the unique check gives the row id back, any other fault leaves it taken
      cases e with
      | error e => exact ⟨s.state.nextRowid, le_rfl, rfl⟩
      | panic => exact ⟨next, hle, rfl⟩
      | overflow => exact ⟨next, hle, rfl⟩
      | unspecified => exact ⟨next, hle, rfl⟩
  | insertWithId rowid data =>
      refine Session.fails_bind ?_
      unfold Session.insertWithId
      refine wp_get_bind.mpr (Session.fails_lift_bind fun _ htypes => ?_)
      change (Session.enforceIndexTypes s.state data >>= fun _ => _) = _ at hchecks
      rw [htypes] at hchecks
      refine wp_ite (fun _ => Session.Refused.refl s) fun hsize => ?_
      refine Session.fails_lift_bind fun _ hunique => ?_
      have hrow : s.view.checkRow rowid data = .ok () := (if_neg hsize).trans hunique
      change (s.view.checkRow rowid data >>= fun _ => _) = _ at hchecks
      rw [hrow] at hchecks
      change (BTreeReader.search s.file s.state.rootPage rowid >>= fun found =>
        if found.isSome then fail (.duplicateKey rowid) else .ok ()) = _ at hchecks
      rw [search_tableAt h hclean, ok_bind] at hchecks
      have hid : (M.rows rowid).isSome := by
        by_contra hnone
        rw [if_neg hnone] at hchecks
        cases hchecks
      -- a taken id is found by the tree alone, when the next row id may have moved already
      have hlast : ∀ next, s.state.nextRowid ≤ next →
          wp (Session.insertRow .code rowid (encodeRow rowid (columnValues s.state data)) >>= fun _ =>
            Session.countRow) (fun _ _ => False) (fun _ => s.Refused)
            { s with state := { s.state with nextRowid := next } } := by
        intro next hle
        refine wp_bind.mpr ((@fails_insertRow _ { s with state := { s.state with nextRowid := next } }
          M P rowid _ h hid).mono (fun _ _ => False.elim) ?_)
        rintro _ _ rfl
        exact ⟨next, hle, rfl⟩
      refine wp_ite (fun hle => Session.fails_lift_bind fun next hnext => ?_) fun _ => ?_
      · exact wp_modifyState_bind.mpr (hlast next (hle.trans (lt_of_addOne hnext).le))
      · exact hlast s.state.nextRowid le_rfl
  | insertMany rows =>
      refine Session.fails_bind ?_
      unfold Session.insertMany
      refine wp_get_bind.mpr ?_
      change (rows.forM (Session.enforceIndexTypes s.state) >>= fun _ => _) = _ at hchecks
      rw [forM_lift]
      refine Session.fails_lift_bind fun _ htypes => ?_
      rw [htypes, ok_bind] at hchecks
      cases rows with
      | nil => cases hchecks
      | cons data rows =>
          refine Session.fails_bind ?_
          unfold Session.insertManyLoop
          refine wp_get_bind.mpr (Session.fails_lift_bind fun next _ => ?_)
          refine wp_ite (fun _ => Session.Refused.refl s) fun hsize => ?_
          cases hchecks.symm.trans (if_neg hsize)
  | update id fields =>
      refine Session.fails_bind ?_
      unfold Session.update
      refine wp_get_bind.mpr (Session.fails_lift_bind fun _ htypes => ?_)
      change (Session.enforceIndexTypes s.state fields >>= fun _ => _) = _ at hchecks
      rw [htypes] at hchecks
      change (BTreeReader.search s.file s.state.rootPage id >>= _) = _ at hchecks
      refine Session.fails_lift_bind fun found hfound => ?_
      rw [hfound, ok_bind] at hchecks
      cases found with
      | none => cases hchecks
      | some old =>
          refine Session.fails_lift_bind fun existing hexisting => ?_
          dsimp only at hchecks
          rw [hexisting] at hchecks
          cases hchecks
  | updateWhere filters fields =>
      refine Session.fails_bind ?_
      unfold Session.updateWhere
      refine wp_get_bind.mpr (Session.fails_lift_bind fun _ htypes => ?_)
      change Session.enforceIndexTypes s.state fields = _ at hchecks
      rw [htypes] at hchecks
      cases hchecks
  | delete id => cases hchecks
  | deleteWhere filters => cases hchecks

end

/-- The checks that a call makes before it writes a page. -/
def Call.checks (db : Db) : Call → Result Unit
  | .row table call =>
    match db.tables.lookup table with
    | none => fail (.tableNotFound table)
    | some state => call.checks (db.session state).view
  | .createTable name _ =>
    if (db.tables.lookup name).isSome then fail (.tableExists name) else pure ()
  | .dropTable name =>
    if (db.tables.lookup name).isNone then fail (.tableNotFound name) else pure ()
  | .createIndexEx table indexName columns _ =>
    if columns.isEmpty then
      fail (.schemaMismatch "create_index_ex requires at least one column")
    else
      match db.tables.lookup table with
      | none => fail (.tableNotFound table)
      | some state =>
        if (state.findIndex indexName).isSome then fail (.indexExists indexName)
        else discard (findColumns table state columns)
  | .dropIndex table indexName => attempt (Db.withTable table (Session.dropIndex indexName)) db
  | .addColumn table column => do
      checkColumnName column.name
      attempt (Db.withTable table (Session.addColumn table column)) db
  | .renameColumn table old new => do
      checkColumnName new
      attempt (Db.withTable table (Session.renameColumn table old new)) db
  | .dropColumn table name => attempt (Db.withTable table (Session.dropColumn table name)) db
  | .upsert .. | .upsertIncrement .. | .setDurability _ | .setAcid _ | .setMaxRowSize _ => pure ()

/-- What a call does in a transaction of its own, if it has one. -/
def Call.body (w : TreeWriters) (db : Db) : Call → Option (StateResult InTransaction Reply)
  | .row table call => if db.acid then some (call.inTransaction w table) else none
  | .upsert table key set => some (replied .rowid (InTransaction.upsert w table key set))
  | .upsertIncrement table key counter delta set =>
      some (replied .rowid (InTransaction.upsertIncrement w table key counter delta set))
  | _ => none

/-! ## Steps -/

/-- The renames that give no indexed column another type. -/
def Call.KeepsTypes (db : Db) : Call → Prop
  | .renameColumn table old new =>
      ∀ state, db.tables.lookup table = some state → BoogyDb.KeepsTypes state old new
  | _ => True

/-- A step of a database.  Insertions into trees find room, their rows meet `storable`, and
branches tell their keys apart; if the keys of indexes matter (`keyed`), renames keep types.  A
panic that leaves pages in the overlay has poisoned the lock, and no step follows it. -/
inductive DbStep (storable : UInt64 → List UInt8 → Prop) (keyed : Prop) (db : Db) : Db → Prop
  | returned {call : Call} {reply : Reply} {db' : Db} (hkeeps : keyed → call.KeepsTypes db)
      (h : call.perform (.watched storable) db = .ok reply db') : DbStep storable keyed db db'
  | refused {call : Call} {e : Fault} (hbody : call.body .code db = none)
      (hchecks : call.checks db = .error e) :
      DbStep storable keyed db (stateAfter (call.perform .code) db)
  | rolledBack {call : Call} {body : StateResult InTransaction Reply} {e : Fault}
      {s : InTransaction} (hbody : call.body .code db = some body)
      (h : body db.beginAcid = .error e s) (hleft : s.db.file.writeState = ⟨∅, 0⟩) :
      DbStep storable keyed db (stateAfter (call.perform .code) db)
  | committed {s s' : InTransaction} (hrun : TxRun storable db.beginAcid s)
      (h : InTransaction.commit s = .ok () s') : DbStep storable keyed db s'.db
  | dropped {s : InTransaction} (hrun : TxRun storable db.beginAcid s) :
      DbStep storable keyed db s.rollback

variable {db db' : Db} {Ms : String → TableModel}

/-- A transaction that is committed. -/
theorem DbMoves.committed {s s' : InTransaction} (h : DbInv storable keyed db Ms)
    (hstore : ∀ id row, storable id row → Storable id row) (hrun : TxRun storable db.beginAcid s)
    (hcommit : InTransaction.commit s = .ok () s') : DbMoves storable keyed db s'.db := by
  obtain ⟨hmoves, Ms', hinv⟩ := TxRun.inv h.beginAcid hstore hrun
  obtain ⟨hinv', hdb'⟩ := (wlp_txCommit hinv).ok hcommit
  refine ⟨⟨Ms', hinv'⟩, fun name state state' hname hname' => ?_⟩
  have hdb : s.db = db := hmoves.db
  rw [hdb'] at hname'
  change s.seenTables.lookup name = some state' at hname'
  rw [s.lookup_seenTables, hdb, hname] at hname'
  rw [← Option.some.inj hname']
  exact hmoves.next name state hname

/-- A call in a transaction of its own that returned: the body returned, and the commit. -/
theorem inTransaction_eq_ok {α : Type} {x : StateResult InTransaction α} {a : α}
    (h : Db.inTransaction x db = .ok a db') : ∃ s s', x db.beginAcid = .ok a s ∧
      InTransaction.commit s = .ok () s' ∧ db' = s'.db := by
  unfold Db.inTransaction at h
  cases hbody : x db.beginAcid with
  | error e s =>
      have hall : (do let a ← x; InTransaction.commit; pure a) (⟨db, .new⟩ : InTransaction) =
          .error e s := run_bind_error hbody
      rw [hall] at h
      cases h
  | ok b s =>
      have hall : (do let a ← x; InTransaction.commit; pure a) (⟨db, .new⟩ : InTransaction) =
          (do InTransaction.commit; pure b) s := run_bind_ok hbody
      rw [hall] at h
      cases hcommit : InTransaction.commit s with
      | error e s' =>
          have hfail : (do InTransaction.commit; pure b : StateResult InTransaction α) s =
            .error e s' := run_bind_error hcommit
          rw [hfail] at h
          cases h
      | ok _ s' =>
          have hdone : (do InTransaction.commit; pure b : StateResult InTransaction α) s =
            .ok b s' := run_bind_ok hcommit
          rw [hdone] at h
          cases h
          exact ⟨s, s', rfl, hcommit, rfl⟩

/-- A call in a transaction of its own. -/
theorem wlp_inTransaction {α : Type} {x : StateResult InTransaction α}
    (h : DbInv storable keyed db Ms) (hstore : ∀ id row, storable id row → Storable id row)
    (hx : Traces (.watched storable) x) :
    wlp (Db.inTransaction x) (fun _ db' => DbMoves storable keyed db db') db := by
  rw [wlp_iff]
  intro a db' hrun
  obtain ⟨s, s', hbody, hcommit, rfl⟩ := inTransaction_eq_ok hrun
  obtain ⟨-, hreturns⟩ := (hx db.beginAcid h.clean).ok hbody
  have hrun' : TxRun storable db.beginAcid s :=
    Relation.ReflTransGen.mono (fun _ _ hstep => TxStep.returned hstep) _ _ hreturns
  exact .committed h hstore hrun' hcommit

/-- A transaction of its own that fails before the commit leaves the database as it was. -/
theorem inTransaction_error {α : Type} {x : StateResult InTransaction α} {e : Fault}
    {s : InTransaction} (hclean : db.file.writeState = ⟨∅, 0⟩) (hx : LeavesDb x)
    (h : x db.beginAcid = .error e s) (hleft : s.db.file.writeState = ⟨∅, 0⟩) :
    Db.inTransaction x db = .error e db := by
  have hall : (do let a ← x; InTransaction.commit; pure a) (⟨db, .new⟩ : InTransaction) =
      .error e s := run_bind_error h
  unfold Db.inTransaction
  rw [hall]
  exact congrArg (EStateM.Result.error e) ((hx.error h).abandoned.db_eq hclean hleft)

/-! ### Calls that return -/

theorem Call.returned_moves {call : Call} (h : DbInv storable keyed db Ms)
    (hstore : ∀ id row, storable id row → Storable id row) (hkeeps : keyed → call.KeepsTypes db) :
    wlp (call.perform (.watched storable)) (fun _ db' => DbMoves storable keyed db db') db := by
  have hw : OverlayFrom.Writers (.watched storable) := OverlayFrom.watched storable
  have hreplied : ∀ {α : Type} {reply : α → Reply} {x : StateResult Db α},
      wlp x (fun _ db' => DbMoves storable keyed db db') db →
        wlp (replied reply x) (fun _ db' => DbMoves storable keyed db db') db := by
    intro α reply x hx
    exact (wlp_replied hx).post fun _ _ ⟨_, _, hmoves⟩ => hmoves
  cases call with
  | row table call =>
      refine wlp_get_bind.mpr (wlp_ite (fun _ => ?_) fun _ => ?_)
      · exact wlp_inTransaction h hstore (Traces.row hw call)
      · exact wlp_rowInPlace h call hstore
  | upsert table key set => exact hreplied (wlp_inTransaction h hstore (Traces.upsert hw key set))
  | upsertIncrement table key counter delta set =>
      exact hreplied (wlp_inTransaction h hstore (Traces.upsertIncrement hw key counter delta set))
  | createTable name columns => exact hreplied (wlp_createTable h)
  | dropTable name => exact hreplied (wlp_dropTable h)
  | createIndexEx table indexName columns unique => exact hreplied (wlp_dbCreateIndexEx h)
  | dropIndex table indexName => exact hreplied (wlp_dbDropIndex h)
  | addColumn table column => exact hreplied (wlp_dbAddColumn h)
  | renameColumn table old new => exact hreplied (wlp_dbRenameColumn h hkeeps)
  | dropColumn table name => exact hreplied (wlp_dbDropColumn h)
  | setDurability durability => exact .same ⟨h.clean, h.ok⟩ rfl
  | setAcid enabled => exact .same ⟨h.clean, h.ok⟩ rfl
  | setMaxRowSize bytes => exact .same ⟨h.clean, h.ok⟩ rfl

/-! ### Calls that are refused -/

/-- A table whose next row id has moved on. -/
theorem DbInv.refused {table : String} {state : TableMeta} {s' : Session}
    (h : DbInv storable keyed db Ms) (hname : db.tables.lookup table = some state)
    (hs' : (db.session state).Refused s') : DbInv storable keyed (db.leave table s') Ms := by
  obtain ⟨next, hle, rfl⟩ := hs'
  obtain ⟨started, hok⟩ := h.ok
  obtain ⟨htable, P, hP, hback⟩ := hok.table hname
  have hnext : TableOk storable keyed { state with nextRowid := next } (Ms table) := by
    refine htable.sameSchema ⟨rfl, rfl, rfl, rfl, rfl, rfl, rfl⟩ ?_ fun hinv => ?_
    · exact fun hindexed => IndexedBy.congr hindexed ⟨rfl, rfl, rfl, rfl, rfl, rfl, rfl⟩ rfl
    · exact ⟨hinv.stored, hinv.counted, fun id row hrow => (hinv.below id row hrow).trans_le hle⟩
  have hall := hback _ (Ms table) _ hnext (Turns.refl hP)
  rw [Function.update_eq_self] at hall
  exact ⟨h.clean, started, hall⟩

/-- The next row id of a table may have moved on; nothing else has changed. -/
def Db.Refused (db db' : Db) : Prop :=
  db' = db ∨ ∃ table state s', db.tables.lookup table = some state ∧
    (db.session state).Refused s' ∧ db' = db.leave table s'

theorem Db.Refused.inv (h : db.Refused db') (hinv : DbInv storable keyed db Ms) :
    DbInv storable keyed db' Ms := by
  rcases h with rfl | ⟨table, state, s', hname, hs', rfl⟩
  · exact hinv
  · exact hinv.refused hname hs'

theorem Db.Refused.moves (h : db.Refused db') (hinv : DbInv storable keyed db Ms) :
    DbMoves storable keyed db db' := by
  have hinv' := h.inv hinv
  rcases h with rfl | ⟨table, state, s', hname, ⟨next, hle, rfl⟩, rfl⟩
  · exact .same hinv rfl
  · exact .oneTable hinv' hname rfl hle

omit [Crc32Fast] in
theorem wp_withTable_refused {α : Type} {table : String} {x : StateResult Session α}
    {Q : α → Db → Prop} (hx : ∀ state, db.tables.lookup table = some state →
      wp x (fun a s' => Q a (db.leave table s')) (fun _ => (db.session state).Refused)
        (db.session state)) :
    wp (Db.withTable table x) Q (fun _ => db.Refused) db := by
  rw [wp]
  unfold Db.withTable
  cases hname : db.tables.lookup table with
  | none => exact .inl rfl
  | some state =>
      have hrun := hx state hname
      dsimp only
      change wp x _ _ ⟨state, db.file, db.wal, db.durability, db.maxRowSize⟩ at hrun
      cases hres : x ⟨state, db.file, db.wal, db.durability, db.maxRowSize⟩ with
      | ok a s' => exact hrun.ok hres
      | error e s' => exact .inr ⟨table, state, s', hname, hrun.error hres, rfl⟩

omit [Crc32Fast] in
theorem attempt_fails {σ α : Type} {x : StateResult σ α} {s : σ} {e : Fault} {E : Fault → σ → Prop}
    (h : attempt x s = .error e) (hx : wp x (fun _ _ => True) E s) : wp x (fun _ _ => False) E s := by
  refine wp.fails hx fun a s' hres => ?_
  unfold attempt at h
  rw [hres] at h
  cases h

/-- A change of the schema that the table refuses. -/
theorem alterTable_refused {table : String} {x : StateResult Session Unit} {e : Fault}
    (hx : ∀ s : Session, wp x (fun _ _ => True) (fun _ => s.Refused) s)
    (hchecks : attempt (Db.withTable table x) db = .error e) :
    wp (Db.alterTable table x) (fun _ _ => False) (fun _ => db.Refused) db := by
  unfold Db.alterTable
  rw [wp_bind]
  exact (attempt_fails hchecks (wp_withTable_refused fun state _ => hx _)).mono
    (fun _ _ => False.elim) fun _ _ => id

theorem Call.refused_leaves {call : Call} {e : Fault} (h : DbInv storable keyed db Ms)
    (hbody : call.body .code db = none) (hchecks : call.checks db = .error e) :
    wp (call.perform .code) (fun _ _ => False) (fun _ => db.Refused) db := by
  have hsame : db.Refused db := .inl rfl
  have hreplied : ∀ {α : Type} {reply : α → Reply} {x : StateResult Db α},
      wp x (fun _ _ => False) (fun _ => db.Refused) db →
        wp (replied reply x) (fun _ _ => False) (fun _ => db.Refused) db :=
    fun hx => wp_bind.mpr (hx.mono (fun _ _ => False.elim) fun _ _ => id)
  -- a call fails before it stages a page only in the checks that `Call.checks` repeats, which come
  -- in the same order
  cases call with
  | row table call =>
      refine wp_get_bind.mpr (wp_ite (fun hacid => ?_) fun _ => ?_)
      · cases (if_pos hacid).symm.trans hbody
      · refine wp_withTable_refused fun state hname => ?_
        rw [Call.checks, hname] at hchecks
        obtain ⟨started, hok⟩ := h.ok
        obtain ⟨-, P, hP, -⟩ := hok.table hname
        exact (@fails_inPlace _ (db.session state) _ P call e hP h.clean hchecks).mono
          (fun _ _ => False.elim) fun _ _ => id
  | createTable name columns =>
      refine hreplied (wp_get_bind.mpr (wp_ite (fun _ => hsame) fun hfree => ?_))
      cases (if_neg hfree).symm.trans hchecks
  | dropTable name =>
      refine hreplied (wp_get_bind.mpr (wp_ite (fun _ => hsame) fun hthere => ?_))
      cases (if_neg hthere).symm.trans hchecks
  | createIndexEx table indexName columns unique =>
      refine hreplied (wp_ite (fun _ => hsame) fun hcolumns => ?_)
      rw [Call.checks, if_neg hcolumns] at hchecks
      unfold Db.alterTable
      rw [wp_bind]
      refine (wp_withTable_refused (Q := fun _ _ => False) fun state hname => ?_).mono
        (fun _ _ => False.elim) fun _ _ => id
      rw [hname] at hchecks
      dsimp only at hchecks
      unfold Session.createIndex
      refine wp_get_bind.mpr (wp_ite (fun _ => Session.Refused.refl _) fun hnew => ?_)
      refine Session.fails_lift_bind fun cols hcols => ?_
      change ¬(state.findIndex indexName).isSome = true at hnew
      rw [if_neg hnew] at hchecks
      change findColumns table state columns = .ok cols at hcols
      rw [hcols] at hchecks
      cases hchecks
  | dropIndex table indexName =>
      refine hreplied (alterTable_refused (fun s => ?_) hchecks)
      refine wp_get_bind.mpr ?_
      cases s.state.indexes.findIdx? fun idx => idx.name = indexName with
      | none => exact Session.Refused.refl s
      | some pos => trivial
  | addColumn table column =>
      refine hreplied ?_
      unfold Db.addColumn
      rw [wp_bind]
      cases hcolumn : checkColumnName column.name with
      | error e' => exact (wp_lift_error rfl).mpr hsame
      | ok _ =>
          rw [Call.checks, hcolumn] at hchecks
          refine (wp_lift_ok rfl).mpr (alterTable_refused (fun s => ?_) hchecks)
          refine wp_get_bind.mpr (wp_ite (fun _ => Session.Refused.refl s) fun _ => ?_)
          exact wp_ite (fun _ => Session.Refused.refl s) fun _ => trivial
  | renameColumn table old new =>
      refine hreplied ?_
      unfold Db.renameColumn
      rw [wp_bind]
      cases hcolumn : checkColumnName new with
      | error e' => exact (wp_lift_error rfl).mpr hsame
      | ok _ =>
          rw [Call.checks, hcolumn] at hchecks
          refine (wp_lift_ok rfl).mpr (alterTable_refused (fun s => ?_) hchecks)
          refine wp_get_bind.mpr (wp_ite (fun _ => Session.Refused.refl s) fun _ => ?_)
          exact wp_ite (fun _ => Session.Refused.refl s) fun _ => trivial
  | dropColumn table name =>
      refine hreplied (alterTable_refused (fun s => ?_) hchecks)
      refine wp_get_bind.mpr (wp_ite (fun _ => Session.Refused.refl s) fun _ => ?_)
      cases s.state.indexes.find? fun idx => name ∈ idx.columns with
      | some idx => exact Session.Refused.refl s
      | none => trivial
  | upsert table key set => cases hchecks
  | upsertIncrement table key counter delta set => cases hchecks
  | setDurability durability => cases hchecks
  | setAcid enabled => cases hchecks
  | setMaxRowSize bytes => cases hchecks

/-! ## Runs -/

/-- A call that fails before its commit leaves the database as it was. -/
theorem Call.rolledBack {call : Call} {body : StateResult InTransaction Reply} {e : Fault}
    {s : InTransaction} (hclean : db.file.writeState = ⟨∅, 0⟩)
    (hbody : call.body .code db = some body) (h : body db.beginAcid = .error e s)
    (hleft : s.db.file.writeState = ⟨∅, 0⟩) : call.perform .code db = .error e db := by
  -- an upsert names its result behind the commit
  have hupsert : ∀ x : StateResult InTransaction UInt64, LeavesDb x → body = replied .rowid x →
      replied .rowid (Db.inTransaction x) db = .error e db := by
    rintro x hx rfl
    refine run_bind_error (inTransaction_error hclean hx (s := s) ?_ hleft)
    cases hres : x db.beginAcid with
    | ok a s' =>
        rw [replied, run_bind_ok hres] at h
        cases h
    | error e' s' =>
        rw [replied, run_bind_error hres] at h
        cases h
        rfl
  cases call with
  | row table call =>
      rw [Call.body] at hbody
      split at hbody
      · rename_i hacid
        obtain rfl := Option.some.inj hbody
        show (if db.acid then Db.inTransaction (call.inTransaction .code table)
          else Db.withTable table (call.inPlace .code)) db = _
        rw [if_pos hacid]
        exact inTransaction_error hclean (LeavesDb.row OverlayFrom.code table call) h hleft
      · cases hbody
  | upsert table key set =>
      exact hupsert _ (LeavesDb.upsert OverlayFrom.code _ _ _) (Option.some.inj hbody).symm
  | upsertIncrement table key counter delta set =>
      exact hupsert _ (LeavesDb.upsertIncrement OverlayFrom.code _ _ _ _ _)
        (Option.some.inj hbody).symm
  | _ => cases hbody

/-- **Every step keeps the tables sound.** -/
theorem DbStep.moves (h : DbInv storable keyed db Ms)
    (hstore : ∀ id row, storable id row → Storable id row) (hstep : DbStep storable keyed db db') :
    DbMoves storable keyed db db' := by
  cases hstep with
  | returned hkeeps hcall => exact (Call.returned_moves h hstore hkeeps).ok hcall
  | @refused call e hbody hchecks =>
      have hrun := Call.refused_leaves h hbody hchecks
      unfold stateAfter
      split
      · rename_i hx
        exact (hrun.ok hx).elim
      · rename_i hx
        exact (hrun.error hx).moves h
  | rolledBack hbody hfail hleft =>
      rw [stateAfter, Call.rolledBack h.clean hbody hfail hleft]
      exact .same h rfl
  | committed hrun hcommit => exact .committed h hstore hrun hcommit
  | @dropped s hrun =>
      obtain ⟨hmoves, -⟩ := TxRun.inv h.beginAcid hstore hrun
      have hdb : s.rollback = db := hmoves.db
      rw [hdb]
      exact .same h rfl

omit [Crc32Fast] in
theorem wal_open_header : Wal.open (Wal.header 0) = .ok ⟨Wal.header 0, 1, 0⟩ := by
  have hlen : (Wal.header 0).length = 16 := by decide
  have hmagic : readLe (Wal.header 0) 0 4 = walMagic := by decide
  have hcount : readLe (Wal.header 0) 8 4 = 0 := by decide
  rw [Wal.open, if_neg (by rw [hlen]; decide), if_neg (by rw [hlen]; decide),
    if_neg (by rw [hmagic]; simp), hcount]
  rfl

/-- A new database has no tables and no pages. -/
def newDb : Db :=
  ⟨PageFile.open [], ⟨Wal.header 0, 1, 0⟩, ∅, 1, .normal, false, 10 * 1024 * 1024⟩

theorem open_new : Db.open ⟨[], []⟩ = .ok newDb := by
  have hrecover : Db.recover ⟨[], []⟩ = .ok ⟨[], Wal.header 0⟩ := rfl
  rw [Db.open, hrecover, ok_bind]
  dsimp only
  rw [wal_open_header]
  rfl

theorem DbInv.new {db : Db} (h : Db.open ⟨[], []⟩ = .ok db) :
    DbInv storable keyed db fun _ => ⟨fun _ => none, fun _ => ∅⟩ := by
  rw [open_new] at h
  obtain rfl := Except.ok.inj h
  refine ⟨rfl, false, ⟨∅, fun _ => ∅, ⟨fun i => ?_, fun i j _ => Set.disjoint_empty _⟩, ?_⟩,
    fun name state hname => ?_, fun _ => ⟨fun name => rfl, rfl⟩⟩
  · cases i with
    | none => rfl
    | some name => rfl
  · simp
  · cases hname

/-- The states of a run from a new database. -/
def Reaches (storable : UInt64 → List UInt8 → Prop) (keyed : Prop) (db : Db) : Prop :=
  ∃ new, Db.open ⟨[], []⟩ = .ok new ∧ Relation.ReflTransGen (DbStep storable keyed) new db

/-- **Every state of a run has sound tables.** -/
theorem Reaches.inv (hstore : ∀ id row, storable id row → Storable id row)
    (h : Reaches storable keyed db) : ∃ Ms, DbInv storable keyed db Ms := by
  obtain ⟨new, hopen, hrun⟩ := h
  induction hrun with
  | refl => exact ⟨_, DbInv.new hopen⟩
  | tail _ hstep ih =>
      obtain ⟨Ms, hinv⟩ := ih
      exact (hstep.moves hinv hstore).inv

end

/-- The state after calls, of which some return and some fail. -/
def Db.after [Crc32Fast] (db : Db) (calls : List Call) : Db :=
  calls.foldl (fun (db : Db) (call : Call) => stateAfter (call.perform .code) db) db

theorem Db.after_cons [Crc32Fast] (db : Db) (call : Call) (calls : List Call) :
    db.after (call :: calls) = (stateAfter (call.perform .code) db).after calls := rfl

theorem Db.after_nil [Crc32Fast] (db : Db) : db.after [] = db := rfl

/-! ## A new table -/

theorem exists_of_attempt {σ α : Type} {x : StateResult σ α} {s : σ}
    (h : (attempt x s).toOption.isSome = true) : ∃ a, x s = .ok a (stateAfter x s) := by
  unfold attempt at h
  unfold stateAfter
  cases hx : x s with
  | ok a s' => exact ⟨a, rfl⟩
  | error e s' =>
      rw [hx] at h
      cases h

/-- A table with one column. -/
def createFlags : Call := .createTable "t" [⟨"flag", .boolean, true, false, none, false⟩]

/-- A row of the table. -/
def insertFlag : Call := .row "t" (.insert [("flag", .boolean true)])

/-- The table is created. -/
theorem createFlags_returns : letI := crc32Ieee
    ∃ reply, createFlags.perform .code newDb =
      .ok reply (stateAfter (createFlags.perform .code) newDb) := by
  let := crc32Ieee
  exact exists_of_attempt (by decide +kernel)

end BoogyDb
