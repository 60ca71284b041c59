import BoogyDb.RedoInvariant

/-!
# Every call keeps the log

A call works on the overlay and commits it, once or several times, so it keeps the log
(`KeepsLog`), whether it returns or fails.  There is one lemma for each operation; a program
under the write guard only has to leave the file as it is (`Framed`).
-/

namespace BoogyDb

open Wp WriteGuard

section

variable [Crc32Fast] {σ : Type} [Logging σ]

/-- The log of a state that has been `complete` since `wal₀`. -/
def Redoable (wal₀ : Wal) (complete : Prop) (s : σ) : Prop :=
  Logging.durability s ≠ .none ∧ LogOf wal₀ complete (Logging.file s) (Logging.wal s)

theorem Redoable.mono {wal₀ : Wal} {p q : Prop} {s : σ} (h : Redoable wal₀ p s) (hpq : q → p) :
    Redoable wal₀ q s := ⟨h.1, h.2.mono hpq⟩

/-- A program that logs what it publishes; if it fails with a full log, the log is not complete. -/
def KeepsLog {α : Type} (x : StateResult σ α) : Prop :=
  ∀ (wal₀ : Wal) (complete : Prop) (s : σ), wal₀.Logs [] → Redoable wal₀ complete s →
    wp x (fun _ => Redoable wal₀ complete) (fun e => Redoable wal₀ (complete ∧ e ≠ walFull)) s

namespace KeepsLog

variable {α β γ : Type}

theorem pure (a : α) : KeepsLog (pure a : StateResult σ α) := fun _ _ _ _ h => h

theorem throw (e : Fault) : KeepsLog (throw e : StateResult σ α) := fun _ _ _ _ h =>
  h.mono And.left

theorem get : KeepsLog (get : StateResult σ σ) := fun _ _ _ _ h => h

theorem bind {x : StateResult σ α} {f : α → StateResult σ β} (hx : KeepsLog x)
    (hf : ∀ a, KeepsLog (f a)) : KeepsLog (x >>= f) := fun wal₀ complete s hstart h =>
  wp_bind.mpr ((hx wal₀ complete s hstart h).mono (fun a s' h' => hf a wal₀ complete s' hstart h')
    fun _ _ => id)

theorem ite {c : Prop} [Decidable c] {x y : StateResult σ α} (hx : KeepsLog x)
    (hy : KeepsLog y) : KeepsLog (if c then x else y) := fun wal₀ complete s hstart h =>
  wp_ite (fun _ => hx wal₀ complete s hstart h) fun _ => hy wal₀ complete s hstart h

theorem lift (x : Result α) : KeepsLog (liftM x : StateResult σ α) := by
  intro wal₀ complete s hstart h
  cases x with
  | ok a => exact h
  | error e => exact h.mono And.left

theorem forM {f : γ → StateResult σ PUnit} (l : List γ) (hf : ∀ a, KeepsLog (f a)) :
    KeepsLog (l.forM f) := by
  induction l with
  | nil => exact pure _
  | cons a l ih => exact (hf a).bind fun _ => ih

theorem replied {x : StateResult σ α} {reply : α → Reply} (hx : KeepsLog x) :
    KeepsLog (BoogyDb.replied reply x) := hx.bind fun _ => pure _

end KeepsLog

end

namespace KeepsLog

section

variable [Crc32Fast] {α : Type}

/-! ## Under a table's lock -/

/-- Under the write guard. -/
theorem inGuard {x : StateResult WriteGuard α} (hx : Framed x) : KeepsLog (BoogyDb.inGuard x) := by
  intro wal₀ complete s _ h
  rw [wp, BoogyDb.inGuard]
  cases hrun : x s.file with
  | ok a g => exact ⟨h.1, h.2.sameFile (hx.ok hrun)⟩
  | error e g => exact ⟨h.1, (h.2.sameFile (hx.error hrun)).mono And.left⟩

theorem modifyState (f : TableMeta → TableMeta) : KeepsLog (BoogyDb.modifyState f) :=
  fun _ _ _ _ h => h

theorem commitWrite : KeepsLog BoogyDb.commitWrite := by
  intro wal₀ complete s hstart h
  rw [wp, BoogyDb.commitWrite]
  cases hrun : BoogyDb.commitFile s.durability s.state.tableId s.file s.wal with
  | ok r => exact ⟨h.1, h.2.commitFile_ok hstart h.1 hrun⟩
  | error r => exact ⟨h.1, h.2.commitFile_error hstart h.1 hrun⟩

theorem indexUpdateRow (rowid : UInt64) (bytes : List UInt8) (remove : Bool) :
    KeepsLog (Session.indexUpdateRow .code rowid bytes remove) := by
  have hloop : ∀ rest done,
      KeepsLog (Session.indexUpdateLoop .code rowid bytes remove done rest) := by
    intro rest
    induction rest with
    | nil => exact fun _ => pure _
    | cons idx rest ih =>
        exact fun done => get.bind fun _ => (inGuard (Framed.updateIndex _ _ _ _ _)).bind fun _ =>
          (modifyState _).bind fun _ => ih _
  exact get.bind fun _ => hloop _ _

theorem insertRow (rowid : UInt64) (row : List UInt8) : KeepsLog (Session.insertRow .code rowid row) :=
  get.bind fun _ => (inGuard (Framed.insertRow _ _ _)).bind fun _ => (modifyState _).bind fun _ =>
    (indexUpdateRow _ _ _).bind fun _ => commitWrite

theorem countRow : KeepsLog Session.countRow :=
  get.bind fun _ => (lift _).bind fun _ => modifyState _

theorem insert (data : RowData) : KeepsLog (Session.insert .code data) := by
  refine get.bind fun s => (lift _).bind fun _ => (lift _).bind fun nextRowid => ?_
  refine (modifyState _).bind fun _ => ite (throw _) ?_
  cases Session.enforceUniqueIndexes s.file s.state
      (encodeRow s.state.nextRowid (columnValues s.state data)) with
  | ok _ => exact (insertRow _ _).bind fun _ => countRow.bind fun _ => pure _
  | error e =>
      cases e with
      | error e => exact (modifyState _).bind fun _ => throw _
      | panic => exact throw _
      | overflow => exact throw _
      | unspecified => exact throw _

theorem insertWithId (rowid : UInt64) (data : RowData) :
    KeepsLog (Session.insertWithId .code rowid data) := by
  have hlast : ∀ row, KeepsLog (do Session.insertRow .code rowid row; Session.countRow) :=
    fun row => (insertRow _ _).bind fun _ => countRow
  refine get.bind fun s => (lift _).bind fun _ => ite (throw _) ((lift _).bind fun _ => ?_)
  exact ite ((lift _).bind fun _ => (modifyState _).bind fun _ => hlast _) (hlast _)

theorem replaceRow (id : UInt64) (existingBytes newRow : List UInt8) :
    KeepsLog (Session.replaceRow .code id existingBytes newRow) :=
  (indexUpdateRow _ _ _).bind fun _ => get.bind fun _ => (inGuard (Framed.deleteRow _ _)).bind
    fun _ => (inGuard (Framed.insertRow _ _ _)).bind fun _ => (modifyState _).bind fun _ =>
      (indexUpdateRow _ _ _).bind fun _ => commitWrite

theorem update (id : UInt64) (fields : RowData) : KeepsLog (Session.update .code id fields) := by
  refine get.bind fun s => (lift _).bind fun _ => (lift _).bind fun found => ?_
  cases found with
  | none => exact pure _
  | some existingBytes => exact (lift _).bind fun _ => (replaceRow _ _ _).bind fun _ => pure _

theorem delete (id : UInt64) : KeepsLog (Session.delete .code id) := by
  unfold Session.delete
  refine get.bind fun s => ?_
  have hcount : ∀ deleted : Bool, KeepsLog (do
      if deleted then do
        let s ← MonadState.get
        let rowCount ← subtract s.state.rowCount 1
        BoogyDb.modifyState fun state => { state with rowCount }
      else Pure.pure ()
      Pure.pure deleted : StateResult Session Bool) := fun deleted =>
    ite (get.bind fun _ => (lift _).bind fun _ => (modifyState _).bind fun _ => pure _) (pure _)
  extract_lets rest
  have hrest : ∀ rowBytes : Option (List UInt8), KeepsLog (rest rowBytes) := by
    intro rowBytes
    refine (inGuard (Framed.deleteRow _ _)).bind fun deleted => ?_
    have hcommit := commitWrite.bind fun _ => hcount deleted
    cases rowBytes with
    | none => exact hcommit
    | some bytes => exact ite ((indexUpdateRow _ _ _).bind fun _ => hcommit) hcommit
  exact ite (hrest none) ((lift _).bind hrest)

/-! ### Many rows -/

theorem insertMany (rows : List RowData) : KeepsLog (Session.insertMany .code rows) := by
  have hloop : ∀ (rows : List RowData) root nextRowid ids,
      KeepsLog (Session.insertManyLoop .code rows root nextRowid ids) := by
    intro rows
    induction rows with
    | nil => exact fun _ _ _ => pure _
    | cons data rows ih =>
        intro root rowid ids
        refine get.bind fun s => (lift _).bind fun _ => ite (throw _) ?_
        exact (inGuard (Framed.insertRow _ _ _)).bind fun _ => (indexUpdateRow _ _ _).bind fun _ =>
          ih _ _ _
  refine get.bind fun s => (forM _ fun _ => lift _).bind fun _ => (hloop _ _ _ _).bind fun _ => ?_
  exact commitWrite.bind fun _ => (lift _).bind fun _ => (modifyState _).bind fun _ => pure _

theorem updateWhere (filters : List Filter) (fields : RowData) :
    KeepsLog (Session.updateWhere .code filters fields) := by
  have hreinsert : ∀ updates, KeepsLog (Session.reinsertRows .code updates) := by
    intro updates
    induction updates with
    | nil => exact pure _
    | cons update updates ih =>
        exact get.bind fun _ => (inGuard (Framed.deleteRow _ _)).bind fun _ =>
          (inGuard (Framed.insertRow _ _ _)).bind fun _ => (modifyState _).bind fun _ => ih
  have hreindex : ∀ updates, KeepsLog (Session.reindexRows .code updates) := by
    intro updates
    induction updates with
    | nil => exact pure _
    | cons update updates ih =>
        exact (indexUpdateRow _ _ _).bind fun _ => (indexUpdateRow _ _ _).bind fun _ => ih
  refine get.bind fun s => (lift _).bind fun _ => ?_
  refine (inGuard (Framed.readOnly _)).bind fun _ => (inGuard (Framed.updateMatching _ _ _)).bind ?_
  exact fun _ => (hreinsert _).bind fun _ => (hreindex _).bind fun _ => commitWrite.bind fun _ =>
    pure _

theorem deleteWhere (filters : List Filter) : KeepsLog (Session.deleteWhere .code filters) := by
  have hunindex : ∀ deleted, KeepsLog (Session.unindexRows .code deleted) := by
    intro deleted
    induction deleted with
    | nil => exact pure _
    | cons row deleted ih => exact (indexUpdateRow _ _ _).bind fun _ => ih
  refine get.bind fun s => (inGuard (Framed.readOnly _)).bind fun _ => ?_
  refine (inGuard (Framed.deleteMatching _ _)).bind fun _ => (hunindex _).bind fun _ => ?_
  exact commitWrite.bind fun _ => get.bind fun _ => (lift _).bind fun _ => (modifyState _).bind
    fun _ => pure _

theorem inPlace (call : RowCall) : KeepsLog (call.inPlace .code) := by
  cases call with
  | insert data => exact (insert _).replied
  | insertWithId rowid data => exact (insertWithId _ _).replied
  | insertMany rows => exact (insertMany _).replied
  | update id fields => exact (update _ _).replied
  | updateWhere filters fields => exact (updateWhere _ _).replied
  | delete id => exact (delete _).replied
  | deleteWhere filters => exact (deleteWhere _).replied

/-! ### The schema -/

theorem createIndex (table indexName : String) (columns : List String) (unique : Bool) :
    KeepsLog (Session.createIndex .code table indexName columns unique) := by
  refine get.bind fun s => ite (throw _) ((lift _).bind fun _ => (lift _).bind fun _ => ?_)
  refine (inGuard Framed.createTree).bind fun _ => (inGuard (Framed.populateIndex _ _ _ _ _ _)).bind ?_
  exact fun _ => commitWrite.bind fun _ => modifyState _

theorem dropIndex (indexName : String) : KeepsLog (Session.dropIndex indexName) := by
  refine get.bind fun s => ?_
  cases s.state.indexes.findIdx? fun idx => idx.name = indexName with
  | none => exact throw _
  | some pos => exact modifyState _

theorem addColumn (table : String) (column : ColumnDef) :
    KeepsLog (Session.addColumn table column) :=
  get.bind fun _ => ite (throw _) (ite (throw _) (modifyState _))

theorem renameColumn (table old new : String) : KeepsLog (Session.renameColumn table old new) :=
  get.bind fun _ => ite (throw _) (ite (throw _) (modifyState _))

theorem dropColumn (table name : String) : KeepsLog (Session.dropColumn table name) := by
  refine get.bind fun s => ite (throw _) ?_
  cases s.state.indexes.find? fun idx => decide (name ∈ idx.columns) with
  | none => exact modifyState _
  | some idx => exact throw _

/-! ## The database -/

/-- A change of what is not the file, the log or the durability. -/
theorem modifyDb {f : Db → Db} (hf : ∀ db, (f db).file = db.file ∧ (f db).wal = db.wal ∧
    (f db).durability = db.durability) : KeepsLog (modify f : StateResult Db PUnit) := by
  intro wal₀ complete db _ h
  obtain ⟨hfile, hwal, hdur⟩ := hf db
  change Redoable wal₀ complete (f db)
  unfold Redoable
  change (f db).durability ≠ .none ∧ LogOf wal₀ complete (f db).file (f db).wal
  rw [hfile, hwal, hdur]
  exact h

theorem inFile {x : StateResult WriteGuard α} (hx : Framed x) : KeepsLog (Db.inFile x) := by
  intro wal₀ complete db _ h
  rw [wp, Db.inFile]
  cases hrun : x db.file with
  | ok a g => exact ⟨h.1, h.2.sameFile (hx.ok hrun)⟩
  | error e g => exact ⟨h.1, (h.2.sameFile (hx.error hrun)).mono And.left⟩

theorem dbCommitWrite (tableId : UInt32) : KeepsLog (Db.commitWrite tableId) := by
  intro wal₀ complete db hstart h
  rw [wp, Db.commitWrite]
  cases hrun : BoogyDb.commitFile db.durability tableId db.file db.wal with
  | ok r => exact ⟨h.1, h.2.commitFile_ok hstart h.1 hrun⟩
  | error r => exact ⟨h.1, h.2.commitFile_error hstart h.1 hrun⟩

theorem persistRegistry : KeepsLog Db.persistRegistry :=
  get.bind fun _ => (inFile (Framed.writeRegistry _ _)).bind fun _ => dbCommitWrite _

theorem withTable {x : StateResult Session α} (table : String) (hx : KeepsLog x) :
    KeepsLog (Db.withTable table x) := by
  intro wal₀ complete db hstart h
  rw [wp, Db.withTable]
  cases db.tables.lookup table with
  | none => exact h.mono And.left
  | some state =>
      have hrun := hx wal₀ complete ⟨state, db.file, db.wal, db.durability, db.maxRowSize⟩ hstart h
      dsimp only
      cases hres : x ⟨state, db.file, db.wal, db.durability, db.maxRowSize⟩ with
      | ok a s' => exact ⟨h.1, ((wp_of_ok hres).mp hrun).2⟩
      | error e s' => exact ⟨h.1, ((wp_of_error hres).mp hrun).2⟩

theorem createTable (name : String) (columns : List ColumnDef) :
    KeepsLog (Db.createTable name columns) := by
  have hrest : ∀ db : Db, KeepsLog (do
      let root ← Db.inFile BTreeWriter.create
      let nextTableId ← addOne32 db.nextTableId
      modify fun db => { db with nextTableId }
      Db.commitWrite db.nextTableId
      modify fun db' => { db' with
        tables := db'.tables.insert name (TableMeta.new name db.nextTableId columns root) }
      Db.persistRegistry : StateResult Db Unit) := by
    intro db
    refine (inFile Framed.createTree).bind fun root => (lift _).bind fun nextTableId => ?_
    refine KeepsLog.bind (modifyDb ?_) fun _ => (dbCommitWrite _).bind fun _ => ?_
    · exact fun _ => ⟨rfl, rfl, rfl⟩
    refine KeepsLog.bind (modifyDb ?_) fun _ => persistRegistry
    exact fun _ => ⟨rfl, rfl, rfl⟩
  refine get.bind fun db => ite (throw _) (ite ?_ (hrest db))
  exact ((inFile Framed.allocatePage).bind fun _ => pure _).bind fun _ => hrest db

theorem dropTable (name : String) : KeepsLog (Db.dropTable name) := by
  refine get.bind fun _ => ite (throw _) (KeepsLog.bind (modifyDb ?_) fun _ => persistRegistry)
  exact fun _ => ⟨rfl, rfl, rfl⟩

theorem alterTable (table : String) {x : StateResult Session Unit} (hx : KeepsLog x) :
    KeepsLog (Db.alterTable table x) := (withTable table hx).bind fun _ => persistRegistry

/-! ## Transactions -/

/-- A call of a transaction does not touch what is committed. -/
theorem of_leavesDb {x : StateResult InTransaction α} (hx : LeavesDb x) : KeepsLog x := by
  intro wal₀ complete s _ h
  have hleave : ∀ s' : InTransaction, Abandoned s s' → Redoable wal₀ complete s' := by
    rintro s' ⟨w, hdb⟩
    have hsame : SameFile s.db.file { s.db.file with writeState := w } := rfl
    change s'.db.durability ≠ .none ∧ LogOf wal₀ complete s'.db.file s'.db.wal
    rw [hdb]
    exact ⟨h.1, h.2.sameFile hsame⟩
  exact (hx.abandons s).mono (fun _ s' hs' => hleave s' hs') fun _ s' hs' =>
    (hleave s' hs').mono And.left

theorem txCommit : KeepsLog InTransaction.commit := by
  intro wal₀ complete s hstart h
  rw [wp, InTransaction.commit]
  by_cases hempty : (s.tx.privateDirty.entries.isEmpty && s.tx.metaDeltas.entries.isEmpty) = true
  · rw [if_pos hempty]
    exact h
  rw [if_neg hempty]
  dsimp only
  set tableId := (((s.tx.metaDeltas.entries.map fun e => (e.1, e.2)).head?.map fun d =>
    d.2.tableId).getD 0) with htableId
  have hguard : LogOf wal₀ complete (s.tx.enter s.db.file) s.db.wal := h.2.sameFile rfl
  cases hrun : BoogyDb.commitFile s.db.durability tableId (s.tx.enter s.db.file) s.db.wal with
  | ok r => exact ⟨h.1, hguard.commitFile_ok hstart h.1 hrun⟩
  | error r => exact ⟨h.1, hguard.commitFile_error hstart h.1 hrun⟩

/-- A transaction for one call. -/
theorem inTransaction {x : StateResult InTransaction α} (hx : LeavesDb x) :
    KeepsLog (Db.inTransaction x) := by
  intro wal₀ complete db hstart h
  have hall : KeepsLog (do let a ← x; InTransaction.commit; Pure.pure a) :=
    (of_leavesDb hx).bind fun a => txCommit.bind fun _ => pure _
  have hrun := hall wal₀ complete ⟨db, .new⟩ hstart h
  rw [wp, Db.inTransaction]
  cases hres : (do let a ← x; InTransaction.commit; Pure.pure a) (⟨db, .new⟩ : InTransaction) with
  | ok a s => exact (wp_of_ok hres).mp hrun
  | error e s => exact (wp_of_error hres).mp hrun

/-! ## Calls -/

/-- **Every call keeps the log**, but for one that turns the durability off. -/
theorem perform (call : Call) (hdur : call ≠ .setDurability .none) :
    KeepsLog (call.perform .code) := by
  have hw : OverlayFrom.Writers .code := OverlayFrom.code
  cases call with
  | row table call =>
      exact get.bind fun _ => ite (inTransaction (LeavesDb.row hw table call))
        (withTable table (inPlace call))
  | upsert table key set => exact (inTransaction (LeavesDb.upsert hw _ _ _)).replied
  | upsertIncrement table key counter delta set =>
      exact (inTransaction (LeavesDb.upsertIncrement hw _ _ _ _ _)).replied
  | createTable name columns => exact (createTable _ _).replied
  | dropTable name => exact (dropTable _).replied
  | createIndexEx table indexName columns unique =>
      exact (ite (throw _) (alterTable _ (createIndex _ _ _ _))).replied
  | dropIndex table indexName => exact (alterTable _ (dropIndex _)).replied
  | addColumn table column =>
      exact ((lift _).bind fun _ => alterTable _ (addColumn _ _)).replied
  | renameColumn table old new =>
      exact ((lift _).bind fun _ => alterTable _ (renameColumn _ _ _)).replied
  | dropColumn table name => exact (alterTable _ (dropColumn _ _)).replied
  | setDurability durability =>
      intro wal₀ complete db _ h
      exact ⟨fun hnone => hdur (congrArg Call.setDurability hnone), h.2⟩
  | setAcid enabled => exact KeepsLog.bind (modifyDb fun _ => ⟨rfl, rfl, rfl⟩) fun _ => pure _
  | setMaxRowSize bytes => exact KeepsLog.bind (modifyDb fun _ => ⟨rfl, rfl, rfl⟩) fun _ => pure _

end

end KeepsLog

end BoogyDb
