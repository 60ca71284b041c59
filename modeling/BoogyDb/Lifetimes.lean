import BoogyDb.CheckedRuns
import BoogyDb.CleanClose
import BoogyDb.SessionFrames

/-!
# The life of a database over its openings

A database is opened, steps, is dropped, and opened again.  Between two steps the log has its
header and each table stands under its own name (`Db.Orderly`), so what a restart asks for is
there (`Lives.inv`), and a restart is a step that the contents do not see
(`Lives.reopened`).

A property of the columns goes through every call that admits it (`KeepsOrder.perform`).  That
the maps are in step with the columns, which a restart asks for too, is admitted by every call
that adds only live columns (`Call.AddsLive.admits`).
-/

namespace BoogyDb

open Bytes Wp WriteGuard FencedTree Ownership

section

variable [Crc32Fast] {α β : Type}

/-! ## The header of the log -/

namespace Wal

theorem headed_appendPageImage (tableId : UInt32) (pageNo : ℕ) (page : Page) :
    Within (fun wal wal' => wal.Headed → wal'.Headed) (appendPageImage tableId pageNo page) := by
  intro wal
  rw [wp, appendPageImage]
  by_cases hfull : wal.entryCount = 2 ^ 32 - 1
  · rw [if_pos hfull]
    exact id
  rw [if_neg hfull]
  by_cases hlast : wal.nextSequence.toNat = 2 ^ 64 - 1
  · rw [if_pos hlast]
    exact id
  rw [if_neg hlast]
  intro h
  have hentry := h.writeAt (n := wal.nextSequence + 1) (k := wal.entryCount + 1)
    (entryBytes wal.nextSequence tableId pageNo page)
    (Nat.le_add_right_of_le (by decide) :
      4 ≤ walHeaderSize + wal.entryCount * walEntrySize)
  exact hentry.writeAt _ (by omega)

end Wal

theorem headed_commitFile {durability : Durability} {tableId : UInt32} {file : PageFile} {wal : Wal}
    (h : wal.Headed) : (∀ r, commitFile durability tableId file wal = .ok r → r.2.Headed) ∧
      ∀ r, commitFile durability tableId file wal = .error r → r.2.2.Headed := by
  have himages : ∀ images, Within (fun wal wal' => wal.Headed → wal'.Headed)
      (logImages tableId images) := by
    intro images
    induction images with
    | nil => exact within_pure (fun _ => id) _
    | cons image images ih =>
        exact within_bind (fun h h' => h' ∘ h) (Wal.headed_appendPageImage _ _ _) fun _ => ih
  unfold commitFile
  cases WriteGuard.commit file with
  | error e =>
      refine ⟨nofun, fun r hr => ?_⟩
      cases hr
      exact h
  | ok r₀ =>
      dsimp only
      by_cases hnone : durability = .none
      · rw [if_pos hnone]
        refine ⟨fun r hr => ?_, nofun⟩
        cases hr
        exact h
      rw [if_neg hnone]
      cases hlog : logImages tableId r₀.1 wal with
      | ok _ wal' =>
          refine ⟨fun r hr => ?_, nofun⟩
          cases hr
          exact (himages _).ok hlog h
      | error e wal' =>
          refine ⟨nofun, fun r hr => ?_⟩
          cases hr
          exact (himages _).error hlog h

/-! ## What every operation keeps -/

/-- The table keeps its name and the property, and the log its header. -/
structure Session.Keeps (Q : TableMeta → Prop) (s s' : Session) : Prop where
  name : s'.state.name = s.state.name
  property : Q s.state → Q s'.state
  headed : s.wal.Headed → s'.wal.Headed

/-- The property depends on the columns alone. -/
def OfColumns (Q : TableMeta → Prop) : Prop := ∀ t t' : TableMeta, t.SameColumns t' → Q t → Q t'

/-- The log has its header, and each table stands under its own name and has the property. -/
structure Db.OrderlyWith (Q : TableMeta → Prop) (db : Db) : Prop where
  tables : ∀ name state, db.tables.lookup name = some state → state.name = name ∧ Q state
  headed : db.wal.Headed

/-- A program that leaves an orderly database orderly, and its tables with the property. -/
abbrev KeepsOrder (Q : TableMeta → Prop) (x : StateResult Db α) : Prop :=
  Within (fun db db' => db.OrderlyWith Q → db'.OrderlyWith Q) x

/-- What the call does to the columns of a table keeps the property. -/
def Call.Admits (Q : TableMeta → Prop) : Call → Prop
  | .createTable name columns => ∀ tableId root, Q (TableMeta.new name tableId columns root)
  | .addColumn _ column => ∀ t, t.colNameToId column.name = none → Q t → Q (t.addColumn column)
  | .renameColumn _ old new => ∀ t, t.colNameToId new = none → Q t → Q (t.renameColumn old new)
  | .dropColumn _ name => ∀ t, Q t → Q (t.dropColumn name)
  | _ => True

namespace KeepsOrder

variable {Q : TableMeta → Prop}

omit [Crc32Fast] in
theorem pure (a : α) : KeepsOrder Q (pure a) := within_pure (fun _ => id) a

omit [Crc32Fast] in
theorem throw (e : Fault) : KeepsOrder Q (throw e : StateResult Db α) :=
  within_throw (fun _ => id) e

omit [Crc32Fast] in
theorem get : KeepsOrder Q (get : StateResult Db Db) := within_get fun _ => id

omit [Crc32Fast] in
theorem bind {x : StateResult Db α} {f : α → StateResult Db β} (hx : KeepsOrder Q x)
    (hf : ∀ a, KeepsOrder Q (f a)) : KeepsOrder Q (x >>= f) :=
  within_bind (fun h h' => h' ∘ h) hx hf

omit [Crc32Fast] in
theorem lift (x : Result α) : KeepsOrder Q (liftM x : StateResult Db α) := by
  intro db
  cases x <;> exact id

omit [Crc32Fast] in
theorem replied {x : StateResult Db α} {reply : α → Reply} (hx : KeepsOrder Q x) :
    KeepsOrder Q (BoogyDb.replied reply x) := hx.bind fun _ => pure _

omit [Crc32Fast] in
theorem inFile (x : StateResult WriteGuard α) : KeepsOrder Q (Db.inFile x) := by
  intro db
  rw [wp, Db.inFile]
  cases x db.file <;> exact fun h => ⟨h.tables, h.headed⟩

theorem commitWrite (tableId : UInt32) : KeepsOrder Q (Db.commitWrite tableId) := by
  intro db
  rw [wp, Db.commitWrite]
  cases hrun : commitFile db.durability tableId db.file db.wal with
  | ok r => exact fun h => ⟨h.tables, (headed_commitFile h.headed).1 r hrun⟩
  | error r => exact fun h => ⟨h.tables, (headed_commitFile h.headed).2 r hrun⟩

theorem persistRegistry : KeepsOrder Q Db.persistRegistry :=
  get.bind fun _ => (inFile _).bind fun _ => commitWrite _

omit [Crc32Fast] in
/-- A session that keeps the name of its table, and the property. -/
theorem withTable {x : StateResult Session α} (table : String)
    (hx : Within (Session.Keeps Q) x) : KeepsOrder Q (Db.withTable table x) := by
  intro db
  rw [wp, Db.withTable]
  cases hname : db.tables.lookup table with
  | none => exact id
  | some state =>
      have hleave : ∀ s : Session, Session.Keeps Q ⟨state, db.file, db.wal, db.durability,
          db.maxRowSize⟩ s → db.OrderlyWith Q → (db.leave table s).OrderlyWith Q := by
        intro s hs h
        refine ⟨fun name state' hname' => ?_, hs.headed h.headed⟩
        change (db.tables.replace table s.state).lookup name = some state' at hname'
        by_cases heq : name = table
        · subst heq
          rw [AList.lookup_replace (Option.isSome_of_eq_some hname)] at hname'
          obtain rfl := Option.some.inj hname'
          obtain ⟨hnamed, hproperty⟩ := h.tables name state hname
          exact ⟨hs.name.trans hnamed, hs.property hproperty⟩
        · rw [AList.lookup_replace_ne heq] at hname'
          exact h.tables name state' hname'
      dsimp only
      cases hrun : x ⟨state, db.file, db.wal, db.durability, db.maxRowSize⟩ with
      | ok a s => exact hleave s (hx.ok hrun)
      | error e s => exact hleave s (hx.error hrun)

theorem alterTable {x : StateResult Session Unit} (table : String)
    (hx : Within (Session.Keeps Q) x) : KeepsOrder Q (Db.alterTable table x) :=
  (withTable table hx).bind fun _ => persistRegistry

theorem createTable (name : String) (columns : List ColumnDef)
    (hnew : ∀ tableId root, Q (TableMeta.new name tableId columns root)) :
    KeepsOrder Q (Db.createTable name columns) := by
  have hinsert : ∀ table : TableMeta, table.name = name ∧ Q table → KeepsOrder Q
      (modify fun db : Db => { db with tables := db.tables.insert name table }) := by
    intro table htable db h
    refine ⟨fun name' state hlookup => ?_, h.headed⟩
    change (db.tables.insert name table).lookup name' = some state at hlookup
    by_cases heq : name' = name
    · subst heq
      rw [AList.lookup_insert] at hlookup
      obtain rfl := Option.some.inj hlookup
      exact htable
    · rw [AList.lookup_insert_ne heq] at hlookup
      exact h.tables name' state hlookup
  have hrest : ∀ db : Db, KeepsOrder Q (do
      let root ← Db.inFile BTreeWriter.create
      let nextTableId ← addOne32 db.nextTableId
      modify fun db => { db with nextTableId }
      Db.commitWrite db.nextTableId
      modify fun db' => { db' with
        tables := db'.tables.insert name (TableMeta.new name db.nextTableId columns root) }
      Db.persistRegistry : StateResult Db Unit) := by
    intro db
    apply (inFile _).bind
    intro root
    apply (lift _).bind
    intro nextTableId
    have hnext : KeepsOrder Q (modify fun db : Db => { db with nextTableId }) :=
      fun _ h => ⟨h.tables, h.headed⟩
    apply hnext.bind
    intro _
    apply (commitWrite _).bind
    exact fun _ => (hinsert _ ⟨rfl, hnew _ _⟩).bind fun _ => persistRegistry
  apply get.bind
  intro db
  apply WithinOr.ite (throw _)
  exact .ite (((inFile _).bind fun _ => pure _).bind fun _ => hrest db) (hrest db)

theorem dropTable (name : String) : KeepsOrder Q (Db.dropTable name) := by
  have herase : KeepsOrder Q (modify fun db : Db => { db with tables := db.tables.erase name }) := by
    intro db h
    refine ⟨fun name' state hlookup => ?_, h.headed⟩
    change (db.tables.erase name).lookup name' = some state at hlookup
    by_cases heq : name' = name
    · rw [heq, AList.lookup_erase] at hlookup
      cases hlookup
    · rw [AList.lookup_erase_ne heq] at hlookup
      exact h.tables name' state hlookup
  apply get.bind
  exact fun _ => .ite (throw _) (herase.bind fun _ => persistRegistry)

/-! ### Transactions -/

omit [Crc32Fast] in
theorem applyDeltas_kept (hQ : OfColumns Q) {deltas : List (String × MetaDelta)} {tables : Tables}
    (h : ∀ name state, tables.lookup name = some state → state.name = name ∧ Q state) :
    ∀ name state, (applyDeltas deltas tables).lookup name = some state →
      state.name = name ∧ Q state := by
  induction deltas generalizing tables with
  | nil => exact h
  | cons d deltas ih =>
      apply ih
      dsimp only
      cases hname : tables.lookup d.1 with
      | none => exact h
      | some old =>
          intro name state hlookup
          dsimp only at hlookup
          by_cases heq : name = d.1
          · subst heq
            rw [AList.lookup_replace (Option.isSome_of_eq_some hname)] at hlookup
            obtain rfl := Option.some.inj hlookup
            obtain ⟨hnamed, hproperty⟩ := h d.1 old hname
            exact ⟨hnamed, hQ _ _ (.rest _ _ _ _ _) hproperty⟩
          · rw [AList.lookup_replace_ne heq] at hlookup
            exact h name state hlookup

/-- A transaction on an orderly database, and an orderly one behind it. -/
def InOrder (Q : TableMeta → Prop) (s s' : InTransaction) : Prop :=
  s.db.OrderlyWith Q → s'.db.OrderlyWith Q

theorem txCommit (hQ : OfColumns Q) : Within (InOrder Q) InTransaction.commit := by
  intro s
  rw [wp, InTransaction.commit]
  by_cases hempty : (s.tx.privateDirty.entries.isEmpty && s.tx.metaDeltas.entries.isEmpty) = true
  · rw [if_pos hempty]
    exact id
  rw [if_neg hempty]
  dsimp only
  set tableId := (((s.tx.metaDeltas.entries.map fun e => (e.1, e.2)).head?.map fun d =>
    d.2.tableId).getD 0) with htableId
  cases hrun : commitFile s.db.durability tableId (s.tx.enter s.db.file) s.db.wal with
  | ok r => exact fun h => ⟨applyDeltas_kept hQ h.tables, (headed_commitFile h.headed).1 r hrun⟩
  | error r => exact fun h => ⟨h.tables, (headed_commitFile h.headed).2 r hrun⟩

omit [Crc32Fast] in
theorem of_abandoned {s s' : InTransaction} (hs : Abandoned s s') : InOrder Q s s' := by
  intro h
  obtain ⟨w, hdb⟩ := hs
  rw [hdb]
  exact ⟨h.tables, h.headed⟩

theorem inTransaction (hQ : OfColumns Q) {x : StateResult InTransaction α} (hx : LeavesDb x) :
    KeepsOrder Q (Db.inTransaction x) := by
  have hall : Within (InOrder Q) (do let a ← x; InTransaction.commit; Pure.pure a) := by
    have hbody : Within (InOrder Q) x :=
      fun s => (hx.abandons s).mono (fun _ _ => of_abandoned) fun _ _ => of_abandoned
    apply within_bind (R := InOrder Q) (fun h h' => h' ∘ h) hbody
    intro a
    apply within_bind (R := InOrder Q) (fun h h' => h' ∘ h) (txCommit hQ)
    exact fun _ => within_pure (fun _ => id) a
  intro db
  rw [wp, Db.inTransaction]
  cases hrun : (do let a ← x; InTransaction.commit; Pure.pure a) (⟨db, .new⟩ : InTransaction) with
  | ok a s => exact hall.ok hrun
  | error e s => exact hall.error hrun

/-! ### Calls -/

omit [Crc32Fast] in
/-- A change of the columns that keeps the property. -/
theorem keeps_state {s : Session} {state : TableMeta} (hname : state.name = s.state.name)
    (hproperty : Q s.state → Q state) : Session.Keeps Q s { s with state } :=
  ⟨hname, hproperty, id⟩

theorem tableFrame (hQ : OfColumns Q) : TableFrame (Session.Keeps Q) where
  refl := fun _ => ⟨rfl, id, id⟩
  trans := fun h h' =>
    ⟨h'.name.trans h.name, h'.property ∘ h.property, h'.headed ∘ h.headed⟩
  file := fun _ _ => ⟨rfl, id, id⟩
  commit := by
    intro s
    rw [wp, BoogyDb.commitWrite]
    cases hrun : commitFile s.durability s.state.tableId s.file s.wal with
    | ok r => exact ⟨rfl, id, fun h => (headed_commitFile h).1 r hrun⟩
    | error r => exact ⟨rfl, id, fun h => (headed_commitFile h).2 r hrun⟩
  state := fun _ _ hsame => keeps_state hsame.name (hQ _ _ hsame)

/-- **Every call leaves the database orderly**, whether it returns or fails, and the tables with
a property of their columns that it admits. -/
theorem perform {w : TreeWriters} (hw : OverlayFrom.Writers w) (hQ : OfColumns Q) (call : Call)
    (hcall : call.Admits Q) : KeepsOrder Q (call.perform w) := by
  have hframe := tableFrame hQ
  cases call with
  | row table call =>
      apply get.bind
      exact fun db => .ite (inTransaction hQ (LeavesDb.row hw table call))
        (withTable table (hframe.inPlace w call))
  | upsert table key set => exact (inTransaction hQ (LeavesDb.upsert hw _ _ _)).replied
  | upsertIncrement table key counter delta set =>
      exact (inTransaction hQ (LeavesDb.upsertIncrement hw _ _ _ _ _)).replied
  | createTable name columns => exact (createTable _ _ hcall).replied
  | dropTable name => exact (dropTable _).replied
  | createIndexEx table indexName columns unique =>
      apply replied
      exact .ite (throw _) (alterTable _ (hframe.createIndex w _ _ _ _))
  | dropIndex table indexName => exact (alterTable _ (hframe.dropIndex _)).replied
  | addColumn table column =>
      apply replied
      refine (lift _).bind fun _ => alterTable _ (hframe.addColumn _ _ fun s hfree => ?_)
      exact keeps_state rfl (hcall _ hfree)
  | renameColumn table old new =>
      apply replied
      refine (lift _).bind fun _ => alterTable _ (hframe.renameColumn _ _ _ fun s hfree _ => ?_)
      exact keeps_state (s.state.name_renameColumn old new)
        fun h => hQ _ _ (.rest _ _ _ _ _) (hcall _ hfree h)
  | dropColumn table name =>
      refine (alterTable _ (hframe.dropColumn _ _ fun s => ?_)).replied
      exact keeps_state (s.state.name_dropColumn name) (hcall _)
  | setDurability durability => exact fun _ h => ⟨h.tables, h.headed⟩
  | setAcid enabled => exact fun _ h => ⟨h.tables, h.headed⟩
  | setMaxRowSize bytes => exact fun _ h => ⟨h.tables, h.headed⟩

end KeepsOrder

/-! ## Runs -/

variable {storable : UInt64 → List UInt8 → Prop} {keyed : Prop} {db db' : Db}
  {Ms : String → TableModel}

section

variable {Q : TableMeta → Prop}

/-- A call, whether it returns or fails. -/
theorem Db.OrderlyWith.call (ho : db.OrderlyWith Q) (hQ : OfColumns Q) {call : Call}
    (hcall : call.Admits Q) : (stateAfter (call.perform .code) db).OrderlyWith Q := by
  have hperform := KeepsOrder.perform OverlayFrom.code hQ call hcall
  unfold stateAfter
  cases hrun : call.perform .code db with
  | ok reply db' => exact hperform.ok hrun ho
  | error e db' => exact hperform.error hrun ho

/-- A transaction that is dropped. -/
theorem Db.OrderlyWith.dropped {s : InTransaction} (ho : db.OrderlyWith Q)
    (h : DbInv storable keyed db Ms) (hstore : ∀ id row, storable id row → Storable id row)
    (hrun : TxRun storable db.beginAcid s) : s.rollback.OrderlyWith Q := by
  obtain ⟨hmoves, -⟩ := TxRun.inv h.beginAcid hstore hrun
  have hdb : s.db = db := hmoves.db
  show s.db.OrderlyWith Q
  rw [hdb]
  exact ho

/-- A transaction that is committed. -/
theorem Db.OrderlyWith.committed {s s' : InTransaction} (ho : db.OrderlyWith Q)
    (hQ : OfColumns Q) (h : DbInv storable keyed db Ms)
    (hstore : ∀ id row, storable id row → Storable id row) (hrun : TxRun storable db.beginAcid s)
    (hcommit : InTransaction.commit s = .ok () s') : s'.db.OrderlyWith Q :=
  (KeepsOrder.txCommit hQ).ok hcommit (ho.dropped h hstore hrun)

end

omit [Crc32Fast] in
theorem orderlyWith_true : db.OrderlyWith (fun _ => True) ↔ db.Orderly :=
  ⟨fun h => ⟨fun name state hname => (h.tables name state hname).1, h.headed⟩,
    fun h => ⟨fun name state hname => ⟨h.named name state hname, trivial⟩, h.headed⟩⟩

omit [Crc32Fast] in
theorem Call.admits_true (call : Call) : call.Admits fun _ => True := by
  cases call <;> simp [Call.Admits]

theorem DbStep.orderly (hstep : DbStep storable keyed db db') (h : DbInv storable keyed db Ms)
    (hstore : ∀ id row, storable id row → Storable id row) (ho : db.Orderly) : db'.Orderly := by
  have hQ : OfColumns fun _ => True := fun _ _ _ _ => trivial
  rw [← orderlyWith_true] at ho ⊢
  cases hstep with
  | @returned call reply _ hkeeps hrun =>
      exact (KeepsOrder.perform (OverlayFrom.watched storable) hQ call call.admits_true).ok hrun ho
  | @refused call e hbody hchecks => exact ho.call hQ call.admits_true
  | @rolledBack call body e s hbody hrun hleft => exact ho.call hQ call.admits_true
  | committed hrun hcommit => exact ho.committed hQ h hstore hrun hcommit
  | dropped hrun => exact ho.dropped h hstore hrun

/-- The states of a database over its openings: it is new, it steps, or it is dropped and opened
again. -/
inductive Lives (storable : UInt64 → List UInt8 → Prop) (keyed : Prop) : Db → Prop
  | new {db : Db} (hopen : Db.open ⟨[], []⟩ = .ok db) : Lives storable keyed db
  | step {db db' : Db} (h : Lives storable keyed db) (hstep : DbStep storable keyed db db') :
      Lives storable keyed db'
  | restart {db db' : Db} (h : Lives storable keyed db) (hc : db.Closable)
      (hopen : Db.open db.close = .ok db') : Lives storable keyed db'

omit [Crc32Fast] in
theorem orderly_newDb : newDb.Orderly where
  named := nofun
  headed := ⟨by decide, by decide⟩

/-- **Over all openings the tables are sound**, and what a restart asks for is there. -/
theorem Lives.inv (hstore : ∀ id row, storable id row → Storable id row)
    (h : Lives storable keyed db) : (∃ Ms, DbInv storable keyed db Ms) ∧ db.Orderly := by
  induction h with
  | new hopen =>
      refine ⟨⟨_, DbInv.new hopen⟩, ?_⟩
      rw [open_new] at hopen
      obtain rfl := Except.ok.inj hopen
      exact orderly_newDb
  | step _ hstep ih =>
      obtain ⟨⟨Ms, hinv⟩, ho⟩ := ih
      exact ⟨(hstep.moves hinv hstore).inv, hstep.orderly hinv hstore ho⟩
  | restart _ hc hopen ih =>
      obtain ⟨⟨Ms, hinv⟩, ho⟩ := ih
      obtain ⟨db₁, hopen₁, hinv₁, ho₁, -⟩ := hinv.opensAgain ho hc
      rw [hopen₁] at hopen
      obtain rfl := Except.ok.inj hopen
      exact ⟨⟨Ms, hinv₁⟩, ho₁⟩

/-- **A restart is not seen.**  In every state of the life of a database that it can be closed in,
it is closed and opened again with the same tables, the same next table id and the same
contents, and lives on. -/
theorem Lives.reopened (hstore : ∀ id row, storable id row → Storable id row)
    (h : Lives storable keyed db) (hc : db.Closable) :
    ∃ db', Db.open db.close = .ok db' ∧ Lives storable keyed db' ∧ db.Same db' := by
  obtain ⟨⟨Ms, hinv⟩, ho⟩ := h.inv hstore
  obtain ⟨db', hopen, -, -, hsame⟩ := hinv.opensAgain ho hc
  exact ⟨db', hopen, h.restart hc hopen, hsame⟩

/-! ## Maps in step -/

/-- The maps of the table agree with its columns, unless these have become too many. -/
def TableMeta.InStepIfFew (t : TableMeta) : Prop := t.columns.length < 65536 → t.InStep

/-- The call adds no column that is marked as dropped, and creates tables with distinct names. -/
def Call.AddsLive : Call → Prop
  | .createTable _ columns => (columns.map ColumnDef.name).Nodup
  | .addColumn _ column => column.dropped = false
  | _ => True

omit [Crc32Fast] in
theorem ofColumns_inStep : OfColumns TableMeta.InStepIfFew := by
  intro t t' hsame h hfew
  rw [hsame.columns] at hfew
  have hstep := h hfew
  refine ⟨fun name i => ?_, ?_, ?_, ?_⟩
  · rw [hsame.colNameToId, hstep.ids]
    unfold TableMeta.LiveAt
    rw [hsame.columns]
  · rw [hsame.columns]
    exact hfew
  · rw [hsame.colNames, hsame.columns]
    exact hstep.colNames
  · rw [hsame.colDefs, hsame.columns]
    exact hstep.colDefs

omit [Crc32Fast] in
/-- **Such a call keeps the maps in step.** -/
theorem Call.AddsLive.admits {call : Call} (h : call.AddsLive) :
    call.Admits TableMeta.InStepIfFew := by
  cases call with
  | createTable name columns => exact fun _ _ hfew => .new _ h hfew
  | addColumn table column =>
      intro t hfree ht hfew
      change (t.columns ++ [column]).length < 65536 at hfew
      rw [List.length_append] at hfew
      exact (ht (Nat.lt_of_succ_lt hfew)).addColumn hfree h hfew
  | renameColumn table old new =>
      intro t hfree ht hfew
      refine (ht ?_).renameColumn old hfree
      unfold TableMeta.renameColumn at hfew
      split at hfew
      · exact hfew
      · rwa [List.length_modify] at hfew
  | dropColumn table name =>
      intro t ht hfew
      refine (ht ?_).dropColumn name
      unfold TableMeta.dropColumn at hfew
      split at hfew
      · exact hfew
      · rwa [List.length_modify] at hfew
  | _ => trivial

/-! ## A restart with two tables -/

/-- The calls of the step outside transactions add only live columns. -/
def CheckedStep.AddsLive : CheckedStep → Prop
  | .returned call | .refused call => call.AddsLive
  | .transaction _ _ => True

theorem CheckedStep.keepsInStep {step : CheckedStep} (hlive : step.AddsLive)
    (h : step.run db = some db') (hreaches : Reaches Storable True db)
    (ho : db.OrderlyWith TableMeta.InStepIfFew) : db'.OrderlyWith TableMeta.InStepIfFew := by
  obtain ⟨Ms, hinv⟩ := hreaches.inv fun _ _ => id
  cases step with
  | returned call =>
      rw [CheckedStep.run] at h
      split at h
      · rename_i reply db₁ hrun
        split at h
        · cases h
        · obtain rfl := Option.some.inj h
          have hwatched := checked_below_watched.perform call _ _ _ hrun
          have hcode := (watched_below_code Storable).perform call _ _ _ hwatched
          have hafter := ho.call ofColumns_inStep hlive.admits
          rwa [stateAfter, hcode] at hafter
      · cases h
  | refused call =>
      rw [CheckedStep.run] at h
      split at h
      · obtain rfl := Option.some.inj h
        exact ho.call ofColumns_inStep hlive.admits
      · cases h
  | transaction calls commits =>
      obtain ⟨s, hcalls, h⟩ := Option.bind_eq_some_iff.mp h
      have hrun := InTransaction.checked_run hcalls
      split at h
      · split at h
        · rename_i s' hcommit
          obtain rfl := Option.some.inj h
          exact ho.committed ofColumns_inStep hinv (fun _ _ => id) hrun hcommit
        · cases h
      · obtain rfl := Option.some.inj h
        exact ho.dropped hinv (fun _ _ => id) hrun

/-- In every checked run that adds only live columns the maps stay in step. -/
theorem keepsInStep_of_checked {steps : List CheckedStep}
    (hlive : ∀ step ∈ steps, step.AddsLive) (h : steps.foldlM CheckedStep.run db = some db')
    (hreaches : Reaches Storable True db) (ho : db.OrderlyWith TableMeta.InStepIfFew) :
    db'.OrderlyWith TableMeta.InStepIfFew := by
  induction steps generalizing db with
  | nil =>
      obtain rfl := Option.some.inj h
      exact ho
  | cons step steps ih =>
      rw [List.foldlM_cons] at h
      obtain ⟨db₁, hstep, hrest⟩ := Option.bind_eq_some_iff.mp h
      obtain ⟨hfirst, hlive⟩ := List.forall_mem_cons.mp hlive
      refine ih hlive hrest ?_ (CheckedStep.keepsInStep hfirst hstep hreaches ho)
      obtain ⟨db₀, hopen, hsteps⟩ := hreaches
      exact ⟨db₀, hopen, hsteps.tail (CheckedStep.dbStep hstep)⟩

theorem Reaches.lives (h : Reaches storable keyed db) : Lives storable keyed db := by
  obtain ⟨db₀, hopen, hsteps⟩ := h
  induction hsteps with
  | refl => exact .new hopen
  | tail _ hstep ih => exact ih.step hstep

omit [Crc32Fast] in
/-- A database with two tables and an index is dropped and opened again. -/
theorem reopened_numbers : letI := crc32Ieee
    ∃ (db db' : Db) (t u : TableMeta),
      (db.tables.lookup "t" = some t ∧ t.rowCount = 2 ∧
        t.indexes.map IndexMeta.columns = [["n"]]) ∧
      (db.tables.lookup "u" = some u ∧ u.rowCount = 1) ∧
      Db.open db.close = .ok db' ∧ db.Same db' := by
  let := crc32Ieee
  obtain ⟨db, hrun, hends⟩ := (Option.any_eq_true _ _).mp (show (checkedRun numbersRun).any
    (fun db => decide (((db.tables.lookup "t").any fun t => t.rowCount = 2 ∧
        t.indexes.map IndexMeta.columns = [["n"]]) ∧
      ((db.tables.lookup "u").any fun u => u.rowCount = 1) ∧
      (∀ name ∈ db.tables.keys, (db.tables.lookup name).all fun state =>
        state.columns.length < 65536) ∧
      RegistryFits db.records ∧ (registryRest db.records db.nextTableId).length < 2 ^ 32 ∧
      max 1 db.file.pageCount + (registryChunks db.records db.nextTableId).length < pageNoLimit))
    from by decide +kernel)
  obtain ⟨ht, hu, hfew, hfits, hstream, hroom⟩ := of_decide_eq_true hends
  obtain ⟨t, htname, ht⟩ := (Option.any_eq_true _ _).mp ht
  obtain ⟨u, huname, hu⟩ := (Option.any_eq_true _ _).mp hu
  have hreaches := Reaches.checked hrun
  have hlive : ∀ step ∈ numbersRun, step.AddsLive := by
    unfold numbersRun
    simp [CheckedStep.AddsLive, Call.AddsLive, createNumbers, indexNumbers]
  have hnew : newDb.OrderlyWith TableMeta.InStepIfFew := ⟨nofun, orderly_newDb.headed⟩
  have hkept := keepsInStep_of_checked hlive hrun ⟨newDb, open_new, .refl⟩ hnew
  have hinStep : ∀ name state, db.tables.lookup name = some state → state.InStep := by
    intro name state hname
    have hmem : name ∈ db.tables.keys :=
      AList.mem_keys.mp (AList.lookup_isSome.mp (Option.isSome_of_eq_some hname))
    have hcount := hfew name hmem
    rw [hname] at hcount
    exact (hkept.tables name state hname).2 (of_decide_eq_true hcount)
  obtain ⟨db', hopen, -, hsame⟩ := Lives.reopened (fun _ _ => id) hreaches.lives
    ⟨hfits, hstream, hroom, hinStep⟩
  obtain ⟨hcount, hindexes⟩ := of_decide_eq_true ht
  exact ⟨db, db', t, u, ⟨htname, hcount, hindexes⟩, ⟨huname, of_decide_eq_true hu⟩, hopen, hsame⟩

end

end BoogyDb
