import BoogyDb.AcidTransaction
import BoogyDb.Recovery
import BoogyDb.SchemaWrites

/-!
# The calls of the database

`Call` lists the calls that change a database, and `Call.perform` makes them.  A row
operation runs in a transaction of its own in ACID mode, and in place otherwise; an
upsert always runs in a transaction.
-/

namespace BoogyDb

/-- What a call returns. -/
inductive Reply
  | done
  | rowid (id : UInt64)
  | rowids (ids : List UInt64)
  | found (found : Bool)
  | count (n : ℕ)
deriving DecidableEq

/-- The row operations of a table. -/
inductive RowCall
  | insert (data : RowData)
  | insertWithId (rowid : UInt64) (data : RowData)
  | insertMany (rows : List RowData)
  | update (id : UInt64) (fields : RowData)
  | updateWhere (filters : List Filter) (fields : RowData)
  | delete (id : UInt64)
  | deleteWhere (filters : List Filter)

inductive Call
  | row (table : String) (call : RowCall)
  | upsert (table : String) (key set : RowData)
  | upsertIncrement (table : String) (key : RowData) (counter : String) (delta : Value)
      (set : RowData)
  | createTable (name : String) (columns : List ColumnDef)
  | dropTable (name : String)
  | createIndexEx (table indexName : String) (columns : List String) (unique : Bool)
  | dropIndex (table indexName : String)
  | addColumn (table : String) (column : ColumnDef)
  | renameColumn (table old new : String)
  | dropColumn (table name : String)
  | setDurability (durability : Durability)
  | setAcid (enabled : Bool)
  | setMaxRowSize (bytes : UInt32)

/-- What `x` returns, as a reply. -/
def replied {σ α : Type} (reply : α → Reply) (x : StateResult σ α) : StateResult σ Reply := do
  let a ← x
  pure (reply a)

section

variable [Crc32Fast]

/-- `get`: a row by its id. -/
def Db.get? (db : Db) (table : String) (id : UInt64) : Result (Option Row) :=
  match db.tables.lookup table with
  | none => fail (.tableNotFound table)
  | some state => do
      match ← BTreeReader.search db.file state.rootPage id with
      | none => pure none
      | some bytes => do
          let row ← Row.fromRaw bytes
          pure (some row)

variable (w : TreeWriters)

def RowCall.inPlace : RowCall → StateResult Session Reply
  | .insert data => replied .rowid (Session.insert w data)
  | .insertWithId rowid data => replied (fun _ => .done) (Session.insertWithId w rowid data)
  | .insertMany rows => replied .rowids (Session.insertMany w rows)
  | .update id fields => replied .found (Session.update w id fields)
  | .updateWhere filters fields => replied .count (Session.updateWhere w filters fields)
  | .delete id => replied .found (Session.delete w id)
  | .deleteWhere filters => replied .count (Session.deleteWhere w filters)

def RowCall.inTransaction (table : String) : RowCall → StateResult InTransaction Reply
  | .insert data => replied .rowid (InTransaction.insert w table data)
  | .insertWithId rowid data =>
      replied (fun _ => .done) (InTransaction.insertWithId w table rowid data)
  | .insertMany rows => replied .rowids (InTransaction.insertMany w table rows)
  | .update id fields => replied .found (InTransaction.update w table id fields)
  | .updateWhere filters fields =>
      replied .count (InTransaction.updateWhere w table filters fields)
  | .delete id => replied .found (InTransaction.delete table id)
  | .deleteWhere filters => replied .count (InTransaction.deleteWhere table filters)

/-- A row operation of the database. -/
def RowCall.perform (table : String) (call : RowCall) : StateResult Db Reply := do
  let db ← get
  if db.acid then Db.inTransaction (call.inTransaction w table)
  else Db.withTable table (call.inPlace w)

def Call.perform : Call → StateResult Db Reply
  | .row table call => call.perform w table
  | .upsert table key set =>
      replied .rowid (Db.inTransaction (InTransaction.upsert w table key set))
  | .upsertIncrement table key counter delta set =>
      replied .rowid (Db.inTransaction (InTransaction.upsertIncrement w table key counter delta set))
  | .createTable name columns => replied (fun _ => .done) (Db.createTable name columns)
  | .dropTable name => replied (fun _ => .done) (Db.dropTable name)
  | .createIndexEx table indexName columns unique =>
      replied (fun _ => .done) (Db.createIndexEx w table indexName columns unique)
  | .dropIndex table indexName => replied (fun _ => .done) (Db.dropIndex table indexName)
  | .addColumn table column => replied (fun _ => .done) (Db.addColumn table column)
  | .renameColumn table old new => replied (fun _ => .done) (Db.renameColumn table old new)
  | .dropColumn table name => replied (fun _ => .done) (Db.dropColumn table name)
  | .setDurability durability => do
      modify fun db => { db with durability }
      pure .done
  | .setAcid enabled => do
      modify fun db => { db with acid := enabled }
      pure .done
  | .setMaxRowSize bytes => do
      modify fun db => { db with maxRowSize := bytes }
      pure .done

end

end BoogyDb
