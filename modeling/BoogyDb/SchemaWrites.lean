import BoogyDb.TableWrites

/-!
# Writing the schema

Tables, indexes and columns come and go.  A schema operation changes the table in
memory and then writes the registry; only `createTable` and `createIndexEx` touch
other pages before that, and commit them on their own.
-/

namespace BoogyDb

open WriteGuard

/-- `+= 1` on a 32-bit counter. -/
def addOne32 (n : UInt32) : Result UInt32 :=
  if n.toNat + 1 < 2 ^ 32 then .ok (n + 1) else overflowed

/-! ## Columns and indexes of a locked table -/

/-- The ids and types of the columns of a new index. -/
def findColumns (table : String) (state : TableMeta) (columns : List String) :
    Result (List (UInt16 × ColumnType)) :=
  columns.mapM fun column =>
    match state.colId column with
    | none => fail (.schemaMismatch s!"column '{column}' not found in table '{table}'")
    | some colId =>
      match state.firstType column with
      | none => panic
      | some colType => pure (colId, colType)

namespace Session

section

variable [Crc32Fast] (w : TreeWriters)

/-- Fill a new index from the rows; `seen` are the prefixes of a unique index so far. -/
def populateIndex (indexName : String) (cols : List (UInt16 × ColumnType)) (unique : Bool) :
    List (UInt64 × List UInt8) → List (List UInt8) → ℕ → StateResult WriteGuard ℕ
  | [], _, root => pure root
  | (rowid, bytes) :: rows, seen, root => do
      let vals ← indexValues cols bytes
      let pre := if unique then encodeCompositeValuePrefix vals else none
      if pre.any (· ∈ seen) then throw (.error (.uniqueViolation indexName))
      else
        let seen := pre.toList ++ seen
        match encodeCompositeIndexKey vals rowid with
        | none => populateIndex indexName cols unique rows seen root
        | some key => do
            let root ← w.insertKey root key
            populateIndex indexName cols unique rows seen root

/-- The part of `create_index_ex` under the table lock. -/
def createIndex (table indexName : String) (columns : List String) (unique : Bool) :
    StateResult Session Unit := do
  let s ← get
  if (s.state.findIndex indexName).isSome then throw (.error (.indexExists indexName))
  else
    let cols ← findColumns table s.state columns
    let all ← BTreeReader.scanAll s.file s.state.rootPage
    let root ← inGuard IndexTreeWriter.create
    let rootPage ← inGuard (populateIndex w indexName cols unique all [] root)
    commitWrite
    modifyState fun state => { state with
      indexes := state.indexes ++ [{ name := indexName, columns, unique, rootPage }] }

end

def dropIndex (indexName : String) : StateResult Session Unit := do
  let s ← get
  match s.state.indexes.findIdx? fun idx => idx.name = indexName with
  | none => throw (.error (.indexNotFound indexName))
  | some pos => modifyState fun state => { state with indexes := state.indexes.eraseIdx pos }

def addColumn (table : String) (column : ColumnDef) : StateResult Session Unit := do
  let s ← get
  if (s.state.colNameToId column.name).isSome then
    throw (.error (.schemaMismatch
      s!"column '{column.name}' already exists on table '{table}'"))
  else if !column.nullable && column.default.isNone && 0 < s.state.rowCount then
    throw (.error (.schemaMismatch
      (s!"cannot add NOT-NULL column '{column.name}' without a default to non-empty " ++
        s!"table '{table}' ({s.state.rowCount} rows)")))
  else modifyState fun state => state.addColumn column

/-- The indexes that name a column name it anew. -/
def renameIndexed (old new : String) (idx : IndexMeta) : IndexMeta :=
  { idx with columns := idx.columns.map fun c => if c = old then new else c }

def renameColumn (table old new : String) : StateResult Session Unit := do
  let s ← get
  if (s.state.colNameToId old).isNone then
    throw (.error (.schemaMismatch s!"column '{old}' does not exist on table '{table}'"))
  else if (s.state.colNameToId new).isSome then
    throw (.error (.schemaMismatch s!"column '{new}' already exists on table '{table}'"))
  else modifyState fun state =>
    let state := state.renameColumn old new
    { state with indexes := state.indexes.map (renameIndexed old new) }

def dropColumn (table name : String) : StateResult Session Unit := do
  let s ← get
  if (s.state.colNameToId name).isNone then
    throw (.error (.schemaMismatch
      s!"column '{name}' does not exist on table '{table}' (already dropped or unknown)"))
  else
    match s.state.indexes.find? fun idx => name ∈ idx.columns with
    | some idx => throw (.error (.schemaMismatch
        s!"column `{name}` is indexed by `{idx.name}`; drop the index first"))
    | none => modifyState fun state => state.dropColumn name

end Session

/-! ## The database -/

/-- What a column name must be. -/
def checkColumnName (name : String) : Result Unit :=
  if name.isEmpty then fail (.schemaMismatch "column name must not be empty")
  else if '\x00' ∈ name.toList then
    fail (.schemaMismatch "column name must not contain null bytes")
  else .ok ()

namespace Db

section

variable [Crc32Fast] (w : TreeWriters)

/-- `create_table` takes a table id before it knows that its commit succeeds. -/
def createTable (name : String) (columns : List ColumnDef) : StateResult Db Unit := do
  let db ← get
  if (db.tables.lookup name).isSome then throw (.error (.tableExists name))
  else
    -- page 0 is for the registry
    if db.file.pageCount = 0 then discard (inFile allocatePage) else pure ()
    let root ← inFile BTreeWriter.create
    let nextTableId ← addOne32 db.nextTableId
    modify fun db => { db with nextTableId }
    commitWrite db.nextTableId
    modify fun db' =>
      { db' with tables := db'.tables.insert name (TableMeta.new name db.nextTableId columns root) }
    persistRegistry

def dropTable (name : String) : StateResult Db Unit := do
  let db ← get
  if (db.tables.lookup name).isNone then throw (.error (.tableNotFound name))
  else
    modify fun db => { db with tables := db.tables.erase name }
    persistRegistry

/-- Change the schema of a table and write the registry. -/
def alterTable (table : String) (x : StateResult Session Unit) : StateResult Db Unit := do
  withTable table x
  persistRegistry

def createIndexEx (table indexName : String) (columns : List String) (unique : Bool) :
    StateResult Db Unit :=
  if columns.isEmpty then
    throw (.error (.schemaMismatch "create_index_ex requires at least one column"))
  else alterTable table (Session.createIndex w table indexName columns unique)

def dropIndex (table indexName : String) : StateResult Db Unit :=
  alterTable table (Session.dropIndex indexName)

def addColumn (table : String) (column : ColumnDef) : StateResult Db Unit := do
  checkColumnName column.name
  alterTable table (Session.addColumn table column)

def renameColumn (table old new : String) : StateResult Db Unit := do
  checkColumnName new
  alterTable table (Session.renameColumn table old new)

def dropColumn (table name : String) : StateResult Db Unit :=
  alterTable table (Session.dropColumn table name)

end

end Db

end BoogyDb
