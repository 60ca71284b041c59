import BoogyDb.Find
import BoogyDb.TableWrites

/-!
# ACID transactions

A transaction keeps its dirty pages and the number of its new pages to itself.  Each
of its calls takes the write guard, puts the private pages into the overlay, runs, and
takes the overlay out again (`withGuard`).  What it changed about a table is in a
`MetaDelta`; `commit` publishes the pages and applies the deltas.

A panic under the guard unwinds past the end of `withGuard`: the pages stay in the overlay,
and the lock is poisoned, so that no later call gets the guard.
-/

namespace BoogyDb

open WriteGuard
open Session (enforceIndexTypes debugValueType)

structure MetaDelta where
  rootPage : ℕ
  rowCountDelta : Int64
  nextRowid : UInt64
  tableId : UInt32
  /-- Root pages of indexes, by name. -/
  indexRoots : List (String × ℕ)

structure AcidTransaction where
  privateDirty : AList fun _ : ℕ => Page
  newPageCount : ℕ
  metaDeltas : AList fun _ : String => MetaDelta
  /-- The prefixes this transaction gave to unique indexes, by table and index. -/
  uniqueSeen : List (String × String × List UInt8)

/-- A transaction and its database. -/
structure InTransaction where
  db : Db
  tx : AcidTransaction

namespace WriteGuard

/-- Pages that are in the overlay already stay. -/
def injectDirty (pages : AList fun _ : ℕ => Page) (guard : WriteGuard) : WriteGuard :=
  { guard with writeState.dirty := guard.writeState.dirty ∪ pages }

def setNewPageCount (count : ℕ) (guard : WriteGuard) : WriteGuard :=
  { guard with writeState.newPageCount := count }

end WriteGuard

namespace AcidTransaction

def new : AcidTransaction where
  privateDirty := ∅
  newPageCount := 0
  metaDeltas := ∅
  uniqueSeen := []

/-- The guard a transaction works on: its pages are in the overlay. -/
def enter (tx : AcidTransaction) (file : PageFile) : WriteGuard :=
  setNewPageCount tx.newPageCount (injectDirty tx.privateDirty file)

def currentRoot (tx : AcidTransaction) (table : String) (state : TableMeta) : ℕ :=
  ((tx.metaDeltas.lookup table).map MetaDelta.rootPage).getD state.rootPage

def currentNextRowid (tx : AcidTransaction) (table : String) (state : TableMeta) : UInt64 :=
  ((tx.metaDeltas.lookup table).map MetaDelta.nextRowid).getD state.nextRowid

def currentIndexRoot (tx : AcidTransaction) (table indexName : String) (originalRoot : ℕ) : ℕ :=
  match tx.metaDeltas.lookup table with
  | none => originalRoot
  | some delta =>
      ((delta.indexRoots.find? fun r => r.1 = indexName).map Prod.snd).getD originalRoot

end AcidTransaction

/-- What a write needs to know about an index. -/
structure IndexInfo where
  name : String
  cols : List (UInt16 × ColumnType)
  root : ℕ

/-- The indexes of a table whose columns are there. -/
def AcidTransaction.compositeIndexInfo (tx : AcidTransaction) (table : String)
    (state : TableMeta) : List IndexInfo :=
  state.indexes.filterMap fun idx =>
    (resolveColumns state idx.columns).map fun cols =>
      ⟨idx.name, cols, tx.currentIndexRoot table idx.name idx.rootPage⟩

/-- The prefix a row has in a unique index. -/
def uniquePrefix (state : TableMeta) (bytes : List UInt8) (idx : IndexMeta) :
    Result (Option (List UInt8)) :=
  if idx.unique then indexPrefix state idx.columns bytes else .ok none

section

variable [Crc32Fast]

/-- The check of one index: against the committed tree, and against what this
transaction inserted before. -/
def enforceUniqueAcid (db : Db) (tx : AcidTransaction) (table : String) (state : TableMeta)
    (bytes : List UInt8) (idx : IndexMeta) : Result Unit := do
  match ← uniquePrefix state bytes idx with
  | none => pure ()
  | some pre => do
      let keys ← IndexTreeReader.scanPrefix db.file idx.rootPage pre
      if !keys.isEmpty then fail (.uniqueViolation idx.name)
      else if (table, idx.name, pre) ∈ tx.uniqueSeen then fail (.uniqueViolation idx.name)
      else pure ()

end

/-! ## Writes under the guard -/

section

variable [Crc32Fast] (w : TreeWriters)

/-- Insert the key of a row into each index; the result are the new roots. -/
def insertEntries (rowid : UInt64) (bytes : List UInt8) :
    List IndexInfo → StateResult WriteGuard (List (String × ℕ))
  | [] => pure []
  | info :: infos => do
      let vals ← indexValues info.cols bytes
      let root ←
        match encodeCompositeIndexKey vals rowid with
        | some key => w.insertKey info.root key
        | none => pure info.root
      let roots ← insertEntries rowid bytes infos
      pure ((info.name, root) :: roots)

/-- Delete the key of a row from an index. -/
def deleteEntry (rowid : UInt64) (bytes : List UInt8) (info : IndexInfo) :
    StateResult WriteGuard Unit := do
  let vals ← indexValues info.cols bytes
  match encodeCompositeIndexKey vals rowid with
  | some key => discard (IndexTreeWriter.delete info.root key)
  | none => pure ()

/-- Delete the keys of a row; no root changes. -/
def deleteEntries (rowid : UInt64) (bytes : List UInt8) :
    List IndexInfo → StateResult WriteGuard (List (String × ℕ))
  | [] => pure []
  | info :: infos => do
      deleteEntry rowid bytes info
      let roots ← deleteEntries rowid bytes infos
      pure ((info.name, info.root) :: roots)

/-- Replace the keys of a row, index by index. -/
def replaceEntries (rowid : UInt64) (oldBytes newBytes : List UInt8) :
    List IndexInfo → StateResult WriteGuard (List (String × ℕ))
  | [] => pure []
  | info :: infos => do
      deleteEntry rowid oldBytes info
      let vals ← indexValues info.cols newBytes
      let root ←
        match encodeCompositeIndexKey vals rowid with
        | some key => w.insertKey info.root key
        | none => pure info.root
      let roots ← replaceEntries rowid oldBytes newBytes infos
      pure ((info.name, root) :: roots)

/-- Insert a row and its keys. -/
def putRow (rowid : UInt64) (bytes : List UInt8) (root : ℕ) (infos : List IndexInfo) :
    StateResult WriteGuard (ℕ × List (String × ℕ)) := do
  let root ← w.insertRow root rowid bytes
  let roots ← insertEntries w rowid bytes infos
  pure (root, roots)

/-- Merge fields into a row, if it is there; the result says whether it was. -/
def mergeRow (id : UInt64) (fields : List Column) (root : ℕ) (infos : List IndexInfo) :
    StateResult WriteGuard (Bool × ℕ × List (String × ℕ)) := do
  match ← readOnly fun guard => BTreeWriter.search guard root id with
  | none => pure (false, root, [])
  | some oldBytes => do
      let existing ← decodeRow oldBytes
      let newRow := encodeRow id (collectColumns (existing.columns ++ fields))
      let roots ← replaceEntries w id oldBytes newRow infos
      let _ ← BTreeWriter.delete root id
      let root ← w.insertRow root id newRow
      pure (true, root, roots)

/-- Delete a row and its keys, if it is there. -/
def removeRow (id : UInt64) (hasIndexes : Bool) (root : ℕ) (infos : List IndexInfo) :
    StateResult WriteGuard (Bool × List (String × ℕ)) := do
  let rowBytes ←
    if hasIndexes then readOnly fun guard => BTreeWriter.search guard root id else pure none
  let deleted ← BTreeWriter.delete root id
  match rowBytes with
  | some bytes =>
      if deleted then do
        let roots ← deleteEntries id bytes infos
        pure (true, roots)
      else pure (false, [])
  | none => pure (deleted, [])

end

/-! ## Calls -/

/-- `add_counter`. -/
def addCounter (current delta : Value) : Result Value :=
  match current, delta with
  | .null, .integer d => .ok (.integer d)
  | .integer c, .integer d => .ok (.integer (c + d))
  | .null, .real d => .ok (.real d)
  | .real c, .real d => .ok (.real (Float64.add c d))
  | .integer c, .real d => .ok (.real (Float64.add (Float64.ofInt64 c) d))
  | .real c, .integer d => .ok (.real (Float64.add c (Float64.ofInt64 d)))
  | other, _ => fail (.schemaMismatch
      ("upsert_increment counter is not numeric: current value " ++ debugValueType other))

/-- `Filter::eq`. -/
def Filter.eq (column : String) (value : Value) : Filter := ⟨column, .eq, value, none⟩

/-- The query by which an upsert looks for its row. -/
def keyQuery (key : RowData) : FindOptions where
  filters := key.map fun k => Filter.eq k.1 k.2
  orGroups := []
  sort := []
  limit := some 1
  offset := none
  includeTotal := false

namespace InTransaction

section

variable [Crc32Fast]

/-- The guard that the transaction gets. -/
def guard (s : InTransaction) : WriteGuard := s.tx.enter s.db.file

/-- The state when the write guard is given back. -/
def leave (s : InTransaction) (guard : WriteGuard) : InTransaction :=
  { db := { s.db with file := guard.discard }
    tx := { s.tx with
      privateDirty := guard.writeState.dirty
      newPageCount := guard.writeState.newPageCount } }

/-- The state behind a panic: the private pages were moved into the overlay. -/
def abandon (s : InTransaction) (guard : WriteGuard) : InTransaction :=
  { db := { s.db with file := guard }, tx := { s.tx with privateDirty := ∅ } }

/-- Run `f` on the write guard with the private pages injected, and take them out
again, also when `f` returns an error. -/
def withGuard {α : Type} (f : StateResult WriteGuard α) : StateResult InTransaction α := fun s =>
  match f s.guard with
  | .ok a guard => .ok a (s.leave guard)
  | .error e guard => .error e (if e.isPanic then s.abandon guard else s.leave guard)

def tableState (table : String) : StateResult InTransaction TableMeta := do
  let s ← get
  match s.db.tables.lookup table with
  | some state => pure state
  | none => throw (.error (.tableNotFound table))

/-- Change the delta of a table, which starts as `fresh`. -/
def changeDelta (table : String) (fresh : MetaDelta) (f : MetaDelta → MetaDelta) :
    StateResult InTransaction Unit :=
  modify fun s => { s with
    tx.metaDeltas := s.tx.metaDeltas.insert table (f ((s.tx.metaDeltas.lookup table).getD fresh)) }

/-- No unique index has an entry with the values of the row; the row's own are noted. -/
def enforceUniqueIndexesAcid (table : String) (state : TableMeta) (bytes : List UInt8) :
    StateResult InTransaction Unit := do
  let s ← get
  state.indexes.forM fun idx => liftM (enforceUniqueAcid s.db s.tx table state bytes idx)
  let seen ← state.indexes.filterMapM fun idx => do
    let pre ← uniquePrefix state bytes idx
    pure (pre.map fun p => (table, idx.name, p))
  modify fun s => { s with tx.uniqueSeen := seen ++ s.tx.uniqueSeen }

variable (w : TreeWriters)

/-- The common part of `insert` and `insert_with_id`; `nextRowid` is computed when the
row is in. -/
def insertAs (table : String) (state : TableMeta) (rowid : UInt64) (data : RowData)
    (freshNext : UInt64) (nextRowid : Result UInt64) : StateResult InTransaction Unit := do
  let s ← get
  let root := s.tx.currentRoot table state
  let rowBytes := encodeRow rowid (columnValues state data)
  if s.db.maxRowSize.toNat < rowBytes.length then throw (.error (.rowTooLarge rowBytes.length))
  else
    enforceUniqueIndexesAcid table state rowBytes
    let infos := s.tx.compositeIndexInfo table state
    let (newRoot, indexRoots) ← withGuard (putRow w rowid rowBytes root infos)
    let nextRowid ← nextRowid
    changeDelta table ⟨root, 0, freshNext, state.tableId, []⟩ fun delta =>
      { delta with
        rootPage := newRoot
        rowCountDelta := delta.rowCountDelta + 1
        nextRowid
        indexRoots }

def insert (table : String) (data : RowData) : StateResult InTransaction UInt64 := do
  let state ← tableState table
  enforceIndexTypes state data
  let s ← get
  let rowid := s.tx.currentNextRowid table state
  insertAs w table state rowid data rowid (addOne rowid)
  pure rowid

def insertWithId (table : String) (rowid : UInt64) (data : RowData) :
    StateResult InTransaction Unit := do
  let state ← tableState table
  enforceIndexTypes state data
  let s ← get
  let currentNext := s.tx.currentNextRowid table state
  insertAs w table state rowid data currentNext
    (if currentNext ≤ rowid then addOne rowid else .ok currentNext)

def update (table : String) (id : UInt64) (fields : RowData) : StateResult InTransaction Bool := do
  let state ← tableState table
  enforceIndexTypes state fields
  let s ← get
  let root := s.tx.currentRoot table state
  let infos := s.tx.compositeIndexInfo table state
  let (updated, newRoot, indexRoots) ←
    withGuard (mergeRow w id (columnValues state fields) root infos)
  if updated then
    changeDelta table ⟨root, 0, s.tx.currentNextRowid table state, state.tableId, []⟩ fun delta =>
      { delta with rootPage := newRoot, indexRoots }
  else pure ()
  pure updated

def delete (table : String) (id : UInt64) : StateResult InTransaction Bool := do
  let state ← tableState table
  let s ← get
  let root := s.tx.currentRoot table state
  let infos := s.tx.compositeIndexInfo table state
  let (deleted, indexRoots) ← withGuard (removeRow id (!state.indexes.isEmpty) root infos)
  if deleted then
    changeDelta table ⟨root, 0, s.tx.currentNextRowid table state, state.tableId, []⟩ fun delta =>
      { delta with rootPage := root, rowCountDelta := delta.rowCountDelta - 1, indexRoots }
  else pure ()
  pure deleted

/-- All rows of a table, through the overlay. -/
def scanAll (table : String) (state : TableMeta) : StateResult InTransaction RowList := do
  let s ← get
  withGuard (readOnly fun guard => BTreeWriter.scanAllW guard (s.tx.currentRoot table state))

def get? (table : String) (id : UInt64) : StateResult InTransaction (Option Row) := do
  let state ← tableState table
  let s ← get
  match ← withGuard (readOnly fun guard =>
    BTreeWriter.search guard (s.tx.currentRoot table state) id) with
  | none => pure none
  | some bytes => do
      let row ← Row.fromRaw bytes
      pure (some row)

/-- The loop of `find`: it stops when it has as many rows as it needs. -/
def collectPassing (passes : List UInt8 → Result Bool) (stopAfter : Option ℕ) :
    RowList → List Row → Result (List Row)
  | [], acc => pure acc
  | (_, bytes) :: rows, acc =>
    if stopAfter.any (· ≤ acc.length) then pure acc
    else do
      if ← passes bytes then
        let row ← Row.fromRaw bytes
        collectPassing passes stopAfter rows (acc ++ [row])
      else collectPassing passes stopAfter rows acc

/-- `find`: scan all rows and evaluate the whole predicate. -/
def find (table : String) (opts : FindOptions) : StateResult InTransaction FindResult := do
  let state ← tableState table
  let all ← scanAll table state
  let passing ← collectPassing (fun bytes => rowPasses state.colNameToId state.colDefs bytes
    opts.filters opts.orGroups) opts.stopAfter all []
  let sorted ← sortRows state.colNames state.colDefs opts.sort passing
  pure ⟨opts.page sorted, if opts.includeTotal then some passing.length else none⟩

def countWith (table : String) (filters : List Filter) (orGroups : List (List Filter)) :
    StateResult InTransaction UInt64 := do
  let state ← tableState table
  let s ← get
  if filters.isEmpty && orGroups.isEmpty then
    let delta := ((s.tx.metaDeltas.lookup table).map MetaDelta.rowCountDelta).getD 0
    pure (state.rowCount.toInt64 + delta).toUInt64
  else
    let all ← scanAll table state
    let passing ← (all.filterM fun r =>
      rowPasses state.colNameToId state.colDefs r.2 filters orGroups : Result RowList)
    pure (UInt64.ofNat passing.length)

/-! ### Several rows -/

def insertMany (table : String) (rows : List RowData) : StateResult InTransaction (List UInt64) :=
  rows.mapM (insert w table)

/-- The ids of the rows that pass the filters. -/
def matchingIds (table : String) (state : TableMeta) (filters : List Filter) :
    StateResult InTransaction (List UInt64) := do
  let all ← scanAll table state
  let passing ← (all.filterM fun r =>
    filters.allM (filterMatchesRow state.colNameToId state.colDefs r.2) : Result RowList)
  pure (passing.map Prod.fst)

/-- Call `x` for each id, and count how often it says yes. -/
def countCalls (x : UInt64 → StateResult InTransaction Bool) :
    List UInt64 → StateResult InTransaction ℕ
  | [] => pure 0
  | id :: ids => do
      let done ← x id
      let count ← countCalls x ids
      pure (count + if done then 1 else 0)

def updateWhere (table : String) (filters : List Filter) (fields : RowData) :
    StateResult InTransaction ℕ := do
  let state ← tableState table
  enforceIndexTypes state fields
  let ids ← matchingIds table state filters
  countCalls (fun id => update w table id fields) ids

def deleteWhere (table : String) (filters : List Filter) : StateResult InTransaction ℕ := do
  let state ← tableState table
  let ids ← matchingIds table state filters
  countCalls (delete table) ids

/-! ### Upserts -/

/-- Add to the counter of the row with this key, or insert it. -/
def upsertIncrement (table : String) (key : RowData) (counter : String) (delta : Value)
    (set : RowData) : StateResult InTransaction UInt64 := do
  match delta with
  | .integer _ | .real _ => pure ()
  | _ => throw (.error (.schemaMismatch (s!"upsert_increment delta for '{counter}' must be " ++
      "Integer or Real, got " ++ debugValueType delta)))
  let existing ← find table (keyQuery key)
  match existing.rows with
  | row :: _ => do
      let state ← tableState table
      let current ← row.get state.colNames state.colDefs counter
      let newValue ← addCounter (current.getD .null) delta
      let _ ← update w table row.id ((counter, newValue) :: set)
      pure row.id
  | [] => insert w table (key ++ (counter, delta) :: set)

/-- Update the row with this key, or insert it; the key has to have a unique index. -/
def upsert (table : String) (key : RowData) (set : RowData) : StateResult InTransaction UInt64 := do
  let keyColumns := key.map Prod.fst
  let state ← tableState table
  if state.indexes.any fun idx => idx.unique && idx.columns.isPerm keyColumns then
    let existing ← find table (keyQuery key)
    match existing.rows with
    | row :: _ => do
        let _ ← update w table row.id set
        pure row.id
    | [] => insert w table (key ++ set)
  else throw (.error (.schemaMismatch ("upsert requires a unique index on columns [" ++
    ", ".intercalate keyColumns ++ s!"]; none found on table '{table}'")))

end

end InTransaction

/-! ## Commit -/

/-- Set the root of the first index with this name. -/
def setIndexRoot (indexes : List IndexMeta) (r : String × ℕ) : List IndexMeta :=
  match indexes.findIdx? fun idx => idx.name = r.1 with
  | none => indexes
  | some i => indexes.modify i fun idx => { idx with rootPage := r.2 }

/-- Apply a delta to the table. -/
def MetaDelta.apply (delta : MetaDelta) (state : TableMeta) : TableMeta :=
  { state with
    rootPage := delta.rootPage
    rowCount := (state.rowCount.toInt64 + delta.rowCountDelta).toUInt64
    nextRowid := max state.nextRowid delta.nextRowid
    indexes := delta.indexRoots.foldl setIndexRoot state.indexes }

/-- Apply the deltas to the tables that are there. -/
def applyDeltas (deltas : List (String × MetaDelta)) (tables : AList fun _ : String => TableMeta) :
    AList fun _ : String => TableMeta :=
  deltas.foldl (fun tables d =>
    match tables.lookup d.1 with
    | some state => tables.replace d.1 (d.2.apply state)
    | none => tables) tables

namespace InTransaction

section

variable [Crc32Fast]

/-- Publish the pages and apply the deltas.  All pages are logged under the id of one
table of the transaction. -/
def commit : StateResult InTransaction Unit := fun s =>
  if s.tx.privateDirty.entries.isEmpty && s.tx.metaDeltas.entries.isEmpty then .ok () s
  else
    let deltas := s.tx.metaDeltas.entries.map fun e => (e.1, e.2)
    let tableId := (deltas.head?.map fun d => d.2.tableId).getD 0
    match commitFile s.db.durability tableId (s.tx.enter s.db.file) s.db.wal with
    | .ok (file, wal) =>
        .ok () ⟨{ s.db with file, wal, tables := applyDeltas deltas s.db.tables }, .new⟩
    | .error (e, file, wal) => .error e ⟨{ s.db with file, wal }, .new⟩

end

end InTransaction

/-- One transaction for one call. -/
def Db.inTransaction [Crc32Fast] {α : Type} (x : StateResult InTransaction α) :
    StateResult Db α := fun db =>
  match (do let a ← x; InTransaction.commit; pure a) ⟨db, .new⟩ with
  | .ok a s => .ok a s.db
  | .error e s => .error e s.db

end BoogyDb
