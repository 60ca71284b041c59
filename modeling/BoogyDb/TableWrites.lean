import BoogyDb.Db
import BoogyDb.Filter

/-!
# Writing to a table

The row operations of a table, as they are outside ACID mode: the checks that come
before a write, the maintenance of the indexes, and the writes themselves, each of
which ends in a commit.  They run on a `Session`; the insertions into the trees come
from `w`, which is `TreeWriters.code` in the program.
-/

namespace BoogyDb

open WriteGuard BTreeWriter

/-- The named values that a caller hands over. -/
abbrev RowData := List (String × Value)

/-- The columns of a row that is written: the names the table has, in the order given. -/
def columnValues (state : TableMeta) (data : RowData) : List Column :=
  data.filterMap fun d => (state.colId d.1).map fun colId => (colId, d.2)

/-- Collect columns into a hash map by their ids: of two values the later one stays. -/
def collectColumns (columns : List Column) : List Column :=
  (columns.foldl (fun map c => map.insert c.1 c.2)
    (∅ : AList fun _ : UInt16 => Value)).entries.map fun e => (e.1, e.2)

/-- `-= 1` on a 64-bit counter. -/
def subtract (n k : UInt64) : Result UInt64 :=
  if k ≤ n then .ok (n - k) else overflowed

/-- `+=` on a 64-bit counter. -/
def addCount (n : UInt64) (k : ℕ) : Result UInt64 :=
  if n.toNat + k < 2 ^ 64 then .ok (UInt64.ofNat (n.toNat + k)) else overflowed

/-! ## Index keys of rows -/

/-- The ids and types of the columns of an index; `none` when one is not there.  The id
is that of the live column, the type that of the first column with the name. -/
def resolveColumns (state : TableMeta) (columns : List String) :
    Option (List (UInt16 × ColumnType)) :=
  columns.mapM fun name => do
    let colId ← state.colId name
    let colType ← state.firstType name
    pure (colId, colType)

/-- The values of a row in these columns; a column the row does not have is `Null`. -/
def indexValues (cols : List (UInt16 × ColumnType)) (bytes : List UInt8) :
    Result (List (ColumnType × Value)) :=
  cols.mapM fun c => do
    let v ← extractColumn bytes c.1
    pure (c.2, v.getD .null)

/-- What a row is looked up by in an index on `columns`, without the row id. -/
def indexPrefix (state : TableMeta) (columns : List String) (bytes : List UInt8) :
    Result (Option (List UInt8)) :=
  match resolveColumns state columns with
  | none => pure none
  | some cols => do
      let vals ← indexValues cols bytes
      pure (encodeCompositeValuePrefix vals)

/-- The key of a row in an index on `columns`. -/
def indexKey (state : TableMeta) (columns : List String) (rowid : UInt64) (bytes : List UInt8) :
    Result (Option (List UInt8)) :=
  match resolveColumns state columns with
  | none => pure none
  | some cols => do
      let vals ← indexValues cols bytes
      pure (encodeCompositeIndexKey vals rowid)

namespace Session

section

variable [Crc32Fast] (w : TreeWriters)

/-- The step of `index_update_row` for one index. -/
def updateIndex (state : TableMeta) (idx : IndexMeta) (rowid : UInt64) (bytes : List UInt8)
    (remove : Bool) : StateResult WriteGuard IndexMeta := do
  match ← indexKey state idx.columns rowid bytes with
  | none => pure idx
  | some key =>
    if remove then do
      let _ ← IndexTreeWriter.delete idx.rootPage key
      pure idx
    else do
      let root ← w.insertKey idx.rootPage key
      pure { idx with rootPage := root }

/-- The loop over the indexes; `done` are those behind it. -/
def indexUpdateLoop (rowid : UInt64) (bytes : List UInt8) (remove : Bool) :
    List IndexMeta → List IndexMeta → StateResult Session Unit
  | _, [] => pure ()
  | done, idx :: rest => do
      let s ← get
      let idx ← inGuard (updateIndex w s.state idx rowid bytes remove)
      modifyState fun state => { state with indexes := done ++ idx :: rest }
      indexUpdateLoop rowid bytes remove (done ++ [idx]) rest

/-- Update all indexes for a row. -/
def indexUpdateRow (rowid : UInt64) (bytes : List UInt8) (remove : Bool) :
    StateResult Session Unit := do
  let s ← get
  indexUpdateLoop w rowid bytes remove [] s.state.indexes

/-! ## Checks -/

/-- The check of one unique index. -/
def enforceUnique (file : PageFile) (state : TableMeta) (bytes : List UInt8) (idx : IndexMeta) :
    Result Unit :=
  if idx.unique then do
    match ← indexPrefix state idx.columns bytes with
    | none => pure ()
    | some pre => do
        let keys ← IndexTreeReader.scanPrefix file idx.rootPage pre
        if keys.isEmpty then pure () else fail (.uniqueViolation idx.name)
  else pure ()

/-- No unique index has an entry with the values of the row. -/
def enforceUniqueIndexes (file : PageFile) (state : TableMeta) (bytes : List UInt8) :
    Result Unit :=
  state.indexes.forM (enforceUnique file state bytes)

end

/-- `{:?}` of a type. -/
def debugType : ColumnType → String
  | .text => "Text"
  | .integer => "Integer"
  | .real => "Real"
  | .blob => "Blob"
  | .boolean => "Boolean"

/-- `{:?}` of the type of a value. -/
def debugValueType (v : Value) : String :=
  match v.valueType with
  | none => "None"
  | some t => s!"Some({debugType t})"

/-- What an index asks of a value in its leading column that is not `Null`. -/
def checkIndexed (idxCol : String) (colType : ColumnType) (val : Value) : Result Unit :=
  if val.valueType ≠ some colType then
    fail (.typeMismatch
      s!"column '{idxCol}' expects {debugType colType}, got {debugValueType val}")
  else
    match val with
    | .real bits =>
      if Float64.isNaN bits then
        fail (.typeMismatch s!"column '{idxCol}': NaN not allowed in indexed columns")
      else pure ()
    | .text s =>
      if 0 ∈ asBytes s then
        fail (.typeMismatch s!"column '{idxCol}': null bytes not allowed in indexed text columns")
      else pure ()
    | _ => pure ()

/-- Type constraints on the leading columns of the indexes. -/
def enforceIndexTypes (state : TableMeta) (data : RowData) : Result Unit :=
  state.indexes.forM fun idx =>
    match idx.columns with
    | [] => panic
    | idxCol :: _ =>
      match data.find? fun d => d.1 = idxCol with
      | none => pure ()
      | some (_, val) =>
        if val.isNull then pure ()
        else
          match state.firstType idxCol with
          | none => pure ()
          | some colType => checkIndexed idxCol colType val

/-! ## Single rows -/

section

variable [Crc32Fast] (w : TreeWriters)

/-- The part of an insertion under the write guard. -/
def insertRow (rowid : UInt64) (rowBytes : List UInt8) : StateResult Session Unit := do
  let s ← get
  let root ← inGuard (w.insertRow s.state.rootPage rowid rowBytes)
  modifyState fun state => { state with rootPage := root }
  indexUpdateRow w rowid rowBytes false
  commitWrite

/-- Count one row more. -/
def countRow : StateResult Session Unit := do
  let s ← get
  let rowCount ← addOne s.state.rowCount
  modifyState fun state => { state with rowCount }

/-- Insert a row with the next row id. -/
def insert (data : RowData) : StateResult Session UInt64 := do
  let s ← get
  enforceIndexTypes s.state data
  let rowid := s.state.nextRowid
  let nextRowid ← addOne rowid
  modifyState fun state => { state with nextRowid }
  let rowBytes := encodeRow rowid (columnValues s.state data)
  if s.maxRowSize.toNat < rowBytes.length then throw (.error (.rowTooLarge rowBytes.length))
  else
    match enforceUniqueIndexes s.file s.state rowBytes with
    | .ok _ => do
        insertRow w rowid rowBytes
        countRow
        pure rowid
    | .error (.error e) => do
        -- the row id is given back
        modifyState fun state => { state with nextRowid := rowid }
        throw (.error e)
    | .error e => throw e

/-- Insert a row with the caller's row id. -/
def insertWithId (rowid : UInt64) (data : RowData) : StateResult Session Unit := do
  let s ← get
  enforceIndexTypes s.state data
  let rowBytes := encodeRow rowid (columnValues s.state data)
  if s.maxRowSize.toNat < rowBytes.length then throw (.error (.rowTooLarge rowBytes.length))
  else
    enforceUniqueIndexes s.file s.state rowBytes
    if s.state.nextRowid ≤ rowid then do
      let nextRowid ← addOne rowid
      modifyState fun state => { state with nextRowid }
    else pure ()
    insertRow w rowid rowBytes
    countRow

/-- The part of `update` under the write guard. -/
def replaceRow (id : UInt64) (existingBytes newRow : List UInt8) : StateResult Session Unit := do
  indexUpdateRow w id existingBytes true
  let s ← get
  let _ ← inGuard (BTreeWriter.delete s.state.rootPage id)
  let root ← inGuard (w.insertRow s.state.rootPage id newRow)
  modifyState fun state => { state with rootPage := root }
  indexUpdateRow w id newRow false
  commitWrite

/-- Update the given columns of a row; says whether it was there. -/
def update (id : UInt64) (fields : RowData) : StateResult Session Bool := do
  let s ← get
  enforceIndexTypes s.state fields
  match ← BTreeReader.search s.file s.state.rootPage id with
  | none => pure false
  | some existingBytes => do
      let existing ← decodeRow existingBytes
      let columns := collectColumns (existing.columns ++ columnValues s.state fields)
      replaceRow w id existingBytes (encodeRow id columns)
      pure true

/-- Delete a row; says whether it was there. -/
def delete (id : UInt64) : StateResult Session Bool := do
  let s ← get
  -- the old bytes are only read for the indexes
  let rowBytes ←
    if s.state.indexes.isEmpty then pure none
    else BTreeReader.search s.file s.state.rootPage id
  let deleted ← inGuard (BTreeWriter.delete s.state.rootPage id)
  match rowBytes with
  | some bytes => if deleted then indexUpdateRow w id bytes true else pure ()
  | none => pure ()
  commitWrite
  if deleted then do
    let s ← get
    let rowCount ← subtract s.state.rowCount 1
    modifyState fun state => { state with rowCount }
  else pure ()
  pure deleted

/-! ## Many rows -/

/-- The loop of `insert_many`: the root, the next row id and the ids given out so far. -/
def insertManyLoop : List RowData → ℕ → UInt64 → List UInt64 →
    StateResult Session (ℕ × UInt64 × List UInt64)
  | [], root, nextRowid, ids => pure (root, nextRowid, ids)
  | data :: rows, root, rowid, ids => do
      let s ← get
      let nextRowid ← addOne rowid
      let rowBytes := encodeRow rowid (columnValues s.state data)
      if s.maxRowSize.toNat < rowBytes.length then throw (.error (.rowTooLarge rowBytes.length))
      else
        let root ← inGuard (w.insertRow root rowid rowBytes)
        indexUpdateRow w rowid rowBytes false
        insertManyLoop rows root nextRowid (ids ++ [rowid])

/-- Insert several rows under one commit.  The root of the table is changed only after
it; the roots of the indexes change row by row. -/
def insertMany (rows : List RowData) : StateResult Session (List UInt64) := do
  let s ← get
  rows.forM fun data => liftM (enforceIndexTypes s.state data)
  let (root, nextRowid, ids) ← insertManyLoop w rows s.state.rootPage s.state.nextRowid []
  commitWrite
  let rowCount ← addCount s.state.rowCount ids.length
  modifyState fun state => { state with rootPage := root, nextRowid, rowCount }
  pure ids

/-- What a closure returns, in a run in which it does not panic. -/
def returned {α : Type} (fallback : α) : Result α → α
  | .ok a => a
  | .error _ => fallback

/-- Call a closure on the rows of the leaf chain.  A bulk operation panics where its
closure does; here the closure is called on all rows before the first leaf is written. -/
def callOnRows (cycleError : String) (root : ℕ)
    (call : (ℕ → Result Page) → List UInt8 → Result Unit) : StateResult WriteGuard Unit :=
  readOnly fun guard => do
    let firstLeaf ← BTreeWriter.findLeftmostLeafW guard root
    let maxPages ← maxPages guard
    walkLeaves cycleError guard.view (fun page _ => do
      forRows page (fun _ _ data => call guard.view data) ()
      pure ((), false)) maxPages firstLeaf ()

/-- The updater of `update_where`: patch the row, or decode and encode it again. -/
def patchFields (patches : List Column) (oldBytes : List UInt8) : Result (List UInt8) :=
  match patchRowMulti oldBytes patches with
  | .ok bytes => .ok bytes
  | .error (.error _) =>
    match decodeRow oldBytes with
    | .ok decoded => .ok (encodeRow decoded.id (collectColumns (decoded.columns ++ patches)))
    | .error _ => panic
  | .error e => .error e

/-- The rows that did not fit on their pages are deleted and inserted again. -/
def reinsertRows : List RowUpdate → StateResult Session Unit
  | [] => pure ()
  | (id, _, newBytes) :: updates => do
      let s ← get
      let _ ← inGuard (BTreeWriter.delete s.state.rootPage id)
      let root ← inGuard (w.insertRow s.state.rootPage id newBytes)
      modifyState fun state => { state with rootPage := root }
      reinsertRows updates

/-- Index maintenance for updated rows. -/
def reindexRows : List RowUpdate → StateResult Session Unit
  | [] => pure ()
  | (id, oldBytes, newBytes) :: updates => do
      indexUpdateRow w id oldBytes true
      indexUpdateRow w id newBytes false
      reindexRows updates

/-- Update the rows that match the filters; the result is their number. -/
def updateWhere (filters : List Filter) (fields : RowData) : StateResult Session ℕ := do
  let s ← get
  enforceIndexTypes s.state fields
  let pred := inlineMatches s.state.colNameToId filters
  let patches := columnValues s.state fields
  inGuard (callOnRows "leaf chain cycle detected in update_matching" s.state.rootPage
    fun read data => do
      if ← pred data then
        let full ← reassembleRow read data
        let _ ← patchFields patches full
        pure ()
      else pure ())
  let (inPlace, overflow) ← inGuard (w.updateRows s.state.rootPage
    (fun data => returned false (pred data)) fun old => returned [] (patchFields patches old))
  reinsertRows w overflow
  reindexRows w (inPlace ++ overflow)
  commitWrite
  pure (inPlace.length + overflow.length)

/-- Index maintenance for deleted rows. -/
def unindexRows : List (UInt64 × List UInt8) → StateResult Session Unit
  | [] => pure ()
  | (id, oldBytes) :: deleted => do
      indexUpdateRow w id oldBytes true
      unindexRows deleted

/-- Delete the rows that match the filters; the result is their number. -/
def deleteWhere (filters : List Filter) : StateResult Session ℕ := do
  let s ← get
  let pred := inlineMatches s.state.colNameToId filters
  inGuard (callOnRows "leaf chain cycle detected in delete_matching" s.state.rootPage
    fun _ data => do
      let _ ← pred data
      pure ())
  let deleted ← inGuard (BTreeWriter.deleteMatching s.state.rootPage
    fun data => returned false (pred data))
  unindexRows w deleted
  commitWrite
  let s ← get
  let rowCount ← subtract s.state.rowCount (UInt64.ofNat deleted.length)
  modifyState fun state => { state with rowCount }
  pure deleted.length

end

end Session

end BoogyDb
