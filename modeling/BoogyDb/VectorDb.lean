import BoogyDb.Calls
import BoogyDb.FindRows
import BoogyDb.VectorCollection

/-!
# The vector calls of the database

A vector collection belongs to a table.  The nodes of its rows are kept in the collection
and, so that they can be found again, in an internal table whose rows are `(id, node_id)`.
Each call changes the collection first and the internal table after it.

How the internal table is written is a parameter, `MappingWrites`, so that the same calls can
run with writes that are watched.
-/

namespace BoogyDb

/-- The database with its open vector collections. -/
structure VectorDb where
  db : Db
  collections : AList fun _ : String × String => VectorCollection

/-- `vector_mapping_table`. -/
def vectorMappingTable (table collection : String) : String :=
  "__vec_" ++ table ++ "_" ++ collection

/-- `parse_vector_mapping_table`: the table ends at the first underscore. -/
def parseVectorMappingTable (name : String) : Option (String × String) :=
  let start := "__vec_".toList
  if start.isPrefixOf name.toList then
    let rest := name.toList.drop start.length
    if '_' ∈ rest then
      let table := rest.takeWhile (· ≠ '_')
      let collection := (rest.dropWhile (· ≠ '_')).tail
      if table.isEmpty || collection.isEmpty then none
      else some (String.ofList table, String.ofList collection)
    else none
  else none

/-- `FindOptions::default`. -/
def defaultQuery : FindOptions := plainQuery [] []

/-- The row of the internal table for a node. -/
def mappingData (nodeId : ℕ) : RowData := [("node_id", .integer (Int64.ofNat nodeId))]

def mappingColumns : List ColumnDef := [⟨"node_id", .integer, true, false, none, false⟩]

section

variable [Crc32Fast]

namespace Db

/-- The state of a table. -/
def tableState (db : Db) (table : String) : Result TableMeta :=
  match db.tables.lookup table with
  | some state => .ok state
  | none => fail (.tableNotFound table)

/-- `BoogyDb::find`. -/
def find (db : Db) (table : String) (opts : FindOptions) : Result FindResult := do
  let state ← db.tableState table
  BoogyDb.find db.file state opts

/-- `BoogyDb::count_with`. -/
def countWith (db : Db) (table : String) (filters : List Filter)
    (orGroups : List (List Filter)) : Result ℕ := do
  let state ← db.tableState table
  BoogyDb.countWith db.file state filters orGroups

/-- The pair that a row of the internal table stands for. -/
def mappingOf (state : TableMeta) (row : Row) : Result (Option (UInt64 × ℕ)) := do
  match ← row.get state.colNames state.colDefs "node_id" with
  | some (.integer n) => pure (some (row.id, n.toUInt64.toNat % 2 ^ 32))
  | _ => pure none

/-- The pairs of the internal table, as they are read when the collection is opened again. -/
def mappings (db : Db) (mappingTable : String) : Result (List (UInt64 × ℕ)) := do
  let state ← db.tableState mappingTable
  let found ← db.find mappingTable defaultQuery
  found.rows.filterMapM (mappingOf state)

/-- `reopen_vector_collections`.  `openFile` opens the files of a collection, if they are
there and not encrypted. -/
def reopenVectorCollections (db : Db)
    (openFile : String → String → Option (Result VectorCollection)) :
    Result (AList fun _ : String × String => VectorCollection) :=
  db.tables.keys.foldlM (fun collections name =>
    match parseVectorMappingTable name with
    | none => pure collections
    | some (table, collection) =>
        match openFile table collection with
        | none => pure collections
        | some opened => do
            let c ← opened
            let pairs ← db.mappings name
            pure (collections.insert (table, collection) (c.rebuildMappings pairs))) ∅

end Db

/-! ## Writing the internal table -/

/-- How the internal table is written. -/
structure MappingWrites where
  put : String → UInt64 → ℕ → StateResult Db Unit
  remove : String → UInt64 → StateResult Db Unit

/-- `let _ = x`: an error is dropped, a panic is not. -/
def ignoring {σ α : Type} (x : StateResult σ α) : StateResult σ Unit := fun s =>
  match x s with
  | .ok _ s' => .ok () s'
  | .error (.error _) s' => .ok () s'
  | .error e s' => .error e s'

/-- `insert_with_id`, and `delete` whose errors are ignored. -/
def MappingWrites.code : MappingWrites where
  put mappingTable rowid nodeId :=
    discard ((RowCall.insertWithId rowid (mappingData nodeId)).perform .code mappingTable)
  remove mappingTable rowid := ignoring ((RowCall.delete rowid).perform .code mappingTable)

/-! ## The calls -/

namespace VectorDb

/-- A call on the tables. -/
def inDb {α : Type} (x : StateResult Db α) : StateResult VectorDb α := fun s =>
  match x s.db with
  | .ok a db => .ok a { s with db }
  | .error e db => .error e { s with db }

/-- A call on a collection under its lock. -/
def withCollection {α : Type} (table collection : String) (x : EStateM Fault VectorCollection α) :
    StateResult VectorDb α := fun s =>
  match s.collections.lookup (table, collection) with
  | none => .error (.error (.vectorCollectionNotFound (table ++ "." ++ collection))) s
  | some c =>
      let leave (c : VectorCollection) : VectorDb :=
        { s with collections := s.collections.replace (table, collection) c }
      match x c with
      | .ok a c => .ok a (leave c)
      | .error e c => .error e (leave c)

/-- `create_vector_collection`, with new files. -/
def createVectorCollection (table name : String) (options : VectorCollectionOptions)
    (cipher : Option Aes256Gcm) (nonces : ℕ → Nonce) : StateResult VectorDb Unit := do
  let s ← get
  let _ ← (s.db.tableState table : Result TableMeta)
  if (s.collections.lookup (table, name)).isSome then
    throw (.error (.vectorCollectionExists (table ++ "." ++ name)))
  else
    let c ← VectorCollection.create options cipher nonces
    set { s with collections := s.collections.insert (table, name) c }
    inDb (Db.createTable (vectorMappingTable table name) mappingColumns)

variable (w : MappingWrites)
  (distanceFn : DistanceMetric → List UInt32 → List UInt32 → UInt32) (order : HeapOrder)
  (table collection : String)

def vectorInsert (rowid : UInt64) (vector : List UInt32) (layer : ℕ) :
    StateResult VectorDb Unit := do
  let s ← get
  let row ← (s.db.get? table rowid : Result (Option Row))
  if row.isNone then throw (.error (.rowNotFound s!"{rowid}"))
  else
    let nodeId ← withCollection table collection
      (VectorCollection.insert .code distanceFn order rowid vector layer)
    inDb (w.put (vectorMappingTable table collection) rowid nodeId)

/-- The part of `vector_insert_batch` under the lock. -/
def insertEntries : List (UInt64 × List UInt32 × ℕ) →
    EStateM Fault VectorCollection (List (UInt64 × ℕ))
  | [] => pure []
  | (rowid, vector, layer) :: entries => do
      let nodeId ← VectorCollection.insert .code distanceFn order rowid vector layer
      let nodeIds ← insertEntries entries
      pure ((rowid, nodeId) :: nodeIds)

/-- The vectors are inserted first, and the pairs are written when all of them are in. -/
def vectorInsertBatch (entries : List (UInt64 × List UInt32 × ℕ)) : StateResult VectorDb Unit := do
  let nodeIds ← withCollection table collection (insertEntries distanceFn order entries)
  nodeIds.forM fun e => inDb (w.put (vectorMappingTable table collection) e.1 e.2)

def vectorUpdate (rowid : UInt64) (vector : List UInt32) (layer : ℕ) :
    StateResult VectorDb Unit := do
  let nodeId ← withCollection table collection
    (VectorCollection.update .code distanceFn order rowid vector layer)
  inDb (w.remove (vectorMappingTable table collection) rowid)
  inDb (w.put (vectorMappingTable table collection) rowid nodeId)

def vectorDelete (rowid : UInt64) : StateResult VectorDb Unit := do
  withCollection table collection (VectorCollection.delete .code rowid)
  inDb (w.remove (vectorMappingTable table collection) rowid)

end VectorDb

end

/-- The calls that change a collection. -/
inductive VectorDbCall
  | insert (rowid : UInt64) (vector : List UInt32) (layer : ℕ)
  | insertBatch (entries : List (UInt64 × List UInt32 × ℕ))
  | update (rowid : UInt64) (vector : List UInt32) (layer : ℕ)
  | delete (rowid : UInt64)

def VectorDbCall.perform [Crc32Fast] (w : MappingWrites)
    (distanceFn : DistanceMetric → List UInt32 → List UInt32 → UInt32) (order : HeapOrder)
    (table collection : String) : VectorDbCall → StateResult VectorDb Unit
  | .insert rowid vector layer =>
      VectorDb.vectorInsert w distanceFn order table collection rowid vector layer
  | .insertBatch entries => VectorDb.vectorInsertBatch w distanceFn order table collection entries
  | .update rowid vector layer =>
      VectorDb.vectorUpdate w distanceFn order table collection rowid vector layer
  | .delete rowid => VectorDb.vectorDelete w table collection rowid

end BoogyDb
