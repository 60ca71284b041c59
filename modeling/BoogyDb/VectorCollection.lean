import BoogyDb.Find
import BoogyDb.Hnsw
import BoogyDb.VecFile
import BoogyDb.VectorWal

/-!
# Vector collections

A collection is a vector file, its log and the maps between row ids and nodes.  An
insertion allocates a node, computes the lists that the node brings about, logs them and
then writes them; a deletion logs and frees the node.  After that the file is flushed and
the log emptied.  `open` replays what is left in the log.

The layer of a new node is drawn at random; here it is an argument.  `distanceFn` is the
distance function of a metric.  Neighbor lists are read and written through an `Access`,
so that the same operations can run with reads and writes that are watched.
-/

namespace BoogyDb

open VectorWal (WalEntry)

/-- How neighbor lists are read and written. -/
structure Access (ε : Type) where
  lift : Fault → ε
  readNeighbors : VecFile → ℕ → ℕ → Except ε (List ℕ)
  writeNeighbors : VecFile → ℕ → ℕ → List ℕ → Except ε VecFile

/-- `VecFile::read_neighbors` and `VecFile::write_neighbors`. -/
def Access.code : Access Fault where
  lift := id
  readNeighbors := VecFile.readNeighbors
  writeNeighbors := VecFile.writeNeighbors

namespace Access

variable {ε : Type} (a : Access ε)

/-- A call that reads and writes no lists. -/
def run {α : Type} (x : Result α) : Except ε α :=
  match x with
  | .ok v => .ok v
  | .error e => .error (a.lift e)

/-- The file as the graph is read from it. -/
def storage (f : VecFile) : VectorStorage ε where
  vector n := a.run (f.readVector n)
  neighbors := a.readNeighbors f
  isDeleted n := a.run (f.isDeleted n)
  stuck := a.lift .overflow

end Access

/-- A step that leaves the state alone. -/
def ofExcept {ε σ α : Type} (x : Except ε α) : EStateM ε σ α := fun s =>
  match x with
  | .ok v => .ok v s
  | .error e => .error e s

structure VectorCollection where
  vecfile : VecFile
  wal : VectorWal
  rowidToNode : AList fun _ : UInt64 => ℕ
  nodeToRowid : AList fun _ : ℕ => UInt64

structure VectorCollectionOptions where
  dimensions : ℕ
  metric : DistanceMetric
  m : ℕ
  efConstruction : ℕ

structure VectorResult where
  rowid : UInt64
  distance : UInt32

namespace VectorWal

/-- `truncate`. -/
def truncate (wal : VectorWal) : VectorWal := { wal with file := [] }

end VectorWal

namespace VectorCollection

/-- `create`, with new files. -/
def create (options : VectorCollectionOptions) (cipher : Option Aes256Gcm) (nonces : ℕ → Nonce) :
    Result VectorCollection :=
  if options.dimensions = 0 ∨ 4096 < options.dimensions then
    fail (.vectorError s!"dimensions must be 1..4096, got {options.dimensions}")
  else if options.m = 0 ∨ 128 < options.m then
    fail (.vectorError s!"m must be 1..128, got {options.m}")
  else
    .ok ⟨VecFile.create options.dimensions options.metric options.m options.efConstruction 1024,
      VectorWal.create cipher nonces, ∅, ∅⟩

/-! ## Replay -/

/-- `while node_count <= node_id { allocate_node() }`: every turn takes a node off the free
list or counts one more. -/
def allocateUpTo (nodeId : ℕ) : ℕ → VecFile → Result VecFile
  | 0, _ => overflowed
  | fuel + 1, f =>
      if f.header.nodeCount ≤ nodeId then do
        let (_, f) ← f.allocateNode
        allocateUpTo nodeId fuel f
      else pure f

def replayEntry (f : VecFile) : WalEntry → Result VecFile
  | .insertVector nodeId layer vector => do
      let f ← allocateUpTo nodeId.toNat (f.header.freeListLen + nodeId.toNat + 2) f
      let f ← f.writeVector nodeId.toNat vector
      let f ← f.allocateGraphRecord nodeId.toNat layer.toNat
      f.setDeleted nodeId.toNat false
  | .setNeighbors nodeId layer neighbors =>
      f.writeNeighbors nodeId.toNat layer.toNat (neighbors.map UInt32.toNat)
  | .deleteNode nodeId => f.freeNode nodeId.toNat
  | .updateHeader entryPoint nodeCount maxLayer =>
      .ok { f with
        header.entryPoint := VecFile.optionU32 entryPoint.toNat
        header.nodeCount := nodeCount.toNat
        header.maxLayer := maxLayer.toNat }
  | .commit => .ok f

def replayTransaction (f : VecFile) (entries : List WalEntry) : Result VecFile :=
  entries.foldlM replayEntry f

/-- `open` on files that are not encrypted; the maps come from elsewhere. -/
def «open» (mem : Memory) (wal : VectorWal) : Result VectorCollection := do
  let f ← VecFile.open mem
  if wal.file.isEmpty then pure ⟨f, wal, ∅, ∅⟩
  else
    let transactions ← wal.readCommitted
    let f ← transactions.foldlM replayTransaction f
    let f ← f.flush
    pure ⟨f, wal.truncate, ∅, ∅⟩

def rebuildMappings (c : VectorCollection) (mappings : List (UInt64 × ℕ)) : VectorCollection :=
  { c with
    rowidToNode := mappings.foldl (fun map e => map.insert e.1 e.2) ∅
    nodeToRowid := mappings.foldl (fun map e => map.insert e.2 e.1) ∅ }

/-! ## Operations -/

section

variable {ε : Type} (a : Access ε)
  (distanceFn : DistanceMetric → List UInt32 → List UInt32 → UInt32) (order : HeapOrder)

/-- Take a node, and write its vector and an empty record. -/
def addNode (f : VecFile) (vector : List UInt32) (layer : ℕ) : Result (ℕ × VecFile) := do
  let (nodeId, f) ← f.allocateNode
  let f ← f.writeVector nodeId vector
  let f ← f.allocateGraphRecord nodeId layer
  pure (nodeId, f)

/-- `hnsw::insert` on the file. -/
def graphInsert (f : VecFile) (nodeId layer : ℕ) : Except ε Hnsw.InsertResult :=
  Hnsw.insert (distanceFn f.header.metric) (a.storage f) order nodeId layer f.header.entryPoint
    f.header.maxLayer f.header.m f.header.efConstruction

/-- The log entries of an insertion. -/
def insertEntries (nodeId layer : ℕ) (vector : List UInt32) (connections : List Hnsw.Connection)
    (newEp nodeCount newMax : ℕ) : List WalEntry :=
  .insertVector (UInt32.ofNat nodeId) (UInt32.ofNat layer) vector ::
    connections.map (fun c => .setNeighbors (UInt32.ofNat c.1) (UInt32.ofNat c.2.1)
      (c.2.2.map UInt32.ofNat)) ++
    [.updateHeader (UInt32.ofNat newEp) (UInt32.ofNat nodeCount) (UInt32.ofNat newMax)]

/-- Write the lists, one after the other. -/
def applyConnections (f : VecFile) (connections : List Hnsw.Connection) : Except ε VecFile :=
  connections.foldlM (fun f c => a.writeNeighbors f c.1 c.2.1 c.2.2) f

/-- The log takes the entries and a commit. -/
def appendCommitted (entries : List WalEntry) : EStateM ε VectorCollection Unit := do
  let c ← get
  let wal ← ofExcept (a.run (c.wal.appendCommitted entries))
  set { c with wal }

def insert (rowid : UInt64) (vector : List UInt32) (layer : ℕ) :
    EStateM ε VectorCollection ℕ := do
  let c ← get
  let dims := c.vecfile.header.dimensions
  if vector.length ≠ dims then
    throw (a.lift (.error (.vectorDimensionMismatch dims vector.length)))
  else if rowid ∈ c.rowidToNode then
    throw (a.lift (.error (.vectorError s!"duplicate rowid {rowid}")))
  else
    let (nodeId, f) ← ofExcept (a.run (addNode c.vecfile vector layer))
    set { c with vecfile := f }
    let result ← ofExcept (graphInsert a distanceFn order f nodeId layer)
    let newEp := result.newEntryPoint.getD (f.header.entryPoint.getD nodeId)
    let newMax := result.newMaxLayer.getD f.header.maxLayer
    -- the log is written before the lists
    appendCommitted a
      (insertEntries nodeId layer vector result.connections newEp f.header.nodeCount newMax)
    let f ← ofExcept (applyConnections a f result.connections)
    let f : VecFile := { f with header.entryPoint := some newEp, header.maxLayer := newMax }
    let f ← ofExcept (a.run f.flush)
    modify fun c => { c with
      vecfile := f
      wal := c.wal.truncate
      rowidToNode := c.rowidToNode.insert rowid nodeId
      nodeToRowid := c.nodeToRowid.insert nodeId rowid }
    pure nodeId

/-- The first neighbor on layer 0 that is not deleted. -/
def firstLive (f : VecFile) : List ℕ → Result (Option ℕ)
  | [] => .ok none
  | n :: neighbors => do
      if ← f.isDeleted n then firstLive f neighbors else pure (some n)

/-- The entry point when the node is gone. -/
def entryAfterDelete (f : VecFile) (nodeId : ℕ) : Except ε (Option ℕ) :=
  if f.header.entryPoint = some nodeId then do
    let neighbors ← a.readNeighbors f nodeId 0
    a.run (firstLive f neighbors)
  else .ok f.header.entryPoint

def delete (rowid : UInt64) : EStateM ε VectorCollection Unit := do
  let c ← get
  match c.rowidToNode.lookup rowid with
  | none => throw (a.lift (.error (.vectorError s!"rowid {rowid} not found")))
  | some nodeId => do
      set { c with
        rowidToNode := c.rowidToNode.erase rowid
        nodeToRowid := c.nodeToRowid.erase nodeId }
      let f := c.vecfile
      let newEp ← ofExcept (entryAfterDelete a f nodeId)
      appendCommitted a [.deleteNode (UInt32.ofNat nodeId),
        .updateHeader (UInt32.ofNat (newEp.getD noneU32)) (UInt32.ofNat f.header.nodeCount)
          (UInt32.ofNat f.header.maxLayer)]
      let f ← ofExcept (a.run (f.freeNode nodeId))
      let f : VecFile := { f with header.entryPoint := newEp }
      let f ← ofExcept (a.run f.flush)
      modify fun c => { c with vecfile := f, wal := c.wal.truncate }

def update (rowid : UInt64) (vector : List UInt32) (layer : ℕ) : EStateM ε VectorCollection ℕ := do
  delete a rowid
  insert a distanceFn order rowid vector layer

/-- Whether a node passes the filter: the row of the node is loaded for it. -/
def allowed (c : VectorCollection)
    (rowLoader : Option (UInt64 → Option (List (String × Value)))) (filter : Option Filter)
    (nodeId : ℕ) : Bool :=
  match rowLoader, filter with
  | some load, some f =>
      match (c.nodeToRowid.lookup nodeId).bind load with
      | some columns =>
          f.matches (((columns.find? fun col => col.1 = f.column).map Prod.snd).getD .null)
      | none => false
  | _, _ => true

def search (c : VectorCollection) (query : List UInt32) (k efSearch : ℕ)
    (rowLoader : Option (UInt64 → Option (List (String × Value)))) (filter : Option Filter) :
    Except ε (List VectorResult) := do
  let dims := c.vecfile.header.dimensions
  if query.length ≠ dims then
    throw (a.lift (.error (.vectorDimensionMismatch dims query.length)))
  else
    match c.vecfile.header.entryPoint with
    | none => pure []
    | some ep => do
        let neighbors ← Hnsw.search (distanceFn c.vecfile.header.metric) (a.storage c.vecfile)
          order query k efSearch ep c.vecfile.header.maxLayer (allowed c rowLoader filter)
        pure (neighbors.filterMap fun n =>
          (c.nodeToRowid.lookup n.1).map fun rowid => ⟨rowid, n.2⟩)

end

end VectorCollection

end BoogyDb
