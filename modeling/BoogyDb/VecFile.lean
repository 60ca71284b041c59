import BoogyDb.Error
import BoogyDb.Lib.Memory

/-!
# The file of a vector collection

The file is mapped into memory.  Behind a header of 4096 bytes it has four regions, for
`nodeCapacity` nodes each: the vectors, the node index, the graph records and the deleted
flags.  A graph record is `[max_layer:4]` and a list `[count:4][neighbors]` of a fixed
capacity for each layer from 0 to `max_layer`; records are appended one behind the other,
and the index has the offset of the record of a node.

The first four bytes of the vector of a freed node link to the node that was freed before.
The header is kept in memory and written by `flush`.  An encrypted collection maps a
decrypted copy of its file and works on it in the same way.

Loops that write one word after the other are written as one store of all the words.
-/

namespace BoogyDb

open Bytes

inductive DistanceMetric
  | cosine
  | euclidean
  | dotProduct
deriving DecidableEq

def DistanceMetric.toTag : DistanceMetric → UInt8
  | cosine => 0
  | euclidean => 1
  | dotProduct => 2

def DistanceMetric.fromTag (tag : UInt8) : Option DistanceMetric :=
  if tag = 0 then some cosine
  else if tag = 1 then some euclidean
  else if tag = 2 then some dotProduct
  else none

/-- `NONE_U32`. -/
def noneU32 : ℕ := 0xFFFFFFFF

/-- `NONE_U64`. -/
def noneU64 : ℕ := 2 ^ 64 - 1

/-- `HEADER_SIZE`. -/
def vecHeaderSize : ℕ := 4096

/-- The in-memory header. -/
structure VecFileHeader where
  dimensions : ℕ
  metric : DistanceMetric
  m : ℕ
  efConstruction : ℕ
  entryPoint : Option ℕ
  nodeCount : ℕ
  maxLayer : ℕ
  nodeCapacity : ℕ
  freeListHead : Option ℕ
  freeListLen : ℕ
  graphDataLen : ℕ

/-! ## Where the regions are -/

def vectorRegionSize (nodeCapacity dims : ℕ) : ℕ := nodeCapacity * dims * 4

def nodeIndexOffset (nodeCapacity dims : ℕ) : ℕ := vecHeaderSize + vectorRegionSize nodeCapacity dims

def nodeIndexSize (nodeCapacity : ℕ) : ℕ := nodeCapacity * 8

def graphDataOffset (nodeCapacity dims : ℕ) : ℕ :=
  nodeIndexOffset nodeCapacity dims + nodeIndexSize nodeCapacity

/-- The size of the graph region: for each node a record with 16 upper layers. -/
def graphDataPreallocated (nodeCapacity m : ℕ) : ℕ :=
  (4 + (4 + 2 * m * 4) + 16 * (4 + m * 4)) * nodeCapacity

def deletedFlagsOffset (nodeCapacity dims m : ℕ) : ℕ :=
  graphDataOffset nodeCapacity dims + graphDataPreallocated nodeCapacity m

def totalFileSize (nodeCapacity dims m : ℕ) : ℕ :=
  deletedFlagsOffset nodeCapacity dims m + nodeCapacity

/-- The neighbors a list has room for. -/
def layerCapacity (layer m : ℕ) : ℕ := if layer = 0 then 2 * m else m

def layerEntrySize (layer m : ℕ) : ℕ := 4 + layerCapacity layer m * 4

/-- Where the list of a layer starts in a record. -/
def layerOffsetInRecord (layer m : ℕ) : ℕ :=
  (List.range layer).foldl (fun off l => off + layerEntrySize l m) 4

def graphRecordSize (maxLayer m : ℕ) : ℕ :=
  (List.range (maxLayer + 1)).foldl (fun size l => size + layerEntrySize l m) 4

/-! ## The file -/

structure VecFile where
  mem : Memory
  header : VecFileHeader

namespace VecFile

variable (f : VecFile)

/-- `read_u32_at`. -/
def readU32At (off : ℕ) : Result ℕ :=
  if off + 4 ≤ f.mem.size then .ok (f.mem.word off 4) else panic

/-- `read_u64_at`. -/
def readU64At (off : ℕ) : Result ℕ :=
  if off + 8 ≤ f.mem.size then .ok (f.mem.word off 8) else panic

/-- `mmap[off..off + src.len()].copy_from_slice(src)`. -/
def store (off : ℕ) (src : List UInt8) : Result VecFile :=
  if off + src.length ≤ f.mem.size then .ok { f with mem := f.mem.write off src } else panic

/-- The header as `flush` writes it, from the dimensions on. -/
def headerBytes : List UInt8 :=
  let h := f.header
  leBytes 4 h.dimensions ++ [h.metric.toTag] ++ leBytes 4 h.m ++ leBytes 4 h.efConstruction ++
    leBytes 4 (h.entryPoint.getD noneU32) ++ leBytes 4 h.nodeCount ++ leBytes 4 h.maxLayer ++
    leBytes 4 h.nodeCapacity ++ leBytes 4 (h.freeListHead.getD noneU32) ++
    leBytes 4 h.freeListLen ++ leBytes 8 h.graphDataLen

/-- `OFF_DIMENSIONS`. -/
def offDimensions : ℕ := 8

def flush : Result VecFile := f.store offDimensions f.headerBytes

/-- `MAGIC` and `VERSION`. -/
def magicBytes : List UInt8 := [66, 86, 69, 67] ++ leBytes 4 1

/-- `VecFile::create`. -/
def create (dimensions : ℕ) (metric : DistanceMetric) (m efConstruction initialCapacity : ℕ) :
    VecFile :=
  let header : VecFileHeader :=
    ⟨dimensions, metric, m, efConstruction, none, 0, 0, initialCapacity, none, 0, 0⟩
  let zeroed : Memory := ⟨totalFileSize initialCapacity dimensions m, fun _ => 0⟩
  let file : VecFile := ⟨zeroed.write 0 magicBytes, header⟩
  let mem := file.mem.write offDimensions file.headerBytes
  ⟨mem.fill (nodeIndexOffset initialCapacity dimensions) (nodeIndexSize initialCapacity) 0xFF,
    header⟩

/-- `u32` fields that may be the sentinel. -/
def optionU32 (raw : ℕ) : Option ℕ := if raw = noneU32 then none else some raw

/-- `VecFile::open` on a file that is not encrypted. -/
def «open» (mem : Memory) : Result VecFile :=
  if mem.size < 53 then panic
  else if mem.read 0 4 ≠ [66, 86, 69, 67] then fail (.corruption "vec file: bad magic")
  else if mem.word 4 4 ≠ 1 then
    fail (.corruption s!"vec file: unsupported version {mem.word 4 4}")
  else
    match DistanceMetric.fromTag (mem.byte 12) with
    | none => fail (.corruption s!"vec file: unknown metric tag {(mem.byte 12).toNat}")
    | some metric => .ok ⟨mem,
        { dimensions := mem.word 8 4
          metric
          m := mem.word 13 4
          efConstruction := mem.word 17 4
          entryPoint := optionU32 (mem.word 21 4)
          nodeCount := mem.word 25 4
          maxLayer := mem.word 29 4
          nodeCapacity := mem.word 33 4
          freeListHead := optionU32 (mem.word 37 4)
          freeListLen := mem.word 41 4
          graphDataLen := mem.word 45 8 }⟩

/-! ## Vectors and flags -/

/-- Where the vector of a node is. -/
def slotOffset (nodeId : ℕ) : ℕ := vecHeaderSize + nodeId * f.header.dimensions * 4

/-- A vector, as the bit patterns of its floats. -/
def readVector (nodeId : ℕ) : Result (List UInt32) :=
  if f.slotOffset nodeId + f.header.dimensions * 4 ≤ f.mem.size then
    .ok ((f.mem.words (f.slotOffset nodeId) f.header.dimensions).map UInt32.ofNat)
  else panic

def writeVector (nodeId : ℕ) (vector : List UInt32) : Result VecFile :=
  if vector.length ≠ f.header.dimensions then panic
  else f.store (f.slotOffset nodeId) (Memory.wordsBytes (vector.map UInt32.toNat))

def deletedFlagOffset (nodeId : ℕ) : ℕ :=
  deletedFlagsOffset f.header.nodeCapacity f.header.dimensions f.header.m + nodeId

def isDeleted (nodeId : ℕ) : Result Bool :=
  if f.deletedFlagOffset nodeId < f.mem.size then
    .ok (f.mem.byte (f.deletedFlagOffset nodeId) != 0)
  else panic

def setDeleted (nodeId : ℕ) (deleted : Bool) : Result VecFile :=
  f.store (f.deletedFlagOffset nodeId) [if deleted then 1 else 0]

/-! ## Graph records -/

def nodeIndexEntryOffset (nodeId : ℕ) : ℕ :=
  nodeIndexOffset f.header.nodeCapacity f.header.dimensions + nodeId * 8

def graphRecordOffset (nodeId : ℕ) : Result (Option ℕ) := do
  let val ← f.readU64At (f.nodeIndexEntryOffset nodeId)
  pure (if val = noneU64 then none else some val)

def setGraphRecordOffset (nodeId recordOff : ℕ) : Result VecFile :=
  f.store (f.nodeIndexEntryOffset nodeId) (leBytes 8 recordOff)

def graphRecordAbsOffset (recordOff : ℕ) : ℕ :=
  graphDataOffset f.header.nodeCapacity f.header.dimensions + recordOff

/-- The `max_layer` field of the record of a node. -/
def readNodeMaxLayer (nodeId : ℕ) : Result (Option ℕ) := do
  match ← f.graphRecordOffset nodeId with
  | none => pure none
  | some recordOff => do
      let maxLayer ← f.readU32At (f.graphRecordAbsOffset recordOff)
      pure (some maxLayer)

def readNeighbors (nodeId layer : ℕ) : Result (List ℕ) := do
  match ← f.graphRecordOffset nodeId with
  | none => pure []
  | some recordOff => do
      let absLayer := f.graphRecordAbsOffset recordOff + layerOffsetInRecord layer f.header.m
      let count ← f.readU32At absLayer
      let actual := min count (layerCapacity layer f.header.m)
      let slots ← (List.range actual).mapM fun i => f.readU32At (absLayer + 4 + i * 4)
      pure (slots.filter fun nb => nb != noneU32)

/-- The words of a list: its count, and as many neighbors as there is room for. -/
def neighborWords (layer m : ℕ) (neighbors : List ℕ) : List ℕ :=
  neighbors.length :: (List.range (layerCapacity layer m)).map fun i =>
    (neighbors[i]?).getD noneU32

def writeNeighbors (nodeId layer : ℕ) (neighbors : List ℕ) : Result VecFile := do
  match ← f.graphRecordOffset nodeId with
  | none => pure f
  | some recordOff =>
      let absLayer := f.graphRecordAbsOffset recordOff + layerOffsetInRecord layer f.header.m
      f.store absLayer (Memory.wordsBytes (neighborWords layer f.header.m neighbors))

/-- The words of a new record: its lists are empty. -/
def recordWords (maxLayer m : ℕ) : List ℕ :=
  maxLayer :: (List.range (maxLayer + 1)).flatMap fun l => neighborWords l m []

/-- Append a record for the node. -/
def allocateGraphRecord (nodeId maxLayer : ℕ) : Result VecFile := do
  let recordOff := f.header.graphDataLen
  let f ← f.store (f.graphRecordAbsOffset recordOff)
    (Memory.wordsBytes (recordWords maxLayer f.header.m))
  let f ← f.setGraphRecordOffset nodeId recordOff
  pure { f with header.graphDataLen := recordOff + graphRecordSize maxLayer f.header.m }

/-! ## Nodes -/

/-- `set_len` and a new mapping: new bytes are zero. -/
def setLen (size : ℕ) : VecFile :=
  { f with mem := ⟨size, fun a => if a < f.mem.size then f.mem.byte a else 0⟩ }

/-- `mmap[off..off + len].to_vec()`. -/
def copyOut (off len : ℕ) : Result (List UInt8) :=
  if off + len ≤ f.mem.size then .ok (f.mem.read off len) else panic

/-- `grow`: double the capacity and move what is behind the vectors. -/
def grow : Result VecFile := do
  let oldCap := f.header.nodeCapacity
  let dims := f.header.dimensions
  let m := f.header.m
  let newCap := oldCap * 2
  if 2 ^ 32 ≤ newCap then overflowed
  else
    let nodeIndexData ← f.copyOut (nodeIndexOffset oldCap dims) (nodeIndexSize oldCap)
    let graphData ← f.copyOut (graphDataOffset oldCap dims) f.header.graphDataLen
    let deletedData ← f.copyOut (deletedFlagsOffset oldCap dims m) oldCap
    let f := f.setLen (totalFileSize newCap dims m)
    let f : VecFile := { f with header.nodeCapacity := newCap }
    let f ← f.store (nodeIndexOffset newCap dims) nodeIndexData
    let f ← f.store (nodeIndexOffset newCap dims + oldCap * 8)
      (List.replicate ((newCap - oldCap) * 8) 0xFF)
    let f ← f.store (graphDataOffset newCap dims) graphData
    let f ← f.store (deletedFlagsOffset newCap dims m) deletedData
    let f ← f.store (deletedFlagsOffset newCap dims m + oldCap) (List.replicate (newCap - oldCap) 0)
    f.flush

/-- Grow if there is no room for one more node. -/
def makeRoom : Result VecFile :=
  if f.header.nodeCapacity ≤ f.header.nodeCount then f.grow else .ok f

/-- `allocate_node`: the node that was freed last, or a new one. -/
def allocateNode : Result (ℕ × VecFile) := do
  match f.header.freeListHead with
  | some head => do
      let nextRaw ← f.readU32At (f.slotOffset head)
      if f.header.freeListLen = 0 then overflowed
      else
        let f : VecFile := { f with
          header.freeListHead := optionU32 nextRaw
          header.freeListLen := f.header.freeListLen - 1 }
        let f ← f.setDeleted head false
        let f ← f.setGraphRecordOffset head noneU64
        pure (head, f)
  | none => do
      let f ← f.makeRoom
      let id := f.header.nodeCount
      if 2 ^ 32 ≤ id + 1 then overflowed
      else pure (id, { f with header.nodeCount := id + 1 })

/-- `free_node`: mark the node as deleted and put it in front of the free list. -/
def freeNode (nodeId : ℕ) : Result VecFile := do
  let oldHead := f.header.freeListHead.getD noneU32
  let f ← f.store (f.slotOffset nodeId) (leBytes 4 oldHead)
  let f ← f.setDeleted nodeId true
  if 2 ^ 32 ≤ f.header.freeListLen + 1 then overflowed
  else
    pure { f with
      header.freeListHead := some nodeId
      header.freeListLen := f.header.freeListLen + 1 }

end VecFile

end BoogyDb
