import BoogyDb.HnswGraph
import BoogyDb.VecFile

/-!
# What a vector file holds

`graph` is the layered graph that the bytes of a file hold.  `Layout` says where things
are: the records of the counted nodes lie behind one another in the graph region, and the
flags of the nodes that are not counted yet are clear.  Under it the reads of the file
succeed and give the parts of the graph.

A write is described by what it leaves alone: `SameRecord`, `vectorOf` and `deletedOf` of a
node follow from the bytes at its index entry, its record, its slot and its flag
(`SameRecord.of_moved` and its siblings).
-/

namespace BoogyDb

open Bytes Memory

/-! ## Sizes -/

section

variable {layer layer' maxLayer m : ℕ}

theorem layerOffset_zero (m : ℕ) : layerOffsetInRecord 0 m = 4 := rfl

theorem layerOffset_succ (layer m : ℕ) : layerOffsetInRecord (layer + 1) m =
    layerOffsetInRecord layer m + layerEntrySize layer m := by
  unfold layerOffsetInRecord
  rw [List.range_succ, List.foldl_append]
  rfl

theorem graphRecordSize_eq (maxLayer m : ℕ) :
    graphRecordSize maxLayer m = layerOffsetInRecord (maxLayer + 1) m := rfl

theorem layerOffset_mono (h : layer ≤ layer') :
    layerOffsetInRecord layer m ≤ layerOffsetInRecord layer' m := by
  induction layer', h using Nat.le_induction with
  | base => exact le_rfl
  | succ l _ ih =>
      rw [layerOffset_succ]
      omega

theorem four_le_layerOffset (layer m : ℕ) : 4 ≤ layerOffsetInRecord layer m :=
  layerOffset_mono (Nat.zero_le layer)

/-- The list of a layer lies before those of the layers above. -/
theorem layerEntry_le (h : layer < layer') : layerOffsetInRecord layer m + layerEntrySize layer m ≤
    layerOffsetInRecord layer' m := by
  rw [← layerOffset_succ]
  exact layerOffset_mono h

/-- The list of a layer of the node lies in its record. -/
theorem layerEntry_le_size (h : layer ≤ maxLayer) :
    layerOffsetInRecord layer m + layerEntrySize layer m ≤ graphRecordSize maxLayer m :=
  layerEntry_le (Nat.lt_succ_of_le h)

end

namespace VecFile

/-! ## What the bytes hold -/

/-- The index entry of a node. -/
def recordOf (f : VecFile) (n : ℕ) : ℕ := f.mem.word (f.nodeIndexEntryOffset n) 8

/-- Where the record of a node starts in the file. -/
def recordStart (f : VecFile) (n : ℕ) : ℕ := f.graphRecordAbsOffset (f.recordOf n)

/-- The `max_layer` field of a node's record. -/
def levelOf (f : VecFile) (n : ℕ) : ℕ := f.mem.word (f.recordStart n) 4

/-- Where the list of a node on a layer starts in the file. -/
def listStart (f : VecFile) (n layer : ℕ) : ℕ :=
  f.recordStart n + layerOffsetInRecord layer f.header.m

/-- The list of a node on a layer. -/
def listOf (f : VecFile) (n layer : ℕ) : List ℕ :=
  (f.mem.words (f.listStart n layer + 4)
    (min (f.mem.word (f.listStart n layer) 4) (layerCapacity layer f.header.m))).filter
      fun nb => nb != noneU32

def vectorOf (f : VecFile) (n : ℕ) : List UInt32 :=
  (f.mem.words (f.slotOffset n) f.header.dimensions).map UInt32.ofNat

def deletedOf (f : VecFile) (n : ℕ) : Bool := f.mem.byte (f.deletedFlagOffset n) != 0

/-- The graph that the file holds. -/
def graph (f : VecFile) : LayeredGraph where
  size := f.header.nodeCount
  level := f.levelOf
  vector := f.vectorOf
  deleted := f.deletedOf
  neighbors := f.listOf

/-! ## Where things are -/

variable {f f' : VecFile} {n n' layer : ℕ}

/-- The start of the node index. -/
def indexStart (f : VecFile) : ℕ := nodeIndexOffset f.header.nodeCapacity f.header.dimensions

/-- The start of the graph region. -/
def graphStart (f : VecFile) : ℕ := graphDataOffset f.header.nodeCapacity f.header.dimensions

/-- The start of the deleted flags. -/
def flagsStart (f : VecFile) : ℕ :=
  deletedFlagsOffset f.header.nodeCapacity f.header.dimensions f.header.m

theorem graphStart_eq (f : VecFile) : f.graphStart = f.indexStart + f.header.nodeCapacity * 8 := rfl

theorem flagsStart_eq (f : VecFile) : f.flagsStart =
    f.graphStart + graphDataPreallocated f.header.nodeCapacity f.header.m := rfl

theorem nodeIndexEntryOffset_eq (f : VecFile) (n : ℕ) :
    f.nodeIndexEntryOffset n = f.indexStart + n * 8 := rfl

theorem deletedFlagOffset_eq (f : VecFile) (n : ℕ) :
    f.deletedFlagOffset n = f.flagsStart + n := rfl

theorem recordStart_eq (f : VecFile) (n : ℕ) : f.recordStart n = f.graphStart + f.recordOf n := rfl

theorem vecHeaderSize_le_slot (f : VecFile) (n : ℕ) : vecHeaderSize ≤ f.slotOffset n :=
  Nat.le_add_right _ _

theorem slot_le (h : n < f.header.nodeCapacity) :
    f.slotOffset n + f.header.dimensions * 4 ≤ f.indexStart := by
  have hmul : (n + 1) * (f.header.dimensions * 4) ≤
      f.header.nodeCapacity * (f.header.dimensions * 4) := Nat.mul_le_mul_right _ h
  rw [← Nat.mul_assoc, ← Nat.mul_assoc, Nat.add_mul, Nat.one_mul, Nat.add_mul] at hmul
  unfold slotOffset indexStart nodeIndexOffset vectorRegionSize
  omega

theorem slots_apart (h : n < n') :
    f.slotOffset n + f.header.dimensions * 4 ≤ f.slotOffset n' := by
  have hmul : (n + 1) * (f.header.dimensions * 4) ≤ n' * (f.header.dimensions * 4) :=
    Nat.mul_le_mul_right _ h
  rw [← Nat.mul_assoc, ← Nat.mul_assoc, Nat.add_mul, Nat.one_mul, Nat.add_mul] at hmul
  unfold slotOffset
  omega

/-- The size of the record of a node. -/
def recordSize (f : VecFile) (n : ℕ) : ℕ := graphRecordSize (f.levelOf n) f.header.m

/-- The sizes of a file, and that its regions have room. -/
structure Shape (f : VecFile) : Prop where
  dims_pos : 0 < f.header.dimensions
  m_pos : 0 < f.header.m
  m_le : f.header.m ≤ 128
  cap_pos : 0 < f.header.nodeCapacity
  cap_lt : f.header.nodeCapacity < 2 ^ 32
  count_le : f.header.nodeCount ≤ f.header.nodeCapacity
  size : f.mem.size = f.flagsStart + f.header.nodeCapacity
  graph_le : f.header.graphDataLen ≤ graphDataPreallocated f.header.nodeCapacity f.header.m

/-- The records of some nodes lie behind one another. -/
structure Records (f : VecFile) (nodes : ℕ → Prop) : Prop where
  record {n : ℕ} (h : nodes n) : f.recordOf n + f.recordSize n ≤ f.header.graphDataLen
  apart {n n' : ℕ} (h : nodes n) (h' : nodes n') (hne : n ≠ n') :
    f.recordOf n + f.recordSize n ≤ f.recordOf n' ∨ f.recordOf n' + f.recordSize n' ≤ f.recordOf n

/-- Where the parts of a file are. -/
structure Layout (f : VecFile) : Prop where
  shape : Shape f
  records : Records f fun n => n < f.header.nodeCount
  fresh {n : ℕ} (h : f.header.nodeCount ≤ n) (h' : n < f.header.nodeCapacity) :
    f.deletedOf n = false

/-- The graph region is far below the sentinel. -/
theorem preallocated_lt {cap m : ℕ} (hcap : cap < 2 ^ 32) (hm : m ≤ 128) :
    graphDataPreallocated cap m < 2 ^ 48 := by
  have hper : 4 + (4 + 2 * m * 4) + 16 * (4 + m * 4) ≤ 2 ^ 14 := by omega
  have hmul := Nat.mul_le_mul hper hcap.le
  unfold graphDataPreallocated
  omega

namespace Shape

theorem readVector (h : Shape f) (hn : n < f.header.nodeCapacity) :
    f.readVector n = .ok (f.vectorOf n) := by
  have hslot := slot_le hn
  have hsize := h.size
  unfold VecFile.readVector
  rw [if_pos]
  · rfl
  · rw [hsize, flagsStart_eq, graphStart_eq]
    omega

theorem isDeleted (h : Shape f) (hn : n < f.header.nodeCapacity) :
    f.isDeleted n = .ok (f.deletedOf n) := by
  unfold VecFile.isDeleted
  rw [if_pos]
  · rfl
  · rw [h.size, deletedFlagOffset_eq]
    omega

theorem index_le (hn : n < f.header.nodeCapacity) :
    f.nodeIndexEntryOffset n + 8 ≤ f.graphStart := by
  rw [graphStart_eq, nodeIndexEntryOffset_eq]
  omega

theorem graph_end_le (h : Shape f) : f.graphStart + f.header.graphDataLen ≤ f.flagsStart := by
  have hgraph := h.graph_le
  rw [flagsStart_eq]
  omega

theorem flags_le (h : Shape f) : f.flagsStart ≤ f.mem.size := by
  rw [h.size]
  omega

theorem graph_le_flags (f : VecFile) : f.graphStart ≤ f.flagsStart := by
  rw [flagsStart_eq]
  omega

theorem index_le_graph (f : VecFile) : f.indexStart ≤ f.graphStart := by
  rw [graphStart_eq]
  omega

theorem recordOf_lt (h : Shape f) (hrecord : f.recordOf n ≤ f.header.graphDataLen) :
    f.recordOf n < noneU64 := by
  have hgraph := h.graph_le
  have hlt := preallocated_lt h.cap_lt h.m_le
  unfold noneU64
  omega

theorem graphRecordOffset (h : Shape f) (hn : n < f.header.nodeCapacity)
    (hrecord : f.recordOf n ≤ f.header.graphDataLen) :
    f.graphRecordOffset n = .ok (some (f.recordOf n)) := by
  have hin := index_le hn
  have hgraph := graph_le_flags f
  have hflags := h.flags_le
  unfold VecFile.graphRecordOffset readU64At
  rw [if_pos (by omega), ok_bind]
  exact congrArg Except.ok (if_neg (h.recordOf_lt hrecord).ne)

end Shape

namespace Layout

theorem lt_cap (h : Layout f) (hn : n < f.header.nodeCount) : n < f.header.nodeCapacity :=
  hn.trans_le h.shape.count_le

theorem record_le (h : Layout f) (hn : n < f.header.nodeCount) :
    f.recordStart n + f.recordSize n ≤ f.graphStart + f.header.graphDataLen := by
  have hrecord := h.records.record hn
  rw [recordStart_eq]
  omega

theorem graphRecordOffset (h : Layout f) (hn : n < f.header.nodeCount) :
    f.graphRecordOffset n = .ok (some (f.recordOf n)) := by
  have hrecord := h.records.record hn
  exact h.shape.graphRecordOffset (h.lt_cap hn) (by omega)

/-- The list of a node on one of its layers lies in the node's record. -/
theorem list_le (hlayer : layer ≤ f.levelOf n) :
    f.listStart n layer + layerEntrySize layer f.header.m ≤ f.recordStart n + f.recordSize n := by
  have hentry := @layerEntry_le_size _ _ f.header.m hlayer
  unfold listStart recordSize
  omega

theorem readNeighbors (h : Layout f) (hn : n < f.header.nodeCount) (hlayer : layer ≤ f.levelOf n) :
    f.readNeighbors n layer = .ok (f.listOf n layer) := by
  have hlist := list_le hlayer
  have hrecord := h.record_le hn
  have hend := h.shape.graph_end_le
  have hflags := h.shape.flags_le
  unfold layerEntrySize at hlist
  unfold VecFile.readNeighbors
  rw [h.graphRecordOffset hn, ok_bind]
  dsimp only
  have hcount : f.readU32At (f.listStart n layer) = .ok (f.mem.word (f.listStart n layer) 4) :=
    if_pos (by omega)
  change (do
    let count ← f.readU32At (f.listStart n layer)
    let slots ← (List.range (min count (layerCapacity layer f.header.m))).mapM fun i =>
      f.readU32At (f.listStart n layer + 4 + i * 4)
    pure (slots.filter fun nb => nb != noneU32)) = _
  rw [hcount, ok_bind]
  have hslots : (List.range (min (f.mem.word (f.listStart n layer) 4)
      (layerCapacity layer f.header.m))).mapM (fun i =>
        f.readU32At (f.listStart n layer + 4 + i * 4)) =
      .ok (f.mem.words (f.listStart n layer + 4) (min (f.mem.word (f.listStart n layer) 4)
        (layerCapacity layer f.header.m))) := by
    refine Except.mapM_eq_ok_iff.mpr ?_
    unfold words
    rw [List.forall₂_map_right_iff, List.forall₂_same]
    intro i hi
    have hlt := List.mem_range.mp hi
    exact if_pos (by omega)
  rw [hslots, ok_bind]
  rfl

end Layout

/-! ## What stays the same -/

/-- The regions are in the same places. -/
structure SameShape (f f' : VecFile) : Prop where
  dimensions : f'.header.dimensions = f.header.dimensions
  m : f'.header.m = f.header.m
  nodeCapacity : f'.header.nodeCapacity = f.header.nodeCapacity

namespace SameShape

theorem of_header (h : f'.header = f.header) : SameShape f f' :=
  ⟨by rw [h], by rw [h], by rw [h]⟩

theorem slotOffset (h : SameShape f f') (n : ℕ) : f'.slotOffset n = f.slotOffset n := by
  unfold VecFile.slotOffset
  rw [h.dimensions]

theorem indexStart (h : SameShape f f') : f'.indexStart = f.indexStart := by
  unfold VecFile.indexStart
  rw [h.dimensions, h.nodeCapacity]

theorem graphStart (h : SameShape f f') : f'.graphStart = f.graphStart := by
  rw [graphStart_eq, graphStart_eq, h.indexStart, h.nodeCapacity]

theorem flagsStart (h : SameShape f f') : f'.flagsStart = f.flagsStart := by
  rw [flagsStart_eq, flagsStart_eq, h.graphStart, h.nodeCapacity, h.m]

end SameShape

/-- The node has the same record, with the same lists. -/
structure SameRecord (f f' : VecFile) (n : ℕ) : Prop where
  record : f'.recordOf n = f.recordOf n
  level : f'.levelOf n = f.levelOf n
  list : ∀ layer ≤ f.levelOf n, f'.listOf n layer = f.listOf n layer

theorem SameRecord.refl (f : VecFile) (n : ℕ) : SameRecord f f n := ⟨rfl, rfl, fun _ _ => rfl⟩

theorem SameRecord.trans {f'' : VecFile} (h : SameRecord f f' n) (h' : SameRecord f' f'' n) :
    SameRecord f f'' n where
  record := h'.record.trans h.record
  level := h'.level.trans h.level
  list layer hlayer := (h'.list layer (h.level ▸ hlayer)).trans (h.list layer hlayer)

/-- A record that was moved. -/
theorem SameRecord.of_moved (hm : f'.header.m = f.header.m)
    (hrecord : f'.recordOf n = f.recordOf n)
    (hmoved : Moved f.mem (f.recordStart n) f'.mem (f'.recordStart n) (f.recordSize n)) :
    SameRecord f f' n := by
  have hfour : 4 ≤ f.recordSize n := four_le_layerOffset (f.levelOf n + 1) f.header.m
  refine ⟨hrecord, (hmoved.head hfour).word, fun layer hlayer => ?_⟩
  have hentry := @layerEntry_le_size _ _ f.header.m hlayer
  have hlist : Moved f.mem (f.listStart n layer) f'.mem (f'.listStart n layer)
      (4 + layerCapacity layer f.header.m * 4) := by
    unfold listStart
    rw [hm]
    exact hmoved.part hentry
  have hcount : f'.mem.word (f'.listStart n layer) 4 = f.mem.word (f.listStart n layer) 4 :=
    (hlist.head (Nat.le_add_right _ _)).word
  have hslots : Moved f.mem (f.listStart n layer + 4) f'.mem (f'.listStart n layer + 4)
      (min (f.mem.word (f.listStart n layer) 4) (layerCapacity layer f.header.m) * 4) :=
    hlist.part (by omega)
  unfold listOf
  rw [hcount, hm, hslots.words]

theorem SameRecord.recordSize (h : SameRecord f f' n) (hm : f'.header.m = f.header.m) :
    f'.recordSize n = f.recordSize n := by
  unfold VecFile.recordSize
  rw [h.level, hm]

/-- The same nodes, with the same lists. -/
structure SameRecords (f f' : VecFile) : Prop where
  count : f'.header.nodeCount = f.header.nodeCount
  record : ∀ n < f.header.nodeCount, SameRecord f f' n

namespace SameRecords

theorem on (h : SameRecords f f') : f'.graph.On layer n ↔ f.graph.On layer n := by
  change n < f'.header.nodeCount ∧ layer ≤ f'.levelOf n ↔ n < f.header.nodeCount ∧ _
  rw [h.count]
  exact and_congr_right fun hn => by rw [(h.record n hn).level]; rfl

theorem list (h : SameRecords f f') (hon : f.graph.On layer n) : f'.listOf n layer = f.listOf n layer :=
  (h.record n hon.1).list layer hon.2

theorem layered (h : SameRecords f f') (hlayered : f.graph.Layered) : f'.graph.Layered := by
  intro l n hn x hx
  rw [h.on] at hn ⊢
  have hx : x ∈ f'.listOf n l := hx
  rw [h.list hn] at hx
  exact hlayered l n hn x hx

end SameRecords

theorem vectorOf_congr (h : SameShape f f')
    (hagree : Agree f.mem f'.mem (f.slotOffset n) (f.slotOffset n + f.header.dimensions * 4)) :
    f'.vectorOf n = f.vectorOf n := by
  unfold vectorOf
  rw [h.slotOffset, h.dimensions, (hagree.moved le_rfl le_rfl).words]

theorem deletedOf_congr (h : SameShape f f')
    (hagree : Agree f.mem f'.mem (f.deletedFlagOffset n) (f.deletedFlagOffset n + 1)) :
    f'.deletedOf n = f.deletedOf n := by
  unfold deletedOf
  rw [deletedFlagOffset_eq, h.flagsStart]
  exact congrArg (fun b => b != 0) (hagree _ le_rfl (Nat.lt_succ_self _))

/-- Only bytes from `start` up to `stop` may have changed. -/
structure WritesIn (f f' : VecFile) (start stop : ℕ) : Prop where
  header : f'.header = f.header
  size : f'.mem.size = f.mem.size
  agree : ∀ a b, b ≤ start ∨ stop ≤ a → Agree f.mem f'.mem a b

/-- A store in range. -/
theorem store_ok {off : ℕ} {src : List UInt8} (h : off + src.length ≤ f.mem.size) :
    f.store off src = .ok { f with mem := f.mem.write off src } ∧
      WritesIn f { f with mem := f.mem.write off src } off (off + src.length) :=
  ⟨if_pos h, rfl, rfl, fun _ _ hab => agree_write hab⟩

namespace WritesIn

variable {start stop : ℕ}

theorem shape (h : WritesIn f f' start stop) : SameShape f f' := .of_header h.header

theorem vectorOf (h : WritesIn f f' start stop)
    (hapart : f.slotOffset n + f.header.dimensions * 4 ≤ start ∨ stop ≤ f.slotOffset n) :
    f'.vectorOf n = f.vectorOf n := vectorOf_congr h.shape (h.agree _ _ hapart)

theorem deletedOf (h : WritesIn f f' start stop)
    (hapart : f.deletedFlagOffset n + 1 ≤ start ∨ stop ≤ f.deletedFlagOffset n) :
    f'.deletedOf n = f.deletedOf n := deletedOf_congr h.shape (h.agree _ _ hapart)

theorem recordOf (h : WritesIn f f' start stop)
    (hapart : f.nodeIndexEntryOffset n + 8 ≤ start ∨ stop ≤ f.nodeIndexEntryOffset n) :
    f'.recordOf n = f.recordOf n := by
  unfold VecFile.recordOf
  rw [nodeIndexEntryOffset_eq, h.shape.indexStart]
  exact ((h.agree _ _ hapart).moved le_rfl le_rfl).word

theorem sameRecord (h : WritesIn f f' start stop)
    (hindex : f.nodeIndexEntryOffset n + 8 ≤ start ∨ stop ≤ f.nodeIndexEntryOffset n)
    (hrecord : f.recordStart n + f.recordSize n ≤ start ∨ stop ≤ f.recordStart n) :
    SameRecord f f' n := by
  have hoff := h.recordOf hindex
  refine .of_moved h.shape.m hoff ?_
  have hstart : f'.recordStart n = f.recordStart n := by
    rw [recordStart_eq, recordStart_eq, hoff, h.shape.graphStart]
  rw [hstart]
  exact (h.agree _ _ hrecord).moved le_rfl le_rfl

end WritesIn

theorem Shape.of_writes {start stop : ℕ} (hf : Shape f) (h : WritesIn f f' start stop) :
    Shape f' where
  dims_pos := h.header ▸ hf.dims_pos
  m_pos := h.header ▸ hf.m_pos
  m_le := h.header ▸ hf.m_le
  cap_pos := h.header ▸ hf.cap_pos
  cap_lt := h.header ▸ hf.cap_lt
  count_le := h.header ▸ hf.count_le
  size := by rw [h.size, hf.size, h.shape.flagsStart, h.header]
  graph_le := h.header ▸ hf.graph_le

theorem Records.congr {nodes : ℕ → Prop} (hf : Records f nodes) (hm : f'.header.m = f.header.m)
    (hlen : f.header.graphDataLen ≤ f'.header.graphDataLen)
    (hsame : ∀ n, nodes n → SameRecord f f' n) : Records f' nodes where
  record {n} hn := by
    rw [(hsame n hn).record, (hsame n hn).recordSize hm]
    exact (hf.record hn).trans hlen
  apart {n n'} hn hn' hne := by
    rw [(hsame n hn).record, (hsame n hn).recordSize hm, (hsame n' hn').record,
      (hsame n' hn').recordSize hm]
    exact hf.apart hn hn' hne

end VecFile

end BoogyDb

