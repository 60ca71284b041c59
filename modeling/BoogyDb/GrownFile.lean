import BoogyDb.VecFileNodes

/-!
# A file that has grown

`grow` moves the node index, the graph data and the deleted flags to where the doubled capacity
puts them (`MovesRegions`).  So every read of an old node returns what it did before; the list of
a node is kept when it lies in the graph data, whatever the `max_layer` field of the record says.
The new nodes have no record and are not deleted (`Mapped.grow_keeps`).
-/

namespace BoogyDb

open Bytes Memory

namespace VecFile

variable {f f' : VecFile} {n layer : ℕ}

/-- The file is as long as its header says, and a slot has room for the link of a freed node. -/
structure Mapped (f : VecFile) : Prop where
  size : f.mem.size = f.flagsStart + f.header.nodeCapacity
  dims_pos : 0 < f.header.dimensions

/-- The list of a node on a layer lies in the graph data, if the node has a record. -/
def ListInData (f : VecFile) (n layer : ℕ) : Prop :=
  ∀ r, f.graphRecordOffset n = .ok (some r) →
    r + layerOffsetInRecord layer f.header.m + layerEntrySize layer f.header.m ≤
      f.header.graphDataLen

/-- What growing keeps. -/
structure KeepsContents (f f' : VecFile) : Prop where
  header : f'.header = { f.header with nodeCapacity := f.header.nodeCapacity * 2 }
  mapped : Mapped f'
  vectors : ∀ n < f.header.nodeCapacity, f'.readVector n = f.readVector n
  deleted : ∀ n < f.header.nodeCapacity, f'.isDeleted n = f.isDeleted n
  records : ∀ n < f.header.nodeCapacity, f'.graphRecordOffset n = f.graphRecordOffset n
  data : ∀ i < f.header.graphDataLen, f'.mem.byte (f'.graphRecordAbsOffset i) =
    f.mem.byte (f.graphRecordAbsOffset i)
  levels : ∀ n < f.header.nodeCapacity, f.ListInData n 0 →
    f'.readNodeMaxLayer n = f.readNodeMaxLayer n
  lists : ∀ n < f.header.nodeCapacity, ∀ layer, f.ListInData n layer →
    f'.readNeighbors n layer = f.readNeighbors n layer
  layers : ∀ n < f.header.nodeCapacity, f.recordOf n + f.recordSize n ≤ f.header.graphDataLen →
    ∀ layer ≤ f.levelOf n, f'.readNeighbors n layer = f.readNeighbors n layer
  chain : ∀ free : List ℕ, (∀ n ∈ free, n < f.header.nodeCapacity) →
    (Chain f' f'.header.freeListHead free ↔ Chain f f.header.freeListHead free)
  fresh : ∀ n, f.header.nodeCapacity ≤ n → n < f'.header.nodeCapacity →
    f'.graphRecordOffset n = .ok none ∧ f'.isDeleted n = .ok false

namespace Mapped

theorem readVector (h : Mapped f) (hn : n < f.header.nodeCapacity) :
    f.readVector n = .ok (f.vectorOf n) := by
  have hslot := slot_le hn
  have hsize := h.size
  unfold VecFile.readVector
  rw [if_pos]
  · rfl
  · rw [hsize, flagsStart_eq, graphStart_eq]
    omega

theorem isDeleted (h : Mapped f) (hn : n < f.header.nodeCapacity) :
    f.isDeleted n = .ok (f.deletedOf n) := by
  unfold VecFile.isDeleted
  rw [if_pos]
  · rfl
  · rw [h.size, deletedFlagOffset_eq]
    omega

theorem graphRecordOffset (h : Mapped f) (hn : n < f.header.nodeCapacity) :
    f.graphRecordOffset n = .ok (if f.recordOf n = noneU64 then none else some (f.recordOf n)) := by
  have hin := Shape.index_le hn
  have hgraph := Shape.graph_le_flags f
  have hsize := h.size
  unfold VecFile.graphRecordOffset readU64At
  rw [if_pos (by omega)]
  rfl

/-- A number in the graph data. -/
theorem readU32At {a : ℕ} (h : Mapped f) (hgraph : f.graphStart + f.header.graphDataLen ≤ f.flagsStart)
    (ha : a + 4 ≤ f.header.graphDataLen) :
    f.readU32At (f.graphStart + a) = .ok (f.mem.word (f.graphStart + a) 4) := by
  have hsize := h.size
  unfold VecFile.readU32At
  exact if_pos (by omega)

end Mapped

/-- A record in the graph data has the lists of all its layers there. -/
theorem Mapped.listInData (h : Mapped f) (hn : n < f.header.nodeCapacity)
    (hrecord : f.recordOf n + f.recordSize n ≤ f.header.graphDataLen)
    (hlayer : layer ≤ f.levelOf n) : f.ListInData n layer := by
  intro r hr
  have hentry := @layerEntry_le_size _ _ f.header.m hlayer
  rw [h.graphRecordOffset hn] at hr
  obtain rfl : f.recordOf n = r := by
    split at hr
    · cases hr
    · exact Option.some.inj (Except.ok.inj hr)
  unfold recordSize at hrecord
  omega

section

variable (h : MovesRegions f f') (hf : Mapped f)
  (hgraphLe : f.header.graphDataLen ≤ graphDataPreallocated f.header.nodeCapacity f.header.m)

include h hf

theorem MovesRegions.mapped : Mapped f' := ⟨h.size, h.header ▸ hf.dims_pos⟩

theorem MovesRegions.graphRecordOffset (hn : n < f.header.nodeCapacity) :
    f'.graphRecordOffset n = f.graphRecordOffset n := by
  have hn' : n < f'.header.nodeCapacity := by
    rw [h.header]
    dsimp only
    omega
  rw [(h.mapped hf).graphRecordOffset hn', hf.graphRecordOffset hn, h.recordOf hn]

include hgraphLe

/-- The numbers in the graph data are read as before. -/
theorem MovesRegions.readU32At {a : ℕ} (ha : a + 4 ≤ f.header.graphDataLen) :
    f'.readU32At (f'.graphStart + a) = f.readU32At (f.graphStart + a) := by
  have hcap : f'.header.nodeCapacity = f.header.nodeCapacity * 2 := by rw [h.header]
  have hm : f'.header.m = f.header.m := by rw [h.header]
  have hlen : f'.header.graphDataLen = f.header.graphDataLen := by rw [h.header]
  have hpre : graphDataPreallocated f.header.nodeCapacity f.header.m ≤
      graphDataPreallocated (f.header.nodeCapacity * 2) f.header.m :=
    Nat.mul_le_mul_left _ (Nat.le_mul_of_pos_right _ (by decide))
  have hend : f.graphStart + f.header.graphDataLen ≤ f.flagsStart := by
    rw [flagsStart_eq]
    omega
  have hend' : f'.graphStart + f'.header.graphDataLen ≤ f'.flagsStart := by
    rw [flagsStart_eq, hcap, hm, hlen]
    omega
  rw [(h.mapped hf).readU32At hend' (by rw [hlen]; exact ha), hf.readU32At hend ha]
  exact congrArg Except.ok (h.graph.part ha).word

/-- The level of a node is read as before if its record starts in the graph data. -/
theorem MovesRegions.readNodeMaxLayer (hn : n < f.header.nodeCapacity) (hin : f.ListInData n 0) :
    f'.readNodeMaxLayer n = f.readNodeMaxLayer n := by
  unfold VecFile.readNodeMaxLayer
  rw [h.graphRecordOffset hf hn]
  cases hrecord : f.graphRecordOffset n with
  | error e => rfl
  | ok record =>
      cases record with
      | none => rfl
      | some r =>
          have hle := hin r hrecord
          rw [layerOffset_zero] at hle
          have hlevel : f'.readU32At (f'.graphRecordAbsOffset r) =
              f.readU32At (f.graphRecordAbsOffset r) := h.readU32At hf hgraphLe (by omega)
          rw [ok_bind, ok_bind]
          dsimp only
          rw [hlevel]

/-- The list of a node is read as before if it lies in the graph data. -/
theorem MovesRegions.readNeighbors (hn : n < f.header.nodeCapacity)
    (hin : f.ListInData n layer) : f'.readNeighbors n layer = f.readNeighbors n layer := by
  have hm : f'.header.m = f.header.m := by rw [h.header]
  unfold VecFile.readNeighbors
  rw [h.graphRecordOffset hf hn]
  cases hrecord : f.graphRecordOffset n with
  | error e => rfl
  | ok record =>
      cases record with
      | none => rfl
      | some r =>
          have hle := hin r hrecord
          unfold layerEntrySize at hle
          rw [ok_bind, ok_bind]
          dsimp only
          rw [hm]
          set off := layerOffsetInRecord layer f.header.m with hoff
          have hcount : f'.readU32At (f'.graphRecordAbsOffset r + off) =
              f.readU32At (f.graphRecordAbsOffset r + off) := by
            have hadd := @MovesRegions.readU32At _ _ h hf hgraphLe (r + off) (by omega)
            rwa [← Nat.add_assoc, ← Nat.add_assoc] at hadd
          rw [hcount]
          cases f.readU32At (f.graphRecordAbsOffset r + off) with
          | error e => rfl
          | ok count =>
              rw [ok_bind, ok_bind]
              congr 1
              -- the slots that are read lie in the list
              refine Except.mapM_congr fun i hi => ?_
              have hi := List.mem_range.mp hi
              have hadd := @MovesRegions.readU32At _ _ h hf hgraphLe (r + off + 4 + i * 4) (by omega)
              rwa [← Nat.add_assoc, ← Nat.add_assoc, ← Nat.add_assoc, ← Nat.add_assoc,
                ← Nat.add_assoc, ← Nat.add_assoc] at hadd

end

/-- **Growing keeps the contents of the file.** -/
theorem Mapped.grow_keeps (hf : Mapped f)
    (hgraphLe : f.header.graphDataLen ≤
      graphDataPreallocated f.header.nodeCapacity f.header.m)
    (hcap : f.header.nodeCapacity < 2 ^ 31) :
    ∃ f', f.grow = .ok f' ∧ KeepsContents f f' := by
  obtain ⟨f', hrun, h⟩ := grow_moves hf.size hgraphLe (by omega)
  have hcap' : f'.header.nodeCapacity = f.header.nodeCapacity * 2 := by rw [h.header]
  have hhead : f'.header.freeListHead = f.header.freeListHead := by rw [h.header]
  have hf' := h.mapped hf
  have hlt : ∀ {n}, n < f.header.nodeCapacity → n < f'.header.nodeCapacity := fun hn => by omega
  refine ⟨f', hrun, h.header, hf', fun n hn => ?_, fun n hn => ?_,
    fun n hn => h.graphRecordOffset hf hn, fun i hi => h.graph i hi,
    fun n hn hin => h.readNodeMaxLayer hf hgraphLe hn hin,
    fun n hn layer hin => h.readNeighbors hf hgraphLe hn hin,
    fun n hn hrecord layer hlayer => h.readNeighbors hf hgraphLe hn (hf.listInData hn hrecord hlayer),
    fun free hfree => ?_, fun n hle hlt => ?_⟩
  · rw [hf'.readVector (hlt hn), hf.readVector hn, h.vectorOf hn]
  · rw [hf'.isDeleted (hlt hn), hf.isDeleted hn, h.deletedOf hn]
  · rw [hhead]
    have hlink : ∀ n ∈ free, f'.linkOf n = f.linkOf n := fun n hn =>
      h.linkOf (hfree n hn) hf.dims_pos
    exact ⟨fun hchain => hchain.congr fun n hn => (hlink n hn).symm, fun hchain => hchain.congr hlink⟩
  · have hlt₂ : n < f.header.nodeCapacity * 2 := hcap' ▸ hlt
    rw [hf'.graphRecordOffset hlt, if_pos (h.noRecord n hle hlt₂), hf'.isDeleted hlt]
    refine ⟨rfl, congrArg Except.ok ?_⟩
    unfold deletedOf
    rw [deletedFlagOffset_eq, h.clear n hle hlt₂]
    rfl

/-- A full file: two nodes that are linked with each other, and two that are freed. -/
def linkedPair : Result VecFile := do
  let (first, f) ← (create 1 .euclidean 2 10 4).allocateNode
  let f ← f.writeVector first [5]
  let f ← f.allocateGraphRecord first 1
  let (second, f) ← f.allocateNode
  let f ← f.writeVector second [7]
  let f ← f.allocateGraphRecord second 0
  let f ← f.writeNeighbors first 0 [second]
  let f ← f.writeNeighbors second 0 [first]
  let (third, f) ← f.allocateNode
  let (fourth, f) ← f.allocateNode
  let f ← f.freeNode third
  f.freeNode fourth

/-- The vectors, the lists and the free list are there after the file has grown. -/
theorem Mapped.grow_keeps_linkedPair : ∃ f f', linkedPair = .ok f ∧ f.grow = .ok f' ∧
    KeepsContents f f' ∧
    f'.readVector 1 = .ok [7] ∧ f'.readNeighbors 0 0 = .ok [1] ∧ f'.readNeighbors 1 0 = .ok [0] ∧
    f'.readNodeMaxLayer 0 = .ok (some 1) ∧ f'.isDeleted 0 = .ok false ∧ f'.isDeleted 3 = .ok true ∧
    Chain f' f'.header.freeListHead [3, 2] := by
  have heval : linkedPair.toOption.any (fun f =>
      f.mem.size = f.flagsStart + f.header.nodeCapacity ∧ 0 < f.header.dimensions ∧
      f.header.graphDataLen ≤ graphDataPreallocated f.header.nodeCapacity f.header.m ∧
      f.header.nodeCapacity = 4 ∧
      f.readVector 1 = .ok [7] ∧ f.readNeighbors 0 0 = .ok [1] ∧ f.readNeighbors 1 0 = .ok [0] ∧
      f.readNodeMaxLayer 0 = .ok (some 1) ∧ f.isDeleted 0 = .ok false ∧ f.isDeleted 3 = .ok true ∧
      (f.recordOf 0 + f.recordSize 0 ≤ f.header.graphDataLen ∧ 0 ≤ f.levelOf 0) ∧
      (f.recordOf 1 + f.recordSize 1 ≤ f.header.graphDataLen ∧ 0 ≤ f.levelOf 1) ∧
      f.header.freeListHead = some 3 ∧ optionU32 (f.linkOf 3) = some 2 ∧
      optionU32 (f.linkOf 2) = none) = true := by
    decide +kernel
  cases hpair : linkedPair with
  | error e =>
      rw [hpair] at heval
      cases heval
  | ok f =>
      rw [hpair] at heval
      obtain ⟨hsize, hdims, hgraph, hcap, hvector, hlist₀, hlist₁, hlevel, hflag₀, hflag₃, hrecord₀,
        hrecord₁, hhead, hlink₃, hlink₂⟩ := of_decide_eq_true heval
      obtain ⟨f', hrun, hkeeps⟩ := Mapped.grow_keeps ⟨hsize, hdims⟩ hgraph (by omega)
      have hmapped : Mapped f := ⟨hsize, hdims⟩
      have hlt : ∀ {n}, n < 4 → n < f.header.nodeCapacity := fun hn => hcap ▸ hn
      refine ⟨f, f', rfl, hrun, hkeeps, ?_, ?_, ?_, ?_, ?_, ?_, ?_⟩
      · rw [hkeeps.vectors 1 (hlt (by decide)), hvector]
      · rw [hkeeps.layers 0 (hlt (by decide)) hrecord₀.1 0 hrecord₀.2, hlist₀]
      · rw [hkeeps.layers 1 (hlt (by decide)) hrecord₁.1 0 hrecord₁.2, hlist₁]
      · have hin := hmapped.listInData (hlt (by decide)) hrecord₀.1 hrecord₀.2
        rw [hkeeps.levels 0 (hlt (by decide)) hin, hlevel]
      · rw [hkeeps.deleted 0 (hlt (by decide)), hflag₀]
      · rw [hkeeps.deleted 3 (hlt (by decide)), hflag₃]
      · have hfree : ∀ n ∈ [3, 2], n < f.header.nodeCapacity := by
          rw [hcap]
          decide
        refine (hkeeps.chain [3, 2] hfree).mpr ?_
        rw [hhead]
        refine .cons ?_
        rw [hlink₃]
        refine .cons ?_
        rw [hlink₂]
        exact .nil

end VecFile

end BoogyDb
