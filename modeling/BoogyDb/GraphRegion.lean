import BoogyDb.RecordIndex
import BoogyDb.VectorMaps

/-!
# The graph region

The graph region has room for one record with 16 upper layers for each node of the capacity, and
the capacity only grows when there is no freed node left.  So the records of enough deletions
and insertions do not fit, whatever layers are drawn (`newVectors_overruns`).

`RecordRun` is a run with the records that it appended.  As long as each call finds room
(`VectorOp.FindsRoom`), the records lie in the region, one behind the other, and a record that
is about to be written lies in it too (`RecordRun.stays_in_region`); the first call that does
not find room and returns breaks the bound.
-/

namespace BoogyDb

open Bytes Memory Wp Except VecFile

/-! ## The records in the region -/

namespace VecFile

/-- The records of a file: where each starts in the region, and how many layers it has. -/
structure Region (f : VecFile) (records : List (ℕ × ℕ)) : Prop where
  shape : Shape f
  indexed : ∀ n < f.header.nodeCount, ∃ layer, (f.recordOf n, layer) ∈ records
  inside : ∀ r ∈ records, r.1 + graphRecordSize r.2 f.header.m ≤ f.header.graphDataLen
  apart : records.Pairwise fun r r' => r.1 + graphRecordSize r.2 f.header.m ≤ r'.1
  total : f.header.graphDataLen = (records.map fun r => graphRecordSize r.2 f.header.m).sum

variable {f f' : VecFile} {v layer : ℕ} {records : List (ℕ × ℕ)}

theorem Region.keeps (h : Region f records) (hkeeps : KeepsIndex f f') : Region f' records where
  shape := h.shape.of_keeps hkeeps
  indexed n hn := by
    rw [hkeeps.count] at hn
    rw [hkeeps.index n (hn.trans_le h.shape.count_le)]
    exact h.indexed n hn
  inside r hr := by
    rw [hkeeps.shape.m, hkeeps.len]
    exact h.inside r hr
  apart := by
    rw [hkeeps.shape.m]
    exact h.apart
  total := by
    rw [hkeeps.shape.m, hkeeps.len]
    exact h.total

theorem Appends.shape (h : VecFile.Appends f f' v layer) (hf : Shape f) (hroom : f.HasRoom layer) :
    Shape f' where
  dims_pos := h.dims ▸ hf.dims_pos
  m_pos := h.m ▸ hf.m_pos
  m_le := h.m ▸ hf.m_le
  cap_pos := by
    have hpos := hf.cap_pos
    rw [h.cap]
    unfold nextCapacity
    split <;> omega
  cap_lt := h.cap_lt
  count_le := h.count_le
  size := h.size
  graph_le := by
    rw [h.len, h.cap, h.m]
    exact hroom

/-- **With room for it, the new record lies in the region behind the others.** -/
theorem Region.append (h : Region f records) (happends : VecFile.Appends f f' v layer)
    (hroom : f.HasRoom layer) : Region f' (records ++ [(f.header.graphDataLen, layer)]) where
  shape := happends.shape h.shape hroom
  indexed n hn := by
    by_cases hne : n = v
    · rw [hne, happends.recordOf]
      exact ⟨layer, List.mem_append_right _ (List.mem_singleton_self _)⟩
    · have hn := happends.counted n hn hne
      obtain ⟨l, hl⟩ := h.indexed n hn
      rw [happends.index n hn hne]
      exact ⟨l, List.mem_append_left _ hl⟩
  inside r hr := by
    rw [happends.m, happends.len]
    rcases List.mem_append.mp hr with hr | hr
    · exact (h.inside r hr).trans (Nat.le_add_right _ _)
    · rw [List.mem_singleton.mp hr]
  apart := by
    rw [happends.m, List.pairwise_append]
    refine ⟨h.apart, List.pairwise_singleton _ _, fun r hr r' hr' => ?_⟩
    rw [List.mem_singleton.mp hr']
    exact h.inside r hr
  total := by
    rw [happends.len, happends.m, List.map_append, List.sum_append, ← h.total, List.map_singleton,
      List.sum_singleton]

/-- The write of the next record is in the region. -/
def WritesRecord (f : VecFile) (vector : List UInt32) (layer : ℕ) : Prop :=
  ∀ v f₁ f₂, f.allocateNode = .ok (v, f₁) → f₁.writeVector v vector = .ok f₂ →
    f₂.graphRecordAbsOffset f₂.header.graphDataLen + graphRecordSize layer f₂.header.m ≤
      f₂.flagsStart ∧ ∃ f₃, f₂.allocateGraphRecord v layer = .ok f₃

theorem Shape.writesRecord {used : ℕ → Prop} (hf : Shape f) (hnodes : NodesInv f used)
    (hroom : f.HasRoom layer) (hlayer : layer < 2 ^ 32) (vector : List UInt32) :
    f.WritesRecord vector layer := by
  intro v f₁ f₂ hallocate hwrite
  have htakes := (allocateNode_index hf hnodes).ok hallocate
  dsimp only at htakes
  have hcap₁ := htakes.lt.trans_le htakes.shape.count_le
  have hkeeps := (writeVector_index hcap₁ vector).ok hwrite
  have hshape := htakes.shape.of_keeps hkeeps
  have hroom₂ : f₂.header.graphDataLen + graphRecordSize layer f₂.header.m ≤
      graphDataPreallocated f₂.header.nodeCapacity f₂.header.m := by
    rw [hkeeps.len, hkeeps.shape.m, hkeeps.shape.nodeCapacity, htakes.len, htakes.m, htakes.cap]
    exact hroom
  obtain ⟨f₃, hrun, -⟩ :=
    allocateGraphRecord_ok hshape (hkeeps.shape.nodeCapacity ▸ hcap₁) hlayer hroom₂
  refine ⟨?_, f₃, hrun⟩
  have hstart : f₂.graphRecordAbsOffset f₂.header.graphDataLen =
    f₂.graphStart + f₂.header.graphDataLen := rfl
  rw [hstart, flagsStart_eq]
  omega

end VecFile

namespace VectorOp

/-- There is room for the record of the call: for an insertion with the capacity after its
node was allocated. -/
def FindsRoom (c : VectorCollection) : VectorOp → Prop
  | insert rowid vector layer => c.Accepts rowid vector → c.vecfile.HasRoom layer
  | delete _ => True
  | update rowid vector layer => rowid ∈ c.rowidToNode →
      vector.length = c.vecfile.header.dimensions →
        c.vecfile.header.graphDataLen + graphRecordSize layer c.vecfile.header.m ≤
          graphDataPreallocated c.vecfile.header.nodeCapacity c.vecfile.header.m

/-- The write of the record of the call is in the region. -/
def WritesRecord (c : VectorCollection) : VectorOp → Prop
  | insert rowid vector layer => c.Accepts rowid vector → c.vecfile.WritesRecord vector layer
  | delete _ => True
  | update rowid vector layer => ∀ c₁ : VectorCollection,
      VectorCollection.delete Access.code rowid c = .ok () c₁ →
        vector.length = c₁.vecfile.header.dimensions → c₁.vecfile.WritesRecord vector layer

end VectorOp

/-- The record that a call has appended. -/
def VectorCollection.appended (c c' : VectorCollection) (layer : ℕ) : List (ℕ × ℕ) :=
  if c'.vecfile.header.graphDataLen = c.vecfile.header.graphDataLen then []
  else [(c.vecfile.header.graphDataLen, layer)]

section

variable (distanceFn : DistanceMetric → List UInt32 → List UInt32 → UInt32) (order : HeapOrder)
  (Fits : VectorCollection → VectorOp → Prop)

/-- Calls that fit, one after the other, with the records that they have appended. -/
inductive RecordRun (c₀ : VectorCollection) : VectorCollection → List (ℕ × ℕ) → Prop
  | start : RecordRun c₀ c₀ []
  | step {c c' : VectorCollection} {op : VectorOp} {records : List (ℕ × ℕ)}
      (h : RecordRun c₀ c records) (hlayer : op.layer ≤ 16) (hfits : Fits c op)
      (hreturns : ReturnsTo (op.run Access.code distanceFn order) c c') :
      RecordRun c₀ c' (records ++ c.appended c' op.layer)

/-- The records lie in the graph region, and so do those that are about to be written. -/
structure StaysInRegion (c : VectorCollection) (records : List (ℕ × ℕ)) : Prop where
  bound : c.vecfile.header.graphDataLen ≤
    graphDataPreallocated c.vecfile.header.nodeCapacity c.vecfile.header.m
  file : c.vecfile.flagsStart + c.vecfile.header.nodeCapacity = c.vecfile.mem.size
  indexed : ∀ n < c.vecfile.header.nodeCount,
    ∃ r ∈ records, c.vecfile.graphRecordOffset n = .ok (some r.1)
  inside : ∀ r ∈ records, c.vecfile.graphRecordAbsOffset r.1 +
    graphRecordSize r.2 c.vecfile.header.m ≤ c.vecfile.flagsStart
  apart : records.Pairwise fun r r' =>
    r.1 + graphRecordSize r.2 c.vecfile.header.m ≤ r'.1
  total : c.vecfile.header.graphDataLen =
    (records.map fun r => graphRecordSize r.2 c.vecfile.header.m).sum
  writes : ∀ op : VectorOp, op.layer ≤ 16 → Fits c op → op.WritesRecord c

end

variable {distanceFn : DistanceMetric → List UInt32 → List UInt32 → UInt32} {order : HeapOrder}
  {Fits : VectorCollection → VectorOp → Prop} {c₀ c c' : VectorCollection} {op : VectorOp}
  {records : List (ℕ × ℕ)}

/-- Calls that succeed append records. -/
theorem RecordRun.of_after {ops : List VectorOp}
    (hrun : RecordRun distanceFn order (fun _ _ => True) c₀ c records)
    (hlayers : ∀ op ∈ ops, op.layer ≤ 16) (h : c.after distanceFn order ops = some c') :
    ∃ records', RecordRun distanceFn order (fun _ _ => True) c₀ c' records' := by
  induction ops generalizing c records with
  | nil =>
      cases h
      exact ⟨records, hrun⟩
  | cons op ops ih =>
      rw [List.forall_mem_cons] at hlayers
      obtain ⟨c₁, hop, hrest⟩ := VectorCollection.after_cons.mp h
      exact ih (hrun.step hlayers.1 trivial (Or.inl ⟨_, hop⟩)) hlayers.2 hrest

/-! ## One call, and runs -/

namespace VectorOp

open VectorCollection

/-- What a call does to the records: nothing, or it appends one, and then it finds room if the
region has room for it. -/
structure MovesRecords (op : VectorOp) (c : VectorCollection) (f f' : VecFile) : Prop where
  keeps : KeepsIndex c.vecfile f
  appends : f' = f ∧ op.FindsRoom c ∨
    ∃ v, VecFile.Appends f f' v op.layer ∧ (op.FindsRoom c ↔ f.HasRoom op.layer)

/-- An insertion appends a record, or is refused without a change. -/
theorem insert_moves {rowid : UInt64} {vector : List UInt32} {layer : ℕ} (hc : MapsInv c)
    (hf : Shape c.vecfile)
    (hreturns : ReturnsTo (VectorCollection.insert Access.code distanceFn order rowid vector layer)
      c c') :
    MapsInv c' ∧ (c' = c ∧ ¬ c.Accepts rowid vector ∨
      c.Accepts rowid vector ∧ ∃ v, VecFile.Appends c.vecfile c'.vecfile v layer) := by
  rcases hreturns.spec ((VectorCollection.wp_insert hc).and (wp_insert_appends hc hf)) with
    ⟨v, -, ⟨haccepts, hmaps, -⟩, happends⟩ | ⟨e, -, hrefused, -⟩
  · exact ⟨hmaps, Or.inr ⟨haccepts, v, happends⟩⟩
  · obtain ⟨hno, rfl⟩ := hrefused e rfl
    exact ⟨hc, Or.inl ⟨rfl, hno⟩⟩

/-- After a deletion a node is freed, so that the next insertion does not grow the file. -/
theorem nextCapacity_of_freed {f : VecFile} (h : f.header.freeListHead ≠ none) :
    f.nextCapacity = f.header.nodeCapacity := by
  unfold nextCapacity
  rw [if_neg fun hnone => h hnone.1]

/-- **What a call that returns does to the records.** -/
theorem run_moves (hc : MapsInv c) (hf : Shape c.vecfile)
    (hreturns : ReturnsTo (op.run Access.code distanceFn order) c c') :
    MapsInv c' ∧ ∃ f, op.MovesRecords c f c'.vecfile := by
  cases op with
  | insert rowid vector layer =>
      obtain ⟨hmaps, hmoves⟩ := insert_moves hc hf hreturns.of_discard
      refine ⟨hmaps, c.vecfile, .refl _, ?_⟩
      rcases hmoves with ⟨rfl, hno⟩ | ⟨haccepts, v, happends⟩
      · exact Or.inl ⟨rfl, fun haccepts => absurd haccepts hno⟩
      · exact Or.inr ⟨v, happends, ⟨fun h => h haccepts, fun h _ => h⟩⟩
  | delete rowid =>
      rcases hreturns.spec ((VectorCollection.wp_delete hc).and (wp_delete_keeps hc hf)) with
        ⟨-, -, ⟨-, hmaps, -⟩, hkeeps, -⟩ | ⟨e, -, hrefused, -⟩
      · exact ⟨hmaps, c'.vecfile, hkeeps, Or.inl ⟨rfl, trivial⟩⟩
      · obtain ⟨-, rfl⟩ := hrefused e rfl
        exact ⟨hc, c'.vecfile, .refl _, Or.inl ⟨rfl, trivial⟩⟩
  | update rowid vector layer =>
      have hdelete := (@VectorCollection.wp_delete _ rowid hc).and (wp_delete_keeps hc hf)
      rcases hreturns.of_discard.of_bind with ⟨e, herr⟩ | ⟨_, c₁, hok, hinsert⟩
      · obtain ⟨hno, rfl⟩ := (hdelete.error herr).1 e rfl
        exact ⟨hc, c'.vecfile, .refl _, Or.inl ⟨rfl, fun hmem => absurd hmem hno⟩⟩
      obtain ⟨⟨hmem, hmaps₁, hrowids, hdims, -⟩, hkeeps, hfreed⟩ := hdelete.ok hok
      have hgone : rowid ∉ c₁.rowidToNode := by
        rw [hrowids]
        exact AList.lookup_eq_none.mp (AList.lookup_erase _ _)
      obtain ⟨hmaps, hmoves⟩ := insert_moves hmaps₁ (hf.of_keeps hkeeps) hinsert
      refine ⟨hmaps, c₁.vecfile, hkeeps, ?_⟩
      rcases hmoves with ⟨rfl, hno⟩ | ⟨haccepts, v, happends⟩
      · exact Or.inl ⟨rfl, fun _ hlen => absurd ⟨hlen.trans hdims.symm, hgone⟩ hno⟩
      · refine Or.inr ⟨v, happends, ?_⟩
        unfold HasRoom
        rw [nextCapacity_of_freed hfreed, hkeeps.len, hkeeps.shape.m, hkeeps.shape.nodeCapacity]
        exact ⟨fun h => h hmem (haccepts.1.trans hdims), fun h _ _ => h⟩

/-- **A call that finds room keeps the records in the region.** -/
theorem MovesRecords.region {f f' : VecFile} (h : op.MovesRecords c f f') (hroom : op.FindsRoom c)
    (hregion : Region c.vecfile records) {c' : VectorCollection} (hf' : c'.vecfile = f') :
    Region f' (records ++ c.appended c' op.layer) := by
  have hregion₁ := hregion.keeps h.keeps
  rcases h.appends with ⟨rfl, -⟩ | ⟨v, happends, hiff⟩
  · have hnone : c.appended c' op.layer = [] := by
      unfold appended
      rw [hf', if_pos h.keeps.len]
    rw [hnone, List.append_nil]
    exact hregion₁
  · have hpos : 0 < graphRecordSize op.layer f.header.m :=
      Nat.lt_of_lt_of_le (by decide) (four_le_layerOffset (op.layer + 1) f.header.m)
    have hone : c.appended c' op.layer = [(f.header.graphDataLen, op.layer)] := by
      unfold appended
      rw [hf', happends.len, h.keeps.len, if_neg (by omega)]
    rw [hone]
    exact hregion₁.append happends (hiff.mp hroom)

/-- **A call breaks the bound if it finds no room.** -/
theorem MovesRecords.bound_iff {f f' : VecFile} (h : op.MovesRecords c f f')
    (hf : Shape c.vecfile) :
    f'.header.graphDataLen ≤ graphDataPreallocated f'.header.nodeCapacity f'.header.m ↔
      op.FindsRoom c := by
  rcases h.appends with ⟨rfl, hroom⟩ | ⟨v, happends, hiff⟩
  · exact iff_of_true (hf.of_keeps h.keeps).graph_le hroom
  · rw [hiff, happends.len, happends.cap, happends.m]
    exact Iff.rfl

/-- A call that finds room writes its record in the region. -/
theorem writesRecord (hc : MapsInv c) (hf : Shape c.vecfile) (hlayer : op.layer ≤ 16)
    (hroom : op.FindsRoom c) : op.WritesRecord c := by
  cases op with
  | insert rowid vector layer =>
      have hlayer : layer ≤ 16 := hlayer
      exact fun haccepts => hf.writesRecord hc.nodes (hroom haccepts) (by omega) vector
  | delete rowid => trivial
  | update rowid vector layer =>
      have hlayer : layer ≤ 16 := hlayer
      intro c₁ hok hlen
      obtain ⟨⟨hmem, hmaps₁, -, hdims, -⟩, hkeeps, hfreed⟩ :=
        ((@VectorCollection.wp_delete _ rowid hc).and (wp_delete_keeps hc hf)).ok hok
      refine (hf.of_keeps hkeeps).writesRecord hmaps₁.nodes ?_ (by omega) vector
      unfold HasRoom
      rw [nextCapacity_of_freed hfreed, hkeeps.len, hkeeps.shape.m, hkeeps.shape.nodeCapacity]
      exact hroom hmem (hlen.trans hdims)

end VectorOp

/-- **The records stay in the region in a run whose calls find room.** -/
theorem RecordRun.region (h : RecordRun distanceFn order (fun c op => op.FindsRoom c) c₀ c records)
    (hc₀ : MapsInv c₀) (hregion₀ : Region c₀.vecfile []) :
    MapsInv c ∧ Region c.vecfile records := by
  induction h with
  | start => exact ⟨hc₀, hregion₀⟩
  | step _ hlayer hroom hreturns ih =>
      obtain ⟨hmaps, hregion⟩ := ih
      obtain ⟨hmaps', f, hmoves⟩ := VectorOp.run_moves hmaps hregion.shape hreturns
      exact ⟨hmaps', hmoves.region hroom hregion rfl⟩

theorem VecFile.Region.staysInRegion (h : Region c.vecfile records) (hc : MapsInv c) :
    StaysInRegion (fun c op => op.FindsRoom c) c records where
  bound := h.shape.graph_le
  file := h.shape.size.symm
  indexed n hn := by
    obtain ⟨layer, hmem⟩ := h.indexed n hn
    have hinside := h.inside _ hmem
    refine ⟨_, hmem, h.shape.graphRecordOffset (hn.trans_le h.shape.count_le) ?_⟩
    dsimp only at hinside
    omega
  inside r hr := by
    have hinside := h.inside r hr
    have hend := h.shape.graph_end_le
    have hstart : c.vecfile.graphRecordAbsOffset r.1 = c.vecfile.graphStart + r.1 := rfl
    omega
  apart := h.apart
  total := h.total
  writes op hlayer hroom := VectorOp.writesRecord hc h.shape hlayer hroom

/-- A new collection has no records. -/
theorem VectorCollection.create_region {options : VectorCollectionOptions}
    {cipher : Option Aes256Gcm} {nonces : ℕ → Nonce} {c : VectorCollection}
    (h : VectorCollection.create options cipher nonces = .ok c) :
    MapsInv c ∧ Region c.vecfile [] := by
  have hc := VectorCollection.create_inv h
  have hnew : c.vecfile.header.nodeCount = 0 ∧ c.vecfile.header.graphDataLen = 0 := by
    unfold VectorCollection.create at h
    split at h
    · cases h
    · split at h
      · cases h
      · cases h
        exact ⟨rfl, rfl⟩
  obtain ⟨hcount, hlen⟩ := hnew
  refine ⟨hc.maps, hc.graph.layout.shape, fun n hn => ?_, nofun, .nil, hlen⟩
  rw [hcount] at hn
  exact absurd hn (Nat.not_lt_zero n)

/-! ## A region that is full -/

namespace VecFile

variable {f : VecFile} {v l layer : ℕ}

/-- The record of a node lies in the file, and its lists are empty. -/
structure EmptyRecord (f : VecFile) (v layer : ℕ) : Prop where
  index : f.nodeIndexEntryOffset v + 8 ≤ f.graphStart
  entry : f.recordOf v < noneU64
  inside : f.recordStart v + graphRecordSize layer f.header.m ≤ f.mem.size
  empty : ∀ l ≤ layer, f.mem.word (f.listStart v l) 4 = 0

theorem EmptyRecord.graphRecordOffset (h : EmptyRecord f v layer) :
    f.graphRecordOffset v = .ok (Option.some (f.recordOf v)) := by
  have hindex := h.index
  have hinside := h.inside
  have hstart := recordStart_eq f v
  unfold VecFile.graphRecordOffset readU64At
  rw [if_pos (by omega), ok_bind]
  exact congrArg Except.ok (if_neg h.entry.ne)

theorem EmptyRecord.listOf (h : EmptyRecord f v layer) (hl : l ≤ layer) : f.listOf v l = [] := by
  unfold VecFile.listOf
  rw [h.empty l hl, Nat.zero_min]
  rfl

/-- A write before the record of the node, and not into its index entry. -/
theorem EmptyRecord.of_writes {f' : VecFile} {start stop : ℕ} (h : EmptyRecord f v layer)
    (hw : WritesIn f f' start stop) (hstop : stop ≤ f.nodeIndexEntryOffset v) :
    EmptyRecord f' v layer := by
  have hindex := h.index
  have hrecord : f'.recordOf v = f.recordOf v := hw.recordOf (Or.inr hstop)
  have hstart : f'.recordStart v = f.recordStart v := by
    rw [recordStart_eq, recordStart_eq, hrecord, hw.shape.graphStart]
  have hlist : ∀ l, f'.listStart v l = f.listStart v l := fun l => by
    unfold listStart
    rw [hstart, hw.shape.m]
  refine ⟨?_, ?_, ?_, fun l hl => ?_⟩
  · rw [nodeIndexEntryOffset_eq, hw.shape.indexStart, hw.shape.graphStart]
    exact hindex
  · rw [hrecord]
    exact h.entry
  · rw [hstart, hw.shape.m, hw.size]
    exact h.inside
  · have hbehind : stop ≤ f.listStart v l := by
      have hle : f.recordStart v ≤ f.listStart v l := Nat.le_add_right _ _
      have hgraph : f.graphStart ≤ f.recordStart v := Nat.le_add_right _ _
      omega
    rw [hlist l, ((hw.agree _ _ (Or.inr hbehind)).moved le_rfl le_rfl).word]
    exact h.empty l hl

/-- Writing an empty list over an empty list. -/
theorem writeNeighbors_empty (h : EmptyRecord f v layer) (hl : l ≤ layer) :
    ∃ f', f.writeNeighbors v l [] = .ok f' ∧ f'.header = f.header ∧ EmptyRecord f' v layer := by
  have hindex := h.index
  have hinside := h.inside
  have hlistStart : f.listStart v l = f.recordStart v + layerOffsetInRecord l f.header.m := rfl
  have hgraph : f.graphStart ≤ f.recordStart v := Nat.le_add_right _ _
  have hentry := @layerEntry_le_size _ _ f.header.m hl
  have hbytes : (wordsBytes (neighborWords l f.header.m [])).length =
      layerEntrySize l f.header.m := by
    rw [length_wordsBytes, length_neighborWords]
    unfold layerEntrySize
    omega
  obtain ⟨hrun, hw⟩ := @store_ok f (f.listStart v l)
    (wordsBytes (neighborWords l f.header.m [])) (by rw [hbytes]; omega)
  rw [hbytes] at hw
  set f' : VecFile := { f with
    mem := f.mem.write (f.listStart v l) (wordsBytes (neighborWords l f.header.m [])) } with hf'
  have hrecord : f'.recordOf v = f.recordOf v := hw.recordOf (Or.inl (by omega))
  have hstart : f'.recordStart v = f.recordStart v := by
    rw [recordStart_eq, recordStart_eq, hrecord, hw.shape.graphStart]
  refine ⟨f', ?_, rfl, hindex, ?_, ?_, fun l' hl' => ?_⟩
  · unfold writeNeighbors
    rw [h.graphRecordOffset, ok_bind]
    exact hrun
  · rw [hrecord]
    exact h.entry
  · rw [hstart]
    exact hinside
  · have hlist : f'.listStart v l' = f.listStart v l' := by
      unfold listStart
      rw [hstart]
    have hlistStart' : f.listStart v l' =
      f.recordStart v + layerOffsetInRecord l' f.header.m := rfl
    rw [hlist]
    rcases Nat.lt_trichotomy l' l with hlt | rfl | hlt
    · have hbefore := @layerEntry_le _ _ f.header.m hlt
      have hfour : 4 ≤ layerEntrySize l' f.header.m := Nat.le_add_right _ _
      rw [((hw.agree _ _ (Or.inl (by omega))).moved le_rfl le_rfl).word]
      exact h.empty l' hl'
    · have hcount : f'.mem.word (f.listStart v l') 4 = ([] : List ℕ).length :=
        word_write_cons (by decide)
      exact hcount
    · have hbehind := @layerEntry_le _ _ f.header.m hlt
      rw [((hw.agree _ _ (Or.inr (by omega))).moved le_rfl le_rfl).word]
      exact h.empty l' hl'

theorem applyConnections_empty {layers : List ℕ} (h : EmptyRecord f v layer)
    (hlayers : ∀ l ∈ layers, l ≤ layer) :
    ∃ f', VectorCollection.applyConnections Access.code f (layers.map fun l => (v, l, [])) = .ok f' ∧
      f'.header = f.header ∧ EmptyRecord f' v layer := by
  induction layers generalizing f with
  | nil => exact ⟨f, rfl, rfl, h⟩
  | cons l layers ih =>
      rw [List.forall_mem_cons] at hlayers
      obtain ⟨f₁, hrun₁, hheader₁, h₁⟩ := writeNeighbors_empty h hlayers.1
      obtain ⟨f₂, hrun₂, hheader₂, h₂⟩ := ih h₁ hlayers.2
      refine ⟨f₂, ?_, hheader₂.trans hheader₁, h₂⟩
      unfold VectorCollection.applyConnections at hrun₂ ⊢
      have hcode : Access.code.writeNeighbors f v l [] = .ok f₁ := hrun₁
      rw [List.map_cons, List.foldlM_cons, hcode, ok_bind]
      exact hrun₂

/-- A record is written, in the region or behind it. -/
theorem allocateGraphRecord_empty (hf : Shape f) (hv : v < f.header.nodeCapacity)
    (hinside : f.graphStart + f.header.graphDataLen + graphRecordSize layer f.header.m ≤
      f.mem.size) :
    ∃ f', f.allocateGraphRecord v layer = .ok f' ∧ EmptyRecord f' v layer ∧
      f'.header = { f.header with
        graphDataLen := f.header.graphDataLen + graphRecordSize layer f.header.m } := by
  have hbytes := length_recordWords layer f.header.m
  have hlen := preallocated_lt hf.cap_lt hf.m_le
  have hle := hf.graph_le
  have habs : f.graphRecordAbsOffset f.header.graphDataLen =
    f.graphStart + f.header.graphDataLen := rfl
  obtain ⟨hrun₁, hw₁⟩ := @store_ok f (f.graphRecordAbsOffset f.header.graphDataLen)
    (wordsBytes (recordWords layer f.header.m)) (by rw [hbytes]; omega)
  set f₁ : VecFile := { f with
    mem := f.mem.write (f.graphRecordAbsOffset f.header.graphDataLen)
      (wordsBytes (recordWords layer f.header.m)) } with hf₁
  obtain ⟨f₂, hrun₂, hheader₂, -, hself₂, hw₂, -⟩ :=
    @setGraphRecordOffset_ok f₁ v (hf.of_writes hw₁) hv f.header.graphDataLen (by omega)
  have hindex : f₁.nodeIndexEntryOffset v + 8 ≤ f₁.graphStart := Shape.index_le hv
  set f₃ : VecFile := { f₂ with
    header.graphDataLen := f.header.graphDataLen + graphRecordSize layer f₂.header.m } with hf₃
  have hheader₃ : f₃.header = { f.header with
      graphDataLen := f.header.graphDataLen + graphRecordSize layer f.header.m } := by
    rw [hf₃]
    dsimp only
    rw [hheader₂]
  have hstart₂ : f₂.graphStart = f.graphStart := (SameShape.of_header hheader₂).graphStart
  have hrecord : f₃.recordStart v = f.graphStart + f.header.graphDataLen := by
    change f₂.graphStart + f₂.recordOf v = _
    rw [hstart₂, hself₂]
  refine ⟨f₃, ?_, ⟨?_, ?_, ?_, fun l hl => ?_⟩, hheader₃⟩
  · unfold allocateGraphRecord
    dsimp only
    rw [hrun₁, ok_bind, hrun₂, ok_bind]
    rfl
  · have hsame := SameShape.of_header hheader₂
    change f₂.indexStart + v * 8 + 8 ≤ f₂.graphStart
    rw [hsame.indexStart, hsame.graphStart]
    exact hindex
  · change f₂.recordOf v < noneU64
    rw [hself₂]
    unfold noneU64
    omega
  · rw [hrecord, hheader₃]
    change _ ≤ f₂.mem.size
    rw [hw₂.size]
    exact hinside
  · obtain ⟨before, after, hwords, hbefore⟩ := @recordWords_split _ _ f.header.m hl
    have hoff : f₃.listStart v l =
        f.graphRecordAbsOffset f.header.graphDataLen + before.length * 4 := by
      unfold listStart
      rw [hrecord, hheader₃, hbefore, habs]
    have hbehind : f₁.nodeIndexEntryOffset v + 8 ≤
        f.graphRecordAbsOffset f.header.graphDataLen + before.length * 4 := by
      have hgraph : f₁.graphStart = f.graphStart := rfl
      omega
    change f₂.mem.word (f₃.listStart v l) 4 = 0
    rw [hoff, ((hw₂.agree _ _ (Or.inr hbehind)).moved le_rfl le_rfl).word, hf₁]
    dsimp only
    rw [hwords]
    exact word_write_behind (by decide)

end VecFile

namespace VectorCollection

/-- **An insertion into a collection without an entry point**, of a node that was freed, returns
as long as the record lies in the file. -/
theorem insert_alone {free : List ℕ} {rowid : UInt64} {vector : List UInt32} {v layer : ℕ}
    (hf : Layout c.vecfile) (hfree : FreeList c.vecfile free)
    (hhead : c.vecfile.header.freeListHead = some v) (hentry : c.vecfile.header.entryPoint = none)
    (haccepts : c.Accepts rowid vector) (hlen : vector.length ≤ 2 ^ 16)
    (hinside : c.vecfile.graphStart + c.vecfile.header.graphDataLen +
      graphRecordSize layer c.vecfile.header.m ≤ c.vecfile.mem.size) :
    ∃ c', insert Access.code distanceFn order rowid vector layer c = .ok v c' ∧
      c'.vecfile.header = { c.vecfile.header with
        entryPoint := some v
        maxLayer := layer
        freeListHead := c'.vecfile.header.freeListHead
        freeListLen := c'.vecfile.header.freeListLen
        graphDataLen := c.vecfile.header.graphDataLen +
          graphRecordSize layer c.vecfile.header.m } ∧
      EmptyRecord c'.vecfile v layer := by
  obtain ⟨f₁, hrun₁, hall⟩ := allocateNode_head hf hfree hhead
  have hnext : c.vecfile.nextCapacity = c.vecfile.header.nodeCapacity :=
    VectorOp.nextCapacity_of_freed (by rw [hhead]; exact Option.some_ne_none v)
  have hshape₁ : SameShape c.vecfile f₁ := by
    refine ⟨?_, ?_, ?_⟩ <;> rw [hall.header]
    exact hnext
  have hcap₁ : v < f₁.header.nodeCapacity := hall.lt.trans_le hall.shape.count_le
  obtain ⟨f₂, hrun₂, hheader₂, hshape₂, -⟩ :=
    @writeVector_ok f₁ v hall.shape hcap₁ vector (haccepts.1.trans hshape₁.dimensions.symm)
  have hsame₂ := SameShape.of_header hheader₂
  have hinside₂ : f₂.graphStart + f₂.header.graphDataLen + graphRecordSize layer f₂.header.m ≤
      f₂.mem.size := by
    rw [hshape₂.size, hsame₂.flagsStart, hsame₂.graphStart, hheader₂, hshape₁.graphStart,
      hshape₁.flagsStart, hshape₁.nodeCapacity, hshape₁.m, ← hf.shape.size]
    rw [hall.header]
    exact hinside
  obtain ⟨f₃, hrun₃, hempty₃, hheader₃⟩ :=
    allocateGraphRecord_empty hshape₂ (hheader₂ ▸ hcap₁) hinside₂
  have hadd : addNode c.vecfile vector layer = .ok (v, f₃) := by
    unfold addNode
    rw [hrun₁, ok_bind]
    dsimp only
    rw [hrun₂, ok_bind, hrun₃]
    rfl
  have hheader : f₃.header = { c.vecfile.header with
      nodeCount := f₁.header.nodeCount
      freeListHead := f₁.header.freeListHead
      freeListLen := f₁.header.freeListLen
      graphDataLen := c.vecfile.header.graphDataLen +
        graphRecordSize layer c.vecfile.header.m } := by
    rw [hheader₃, hheader₂]
    conv_lhs => rw [hall.header, hnext]
  have hcount : f₁.header.nodeCount = c.vecfile.header.nodeCount := by
    have hv : v < c.vecfile.header.nodeCount := by
      rcases hall.was with ⟨-, hlt⟩ | ⟨hnone, -⟩
      · exact hlt
      · rw [hhead] at hnone
        exact nomatch hnone
    have hlt := hall.lt
    by_contra hne
    rcases Nat.lt_or_gt_of_ne hne with h | h
    · exact lt_irrefl _ ((hall.counted _ hlt.ne').mpr h)
    · exact lt_irrefl _ ((hall.counted _ hv.ne').mp h)
  -- without an entry point nothing is searched: the node gets an empty list on every layer
  set connections : List Hnsw.Connection := (List.range (layer + 1)).map fun l => (v, l, [])
    with hconnections
  have hgraph : graphInsert Access.code distanceFn order f₃ v layer =
      .ok ⟨connections, some v, some layer⟩ := by
    unfold graphInsert Hnsw.insert
    rw [hheader, hentry]
    rfl
  have hshort : Hnsw.Short c.vecfile.header.m connections := by
    intro connection hmem
    obtain ⟨l, -, rfl⟩ := List.mem_map.mp hmem
    exact Nat.zero_le _
  obtain ⟨wal, hlog⟩ := @appendCommitted_ok _ Access.code _
    (@insertEntries_short vector layer _ v v f₃.header.nodeCount layer connections hlen
      hf.shape.m_le hshort) { c with vecfile := f₃ }
  obtain ⟨f₄, hrun₄, hheader₄, hempty₄⟩ := applyConnections_empty hempty₃ fun l hl =>
    Nat.le_of_lt_succ (List.mem_range.mp hl)
  set f₅ : VecFile := { f₄ with header.entryPoint := some v, header.maxLayer := layer } with hf₅
  have hempty₅ : EmptyRecord f₅ v layer :=
    ⟨hempty₄.index, hempty₄.entry, hempty₄.inside, hempty₄.empty⟩
  -- the header is written at last, in front of the index, and so in front of every record
  have hheaderLen : offDimensions + f₅.headerBytes.length ≤ f₅.nodeIndexEntryOffset v := by
    have hle : vecHeaderSize ≤ f₅.nodeIndexEntryOffset v :=
      (Nat.le_add_right _ _).trans (Nat.le_add_right _ _)
    refine le_trans ?_ hle
    rw [length_headerBytes]
    decide
  have hend : f₅.nodeIndexEntryOffset v ≤ f₅.mem.size := by
    have hindex := hempty₅.index
    have hinside := hempty₅.inside
    have hstart := recordStart_eq f₅ v
    omega
  obtain ⟨hrun₆, hw₆⟩ := @store_ok f₅ offDimensions f₅.headerBytes (hheaderLen.trans hend)
  set f₆ : VecFile := { f₅ with mem := f₅.mem.write offDimensions f₅.headerBytes } with hf₆
  have hflush : f₅.flush = .ok f₆ := hrun₆
  refine ⟨{ c with
    vecfile := f₆
    wal := wal.truncate
    rowidToNode := c.rowidToNode.insert rowid v
    nodeToRowid := c.nodeToRowid.insert v rowid }, ?_, ?_, hempty₅.of_writes hw₆ hheaderLen⟩
  · unfold insert
    rw [run_bind_ok (rfl : (get : StateResult VectorCollection VectorCollection) c = .ok c c)]
    dsimp only
    rw [if_neg (not_not_intro haccepts.1), if_neg haccepts.2,
      run_bind_ok (run_ofExcept (run_code hadd) c)]
    dsimp only
    rw [run_set_bind, run_bind_ok (run_ofExcept hgraph _)]
    dsimp only [Option.getD_some]
    rw [run_bind_ok hlog, run_bind_ok (run_ofExcept hrun₄ _),
      run_bind_ok (run_ofExcept (run_code hflush) _)]
    rfl
  · change f₅.header = { c.vecfile.header with
      entryPoint := some v
      maxLayer := layer
      freeListHead := f₄.header.freeListHead
      freeListLen := f₄.header.freeListLen
      graphDataLen := c.vecfile.header.graphDataLen + graphRecordSize layer c.vecfile.header.m }
    rw [hf₅, hheader₄]
    conv_lhs => rw [hheader, hcount]
    conv_rhs => rw [hheader]

/-- A collection of one node, which is freed, with records of `len` bytes. -/
structure Idle (c : VectorCollection) (len : ℕ) : Prop where
  inv : CollectionInv c
  dims : c.vecfile.header.dimensions = 1
  m : c.vecfile.header.m = 2
  cap : c.vecfile.header.nodeCapacity = 1024
  count : c.vecfile.header.nodeCount = 1
  head : c.vecfile.header.freeListHead = some 0
  entry : c.vecfile.header.entryPoint = none
  unmapped : 1 ∉ c.rowidToNode
  len : c.vecfile.header.graphDataLen = len

theorem Idle.accepts {len : ℕ} (h : Idle c len) : c.Accepts 1 [0] := ⟨h.dims.symm, h.unmapped⟩

/-- The vector is inserted at a layer and deleted again. -/
def churn (layer : ℕ) : List VectorOp := [.insert 1 [0] layer, .delete 1]

/-- The vector is inserted and deleted `n` times, at the layers that are drawn. -/
def churns : (ℕ → ℕ) → ℕ → List VectorOp
  | _, 0 => []
  | layers, n + 1 => churn (layers 0) ++ churns (fun i => layers (i + 1)) n

/-- The records of the layers that are drawn for `m = 2`. -/
theorem graphRecordSize_two {layer : ℕ} (h : layer ≤ 16) :
    24 ≤ graphRecordSize layer 2 ∧ graphRecordSize layer 2 ≤ 216 := by
  have hlow : graphRecordSize 0 2 ≤ graphRecordSize layer 2 := layerOffset_mono (by omega)
  have hhigh : graphRecordSize layer 2 ≤ graphRecordSize 16 2 := layerOffset_mono (by omega)
  exact ⟨hlow, hhigh⟩

theorem graphDataPreallocated_two : graphDataPreallocated 1024 2 = 221184 := by decide

/-- Behind the region there is room in the file for one more record, over the flags. -/
theorem Idle.insert_runs {len layer : ℕ} (h : Idle c len) (hlen : len ≤ 221184)
    (hlayer : layer ≤ 16) : ∃ c',
    insert Access.code noDistance .inOrder 1 [0] layer c = .ok 0 c' ∧
      c'.vecfile.header = { c.vecfile.header with
        entryPoint := some 0
        maxLayer := layer
        freeListHead := c'.vecfile.header.freeListHead
        freeListLen := c'.vecfile.header.freeListLen
        graphDataLen := len + graphRecordSize layer 2 } ∧
      EmptyRecord c'.vecfile 0 layer := by
  obtain ⟨hlayout, ⟨free, hfree⟩, -⟩ := h.inv.graph
  have hsize := (graphRecordSize_two hlayer).2
  have hinside : c.vecfile.graphStart + c.vecfile.header.graphDataLen +
      graphRecordSize layer c.vecfile.header.m ≤ c.vecfile.mem.size := by
    rw [hlayout.shape.size, flagsStart_eq, h.len, h.cap, h.m, graphDataPreallocated_two]
    omega
  obtain ⟨c', hrun, hheader, hempty⟩ := @insert_alone noDistance .inOrder c free 1 [0] 0 layer
    hlayout hfree h.head h.entry h.accepts (by decide) hinside
  rw [h.len, h.m] at hheader
  exact ⟨c', hrun, hheader, hempty⟩

/-- **Inserting and deleting the vector adds one more record.** -/
theorem Idle.next {len layer : ℕ} (h : Idle c len) (hlayer : layer ≤ 16)
    (hlen : len + graphRecordSize layer 2 ≤ 221184) :
    ∃ c', c.after noDistance .inOrder (churn layer) = some c' ∧
      Idle c' (len + graphRecordSize layer 2) := by
  obtain ⟨c₁, hrun₁, hheader₁, hempty₁⟩ := h.insert_runs (by omega) hlayer
  have hfits : c.vecfile.InsertFits layer := by
    refine ⟨fun v hv => ⟨fun l n hon hne _ => ?_, fun hep => ?_⟩, ?_⟩
    · rw [h.head] at hv
      cases hv
      have hlt : n < c.vecfile.header.nodeCount := hon.1
      rw [h.count] at hlt
      omega
    · rw [h.entry] at hep
      exact nomatch hep
    · have hnext := VectorOp.nextCapacity_of_freed (f := c.vecfile)
        (by rw [h.head]; exact Option.some_ne_none 0)
      unfold HasRoom
      rw [hnext, h.len, h.cap, h.m, graphDataPreallocated_two]
      exact hlen
  -- the insertion returned, so of the three ends of `insert_ok` only the last is left
  obtain ⟨hinv₁, hrowids⟩ : CollectionInv c₁ ∧ c₁.rowidToNode = c.rowidToNode.insert 1 0 := by
    rcases @insert_ok _ _ _ 1 [0] layer noDistance .inOrder Access.code_sound h.inv
      (by omega) fun _ _ => hfits with ⟨-, e, herr⟩ | hover | ⟨v, c', hok, hins⟩
    · rw [hrun₁] at herr
      cases herr
    · rw [hrun₁] at hover
      cases hover
    · rw [hrun₁] at hok
      cases hok
      exact ⟨hins.inv, hins.rowids⟩
  have hlookup : c₁.rowidToNode.lookup 1 = some 0 := by
    rw [hrowids]
    exact AList.lookup_insert _
  -- the node is the entry point and its list is empty, so no other takes its place
  have hwithout : c₁.vecfile.entryWithout 0 = none := by
    unfold VecFile.entryWithout
    rw [hheader₁, if_pos rfl, hempty₁.listOf (Nat.zero_le _)]
    rfl
  have hdelete : ∀ v, c₁.rowidToNode.lookup 1 = some v → c₁.vecfile.DeleteFits v := by
    intro v hv n _ hn
    rw [hlookup] at hv
    cases hv
    rw [hwithout] at hn
    exact nomatch hn
  rcases delete_ok Access.code_sound hinv₁ hdelete with ⟨e, herr⟩ | ⟨v, c₂, hok, hdel⟩
  · have hno := ((VectorCollection.wp_delete hinv₁.maps).error herr e rfl).1
    rw [AList.lookup_eq_none.mpr hno] at hlookup
    exact nomatch hlookup
  obtain rfl : v = 0 := by
    have hwas := hdel.was
    rw [hlookup] at hwas
    exact (Option.some.inj hwas).symm
  refine ⟨c₂, ?_, hdel.inv, ?_, ?_, ?_, ?_, ?_, ?_, ?_, ?_⟩
  · exact VectorCollection.after_cons.mpr ⟨c₁, VectorOp.run_discard_ok hrun₁,
      VectorCollection.after_cons.mpr ⟨c₂, hok, rfl⟩⟩
  · rw [hdel.header, hheader₁]
    exact h.dims
  · rw [hdel.header, hheader₁]
    exact h.m
  · rw [hdel.header, hheader₁]
    exact h.cap
  · rw [hdel.header, hheader₁]
    exact h.count
  · rw [hdel.header]
  · rw [hdel.header]
    exact hwithout
  · rw [hdel.rowids]
    exact AList.lookup_eq_none.mp (AList.lookup_erase _ _)
  · rw [hdel.header, hheader₁]

end VectorCollection

open VectorCollection

/-- The vector is inserted and deleted for the first time. -/
theorem newVectors_churn :
    ∃ c, (newVectors 2).after noDistance .inOrder (churn 1) = some c ∧ Idle c 36 := by
  have hcreate : VectorCollection.create ⟨1, .euclidean, 2, 10⟩ none VectorWal.zeroNonces =
    .ok (newVectors 2) := rfl
  have heval : ((newVectors 2).after noDistance .inOrder [.insert 1 [0] 1]).any (fun c =>
        c.rowidToNode.lookup 1 = some 0 ∧ c.vecfile.entryWithout 0 = none) = true ∧
      ((newVectors 2).after noDistance .inOrder (churn 1)).any (fun c =>
        c.vecfile.header.dimensions = 1 ∧ c.vecfile.header.m = 2 ∧
          c.vecfile.header.nodeCapacity = 1024 ∧ c.vecfile.header.nodeCount = 1 ∧
          c.vecfile.header.freeListHead = some 0 ∧ c.vecfile.header.entryPoint = none ∧
          1 ∉ c.rowidToNode ∧ c.vecfile.header.graphDataLen = 36) = true := by
    decide +kernel
  obtain ⟨heval₁, heval₂⟩ := heval
  cases hafter : (newVectors 2).after noDistance .inOrder (churn 1) with
  | none =>
      rw [hafter] at heval₂
      cases heval₂
  | some c =>
      rw [hafter, Option.any_some, decide_eq_true_eq] at heval₂
      obtain ⟨hdims, hm, hcap, hcount, hhead, hentry, hunmapped, hlen⟩ := heval₂
      obtain ⟨c₁, hrun₁, hrest⟩ := VectorCollection.after_cons.mp hafter
      obtain ⟨c₂, hrun₂, hnil⟩ := VectorCollection.after_cons.mp hrest
      obtain rfl : c₂ = c := Option.some.inj hnil
      rw [VectorCollection.after_cons.mpr ⟨c₁, hrun₁, rfl⟩, Option.any_some,
        decide_eq_true_eq] at heval₁
      have hfits₁ : VectorOp.Fits (newVectors 2) (.insert 1 [0] 1) := fun _ _ =>
        .of_new rfl (by decide)
      have hfits₂ : VectorOp.Fits c₁ (.delete 1) := by
        intro v hv n _ hn
        rw [heval₁.1] at hv
        cases hv
        rw [heval₁.2] at hn
        exact nomatch hn
      have hfirst : VectorRun noDistance .inOrder (fun c op => op.Fits c) (newVectors 2) c₁ :=
        .step .start (by decide) hfits₁ (Or.inl ⟨_, hrun₁⟩)
      have hsecond := hfirst.step (by decide) hfits₂ (Or.inl ⟨_, hrun₂⟩)
      exact ⟨c₂, rfl, hsecond.inv (VectorCollection.create_inv hcreate), hdims, hm, hcap, hcount,
        hhead, hentry, hunmapped, hlen⟩

/-- **Whatever layers are drawn, the records do not fit for ever**: each pair of calls leaves at
least 24 bytes behind. -/
theorem VectorCollection.Idle.overruns {len : ℕ} (h : Idle c len) (hlen : len ≤ 221184)
    (layers : ℕ → ℕ) (hlayers : ∀ i, layers i ≤ 16) : ∃ n c', len + 24 * n ≤ 221184 ∧
      c.after noDistance .inOrder (churns layers n ++ [.insert 1 [0] (layers n)]) = some c' ∧
      graphDataPreallocated c'.vecfile.header.nodeCapacity c'.vecfile.header.m <
        c'.vecfile.header.graphDataLen := by
  -- by induction on the bytes that are left
  induction hleft : 221184 - len using Nat.strong_induction_on generalizing c len layers with
  | _ left ih =>
      have hsize := graphRecordSize_two (hlayers 0)
      by_cases hroom : len + graphRecordSize (layers 0) 2 ≤ 221184
      · obtain ⟨c₁, hafter₁, hidle⟩ := h.next (hlayers 0) hroom
        obtain ⟨n, c', hn, hafter, hover⟩ := ih _ (by omega) hidle hroom (fun i => layers (i + 1))
          (fun i => hlayers (i + 1)) rfl
        refine ⟨n + 1, c', by omega, ?_, hover⟩
        rw [churns, List.append_assoc]
        exact VectorCollection.after_append hafter₁ hafter
      · obtain ⟨c', hinsert, hheader, -⟩ := h.insert_runs hlen (hlayers 0)
        refine ⟨0, c', by omega, ?_, ?_⟩
        · exact VectorCollection.after_cons.mpr ⟨c', VectorOp.run_discard_ok hinsert, rfl⟩
        · rw [hheader]
          dsimp only
          rw [h.cap, h.m, graphDataPreallocated_two]
          omega

/-- **The churn of one vector in a new collection**, with the layer that is drawn first and any
layers after it: at most 9215 pairs of calls go through before an insertion breaks the bound. -/
theorem newVectors_overruns {layers : ℕ → ℕ} (hfirst : layers 0 = 1)
    (hlayers : ∀ i, layers i ≤ 16) : ∃ n c, n ≤ 9215 ∧
      (newVectors 2).after noDistance .inOrder
        (churns layers n ++ [.insert 1 [0] (layers n)]) = some c ∧
      graphDataPreallocated c.vecfile.header.nodeCapacity c.vecfile.header.m <
        c.vecfile.header.graphDataLen := by
  obtain ⟨c₁, hafter₁, hidle⟩ := newVectors_churn
  obtain ⟨n, c, hn, hafter, hover⟩ := hidle.overruns (by decide) (fun i => layers (i + 1))
    fun i => hlayers (i + 1)
  refine ⟨n + 1, c, by omega, ?_, hover⟩
  rw [churns, hfirst, List.append_assoc]
  exact VectorCollection.after_append hafter₁ hafter

/-- The layers of the calls. -/
theorem layer_le_of_mem_churns {layers : ℕ → ℕ} (hlayers : ∀ i, layers i ≤ 16) {n : ℕ}
    {op : VectorOp} (hop : op ∈ churns layers n ++ [.insert 1 [0] (layers n)]) : op.layer ≤ 16 := by
  induction n generalizing layers with
  | zero =>
      rw [churns, List.nil_append, List.mem_singleton] at hop
      subst hop
      exact hlayers 0
  | succ n ih =>
      rw [churns, List.append_assoc, List.mem_append] at hop
      rcases hop with hop | hop
      · rcases List.mem_pair.mp hop with rfl | rfl
        · exact hlayers 0
        · exact Nat.zero_le _
      · exact ih (fun i => hlayers (i + 1)) hop

/-- **In a run whose calls find room, the graph region holds every record, and the record that
is written next.**  The first call that does not find room and returns breaks the bound. -/
theorem RecordRun.stays_in_region {options : VectorCollectionOptions} {cipher : Option Aes256Gcm}
    {nonces : ℕ → Nonce} (hcreate : VectorCollection.create options cipher nonces = .ok c₀)
    (hrun : RecordRun distanceFn order (fun c op => op.FindsRoom c) c₀ c records) :
    StaysInRegion (fun c op => op.FindsRoom c) c records ∧
      ∀ (op : VectorOp) (c' : VectorCollection), op.layer ≤ 16 →
        ReturnsTo (op.run Access.code distanceFn order) c c' →
          (c'.vecfile.header.graphDataLen ≤
            graphDataPreallocated c'.vecfile.header.nodeCapacity c'.vecfile.header.m ↔
              op.FindsRoom c) := by
  obtain ⟨hmaps₀, hregion₀⟩ := VectorCollection.create_region hcreate
  obtain ⟨hmaps, hregion⟩ := hrun.region hmaps₀ hregion₀
  refine ⟨hregion.staysInRegion hmaps, fun op c' _ hreturns => ?_⟩
  obtain ⟨-, f, hmoves⟩ := VectorOp.run_moves hmaps hregion.shape hreturns
  exact hmoves.bound_iff hregion.shape

/-- A vector that is inserted and deleted again. -/
theorem RecordRun.stays_in_region_churn : ∃ c records,
    (newVectors 2).after noDistance .inOrder (churn 1) = some c ∧
      StaysInRegion (fun c op => op.FindsRoom c) c records ∧
      ∀ (op : VectorOp) (c' : VectorCollection), op.layer ≤ 16 →
        ReturnsTo (op.run Access.code noDistance .inOrder) c c' →
          (c'.vecfile.header.graphDataLen ≤
            graphDataPreallocated c'.vecfile.header.nodeCapacity c'.vecfile.header.m ↔
              op.FindsRoom c) := by
  have hcreate : VectorCollection.create ⟨1, .euclidean, 2, 10⟩ none VectorWal.zeroNonces =
    .ok (newVectors 2) := rfl
  obtain ⟨c, hafter, -⟩ := newVectors_churn
  obtain ⟨c₁, hrun₁, hrest⟩ := VectorCollection.after_cons.mp hafter
  obtain ⟨c₂, hrun₂, hnil⟩ := VectorCollection.after_cons.mp hrest
  obtain rfl : c₂ = c := Option.some.inj hnil
  have hroom : VectorOp.FindsRoom (newVectors 2) (.insert 1 [0] 1) := fun _ => by decide
  have hfirst : RecordRun noDistance .inOrder (fun c op => op.FindsRoom c) (newVectors 2) c₁ _ :=
    .step .start (by decide) hroom (Or.inl ⟨_, hrun₁⟩)
  have hlayer : (VectorOp.delete 1).layer ≤ 16 := Nat.zero_le _
  have hsecond := hfirst.step hlayer trivial (Or.inl ⟨_, hrun₂⟩)
  exact ⟨c₂, _, hafter, RecordRun.stays_in_region hcreate hsecond⟩

/-- One vector is inserted and deleted again until the record of an insertion lies behind the
graph region, over the flags. -/
theorem not_stays_in_region_always : ¬ ∀ (options : VectorCollectionOptions)
    (cipher : Option Aes256Gcm) (nonces : ℕ → Nonce) (c₀ c : VectorCollection)
    (records : List (ℕ × ℕ)), VectorCollection.create options cipher nonces = .ok c₀ →
      RecordRun noDistance .inOrder (fun _ _ => True) c₀ c records →
        StaysInRegion (fun _ _ => True) c records := by
  intro h
  have hlayers : ∀ i, (fun _ : ℕ => 1) i ≤ 16 := fun _ => Nat.le_of_ble_eq_true rfl
  obtain ⟨n, c, -, hafter, hover⟩ := newVectors_overruns rfl hlayers
  obtain ⟨records, hrun⟩ :=
    RecordRun.of_after .start (fun _ => layer_le_of_mem_churns hlayers) hafter
  have hbound := (h ⟨1, .euclidean, 2, 10⟩ none VectorWal.zeroNonces _ c records rfl hrun).bound
  exact absurd hover (Nat.not_lt.mpr hbound)

end BoogyDb
