import BoogyDb.VectorEntry
import BoogyDb.VectorNodes

/-!
# The records of a vector file

Every insertion appends a record to the graph region, and no record is ever taken back: a node
that was freed gets a new record when it is used again.

`KeepsIndex` says that an operation leaves the records where they are and `Appends` that it
appends one.  They are about sizes and the node index only, so they hold whatever the lists of
neighbors have done to the records themselves (`wp_insert_appends`, `wp_delete_keeps`).
-/

namespace BoogyDb

open Bytes Memory Wp Except VecFile

namespace VecFile

variable {f f' f'' : VecFile} {n v layer : ℕ} {used : ℕ → Prop}

/-! ## What keeps the index -/

/-- The regions are in the same places, and the records too. -/
structure KeepsIndex (f f' : VecFile) : Prop where
  shape : SameShape f f'
  size : f'.mem.size = f.mem.size
  count : f'.header.nodeCount = f.header.nodeCount
  len : f'.header.graphDataLen = f.header.graphDataLen
  index : ∀ n < f.header.nodeCapacity, f'.recordOf n = f.recordOf n

theorem KeepsIndex.refl (f : VecFile) : KeepsIndex f f :=
  ⟨⟨rfl, rfl, rfl⟩, rfl, rfl, rfl, fun _ _ => rfl⟩

theorem KeepsIndex.trans (h : KeepsIndex f f') (h' : KeepsIndex f' f'') : KeepsIndex f f'' where
  shape := ⟨h'.shape.dimensions.trans h.shape.dimensions, h'.shape.m.trans h.shape.m,
    h'.shape.nodeCapacity.trans h.shape.nodeCapacity⟩
  size := h'.size.trans h.size
  count := h'.count.trans h.count
  len := h'.len.trans h.len
  index n hn := (h'.index n (h.shape.nodeCapacity ▸ hn)).trans (h.index n hn)

theorem Shape.of_keeps (hf : Shape f) (h : KeepsIndex f f') : Shape f' where
  dims_pos := h.shape.dimensions ▸ hf.dims_pos
  m_pos := h.shape.m ▸ hf.m_pos
  m_le := h.shape.m ▸ hf.m_le
  cap_pos := h.shape.nodeCapacity ▸ hf.cap_pos
  cap_lt := h.shape.nodeCapacity ▸ hf.cap_lt
  count_le := by
    rw [h.count, h.shape.nodeCapacity]
    exact hf.count_le
  size := by rw [h.size, hf.size, h.shape.flagsStart, h.shape.nodeCapacity]
  graph_le := by
    rw [h.len, h.shape.nodeCapacity, h.shape.m]
    exact hf.graph_le

/-- **A write before or behind the node index keeps it.** -/
theorem store_index {off : ℕ} {src : List UInt8}
    (hwhere : f.graphStart ≤ off ∨ off + src.length ≤ f.indexStart) :
    Good NotError (KeepsIndex f) (f.store off src) := by
  refine store_good fun f' hw => ?_
  refine ⟨hw.shape, hw.size, by rw [hw.header], by rw [hw.header], fun n hn => hw.recordOf ?_⟩
  have hentry := nodeIndexEntryOffset_eq f n
  have hin := Shape.index_le hn
  rcases hwhere with hbehind | hbefore
  · exact Or.inl (by omega)
  · exact Or.inr (by omega)

theorem setDeleted_index (n : ℕ) (b : Bool) : Good NotError (KeepsIndex f) (f.setDeleted n b) := by
  apply store_index
  have hgraph := Shape.graph_le_flags f
  rw [deletedFlagOffset_eq]
  exact Or.inl (by omega)

theorem writeVector_index (hv : v < f.header.nodeCapacity) (vector : List UInt32) :
    Good NotError (KeepsIndex f) (f.writeVector v vector) := by
  unfold writeVector
  refine good_ite (fun _ => notError_panic) fun hlen => ?_
  rw [not_not] at hlen
  apply store_index
  rw [length_wordsBytes, List.length_map, hlen]
  exact Or.inr (slot_le hv)

theorem flush_index (f : VecFile) :
    Good NotError (fun f' => KeepsIndex f f' ∧ f'.header = f.header) f.flush := by
  have hheader : vecHeaderSize ≤ f.indexStart := Nat.le_add_right _ _
  have hfits : offDimensions + f.headerBytes.length ≤ vecHeaderSize := by
    rw [length_headerBytes]
    decide
  exact (store_index (Or.inr (hfits.trans hheader))).and (store_good fun _ hw => hw.header)

theorem writeNeighbors_index (n layer : ℕ) (neighbors : List ℕ) :
    Good NotError (KeepsIndex f) (f.writeNeighbors n layer neighbors) := by
  have hentry : Good NotError (fun _ => True) (f.graphRecordOffset n) := by
    unfold graphRecordOffset readU64At
    split
    · trivial
    · exact notError_panic
  unfold writeNeighbors
  refine hentry.bind fun record _ => ?_
  cases record with
  | none => exact .refl f
  | some recordOff =>
      apply store_index
      exact Or.inl ((Nat.le_add_right _ recordOff).trans (Nat.le_add_right _ _))

theorem freeNode_index (hdims : 0 < f.header.dimensions) (hv : v < f.header.nodeCapacity) :
    Good NotError (fun f' => KeepsIndex f f' ∧ f'.header.freeListHead = some v) (f.freeNode v) := by
  have hslot := slot_le hv
  unfold freeNode
  dsimp only
  refine (store_index (Or.inr ?_)).bind fun f₁ h₁ => ?_
  · rw [length_leBytes]
    omega
  refine (setDeleted_index v true).bind fun f₂ h₂ => good_ite (fun _ => notError_overflow) fun _ => ?_
  obtain ⟨hshape, hsize, hcount, hlen, hindex⟩ := h₁.trans h₂
  exact ⟨⟨⟨hshape.dimensions, hshape.m, hshape.nodeCapacity⟩, hsize, hcount, hlen, hindex⟩, rfl⟩

/-! ## Appending a record -/

/-- What becomes of the index when a node is allocated. -/
structure TakesNode (f f' : VecFile) (v : ℕ) : Prop where
  shape : Shape f'
  dims : f'.header.dimensions = f.header.dimensions
  m : f'.header.m = f.header.m
  cap : f'.header.nodeCapacity = f.nextCapacity
  len : f'.header.graphDataLen = f.header.graphDataLen
  lt : v < f'.header.nodeCount
  counted : ∀ n < f'.header.nodeCount, n ≠ v → n < f.header.nodeCount
  index : ∀ n < f.header.nodeCount, n ≠ v → f'.recordOf n = f.recordOf n

/-- A freed node is taken. -/
theorem allocateNode_head_index (hf : Shape f) (hhead : f.header.freeListHead = some v)
    (hv : v < f.header.nodeCount) :
    Good NotError (fun r => TakesNode f r.2 r.1) f.allocateNode := by
  have hcap := hv.trans_le hf.count_le
  have hnext : f.nextCapacity = f.header.nodeCapacity := by
    unfold nextCapacity
    rw [hhead, if_neg (fun h => nomatch h.1)]
  unfold allocateNode
  rw [hhead]
  dsimp only
  have hread : Good NotError (fun _ => True) (f.readU32At (f.slotOffset v)) := by
    unfold readU32At
    exact good_ite (fun _ => trivial) fun _ => notError_panic
  refine hread.bind fun raw _ => good_ite (fun _ => notError_overflow) fun _ => ?_
  set f₁ : VecFile := { f with
    header.freeListHead := optionU32 raw
    header.freeListLen := f.header.freeListLen - 1 } with hf₁
  have h₁ : KeepsIndex f f₁ := ⟨⟨rfl, rfl, rfl⟩, rfl, rfl, rfl, fun _ _ => rfl⟩
  refine (setDeleted_index v false).bind fun f₂ h₂ => ?_
  have hkeeps := h₁.trans h₂
  have hcap₂ : v < f₂.header.nodeCapacity := hkeeps.shape.nodeCapacity ▸ hcap
  obtain ⟨f₃, hrun, hheader, hshape, -, -, hparts⟩ :=
    @setGraphRecordOffset_ok f₂ v (hf.of_keeps hkeeps) hcap₂ noneU64 (by decide)
  rw [hrun]
  refine ⟨hshape, ?_, ?_, ?_, ?_, ?_, fun n hn _ => ?_, fun n hn hne => ?_⟩
  · rw [hheader, hkeeps.shape.dimensions]
  · rw [hheader, hkeeps.shape.m]
  · rw [hheader, hkeeps.shape.nodeCapacity, hnext]
  · rw [hheader, hkeeps.len]
  · rw [hheader, hkeeps.count]
    exact hv
  · rwa [hheader, hkeeps.count] at hn
  · have hncap := hn.trans_le hf.count_le
    have hsame := (hparts n (hkeeps.shape.nodeCapacity ▸ hncap)).2.2.2 hne
    exact hsame.record.trans (hkeeps.index n hncap)

/-- A new node is counted. -/
theorem allocateNode_new_index (hf : Shape f) (hhead : f.header.freeListHead = none) :
    Good NotError (fun r => TakesNode f r.2 r.1) f.allocateNode := by
  have hroom : Good NotError (fun f' => Shape f' ∧
      f'.header = { f.header with nodeCapacity := f.nextCapacity } ∧
      f.header.nodeCount < f'.header.nodeCapacity ∧
      ∀ n < f.header.nodeCapacity, f'.recordOf n = f.recordOf n) f.makeRoom := by
    unfold makeRoom
    refine good_ite (fun hfull => ?_) fun hfull => ?_
    · have hnext : f.nextCapacity = f.header.nodeCapacity * 2 := if_pos ⟨hhead, hfull⟩
      by_cases hlt : f.header.nodeCapacity * 2 < 2 ^ 32
      · obtain ⟨f₁, hrun, hgrows, hindex⟩ := grow_ok hf hlt
        have hpos := hf.cap_pos
        have hle := hf.count_le
        rw [hrun]
        refine ⟨hgrows.shape, hnext ▸ hgrows.header, ?_, hindex⟩
        rw [hgrows.header]
        dsimp only
        omega
      · unfold grow
        dsimp only
        rw [if_pos (Nat.le_of_not_lt hlt)]
        exact notError_overflow
    · have hnext : f.nextCapacity = f.header.nodeCapacity := if_neg fun h => hfull h.2
      exact ⟨hf, by rw [hnext], Nat.lt_of_not_le hfull, fun _ _ => rfl⟩
  unfold allocateNode
  rw [hhead]
  dsimp only
  refine hroom.bind fun f₁ ⟨hshape, hheader, hlt, hindex⟩ => good_ite (fun _ => notError_overflow)
    fun _ => ?_
  have hcount : f₁.header.nodeCount = f.header.nodeCount := by rw [hheader]
  refine ⟨?_, ?_, ?_, ?_, ?_, Nat.lt_succ_self _, fun n hn hne => ?_, fun n hn _ => ?_⟩
  · exact ⟨hshape.dims_pos, hshape.m_pos, hshape.m_le, hshape.cap_pos, hshape.cap_lt,
      by rw [hcount]; exact hlt, hshape.size, hshape.graph_le⟩
  · change f₁.header.dimensions = _
    rw [hheader]
  · change f₁.header.m = _
    rw [hheader]
  · change f₁.header.nodeCapacity = _
    rw [hheader]
  · change f₁.header.graphDataLen = _
    rw [hheader]
  · have hn : n < f₁.header.nodeCount + 1 := hn
    have hne : n ≠ f₁.header.nodeCount := hne
    omega
  · exact hindex n (hn.trans_le hf.count_le)

/-- **The node that is allocated has an index entry of its own.** -/
theorem allocateNode_index (hf : Shape f) (hnodes : NodesInv f used) :
    Good NotError (fun r => TakesNode f r.2 r.1) f.allocateNode := by
  cases hhead : f.header.freeListHead with
  | none => exact allocateNode_new_index hf hhead
  | some v =>
      obtain ⟨free, hchain, -, hfree⟩ := hnodes.free
      rw [hhead] at hchain
      cases hchain with
      | cons _ => exact allocateNode_head_index hf hhead (hfree v List.mem_cons_self).1

/-- What becomes of the index when a record is appended for a node. -/
structure Appends (f f' : VecFile) (v layer : ℕ) : Prop where
  dims : f'.header.dimensions = f.header.dimensions
  m : f'.header.m = f.header.m
  cap : f'.header.nodeCapacity = f.nextCapacity
  len : f'.header.graphDataLen = f.header.graphDataLen + graphRecordSize layer f.header.m
  size : f'.mem.size = f'.flagsStart + f'.header.nodeCapacity
  count_le : f'.header.nodeCount ≤ f'.header.nodeCapacity
  cap_lt : f'.header.nodeCapacity < 2 ^ 32
  recordOf : f'.recordOf v = f.header.graphDataLen
  counted : ∀ n < f'.header.nodeCount, n ≠ v → n < f.header.nodeCount
  index : ∀ n < f.header.nodeCount, n ≠ v → f'.recordOf n = f.recordOf n

theorem Appends.keeps (h : Appends f f' v layer) (h' : KeepsIndex f' f'')
    (hle : f.header.nodeCount ≤ f'.header.nodeCapacity) (hv : v < f'.header.nodeCapacity) :
    Appends f f'' v layer where
  dims := h'.shape.dimensions.trans h.dims
  m := h'.shape.m.trans h.m
  cap := h'.shape.nodeCapacity.trans h.cap
  len := h'.len.trans h.len
  size := by rw [h'.size, h.size, h'.shape.flagsStart, h'.shape.nodeCapacity]
  count_le := by
    rw [h'.count, h'.shape.nodeCapacity]
    exact h.count_le
  cap_lt := h'.shape.nodeCapacity ▸ h.cap_lt
  recordOf := (h'.index v hv).trans h.recordOf
  counted n hn hne := h.counted n (h'.count ▸ hn) hne
  index n hn hne := (h'.index n (hn.trans_le hle)).trans (h.index n hn hne)

/-- The record is written behind the others, whether or not the region has room for it. -/
theorem allocateGraphRecord_index (hf : Shape f) (hv : v < f.header.nodeCapacity) (layer : ℕ) :
    Good NotError (fun f' => SameShape f f' ∧ f'.mem.size = f.mem.size ∧
      f'.header.nodeCount = f.header.nodeCount ∧
      f'.header.graphDataLen = f.header.graphDataLen + graphRecordSize layer f.header.m ∧
      f'.recordOf v = f.header.graphDataLen ∧
      ∀ n < f.header.nodeCapacity, n ≠ v → f'.recordOf n = f.recordOf n)
      (f.allocateGraphRecord v layer) := by
  have hlen := preallocated_lt hf.cap_lt hf.m_le
  have hle := hf.graph_le
  unfold allocateGraphRecord
  dsimp only
  refine (store_index (Or.inl (Nat.le_add_right _ _))).bind fun f₁ h₁ => ?_
  have hv₁ : v < f₁.header.nodeCapacity := h₁.shape.nodeCapacity ▸ hv
  obtain ⟨f₂, hrun, hheader, -, hself, hw, hparts⟩ :=
    @setGraphRecordOffset_ok f₁ v (hf.of_keeps h₁) hv₁ f.header.graphDataLen (by omega)
  rw [hrun]
  refine ⟨⟨?_, ?_, ?_⟩, hw.size.trans h₁.size, ?_, ?_, hself, fun n hn hne => ?_⟩
  · change f₂.header.dimensions = _
    rw [hheader, h₁.shape.dimensions]
  · change f₂.header.m = _
    rw [hheader, h₁.shape.m]
  · change f₂.header.nodeCapacity = _
    rw [hheader, h₁.shape.nodeCapacity]
  · change f₂.header.nodeCount = _
    rw [hheader, h₁.count]
  · change f.header.graphDataLen + graphRecordSize layer f₂.header.m = _
    rw [hheader, h₁.shape.m]
  · have hsame := (hparts n (h₁.shape.nodeCapacity ▸ hn)).2.2.2 hne
    exact hsame.record.trans (h₁.index n hn)

/-- There is a place for each counted node. -/
theorem Shape.count_le_next (hf : Shape f) : f.header.nodeCount ≤ f.nextCapacity := by
  have hle := hf.count_le
  unfold nextCapacity
  split <;> omega

end VecFile

namespace VectorCollection

variable {c c' : VectorCollection} {f : VecFile} {rowid : UInt64} {vector : List UInt32}
  {v layer : ℕ} {used : ℕ → Prop}
  {distanceFn : DistanceMetric → List UInt32 → List UInt32 → UInt32} {order : HeapOrder}

/-- **A node that is added gets a record behind the others.** -/
theorem addNode_index (hf : Shape f) (hnodes : NodesInv f used) (vector : List UInt32) (layer : ℕ) :
    Good NotError (fun r => VecFile.Appends f r.2 r.1 layer ∧ r.1 < r.2.header.nodeCapacity)
      (addNode f vector layer) := by
  unfold addNode
  refine (allocateNode_index hf hnodes).bind fun r htakes => ?_
  obtain ⟨v, f₁⟩ := r
  dsimp only at htakes ⊢
  have hcap₁ : v < f₁.header.nodeCapacity := htakes.lt.trans_le htakes.shape.count_le
  refine (writeVector_index hcap₁ vector).bind fun f₂ h₂ => ?_
  have hshape₂ := htakes.shape.of_keeps h₂
  have hcap₂ : v < f₂.header.nodeCapacity := h₂.shape.nodeCapacity ▸ hcap₁
  refine (allocateGraphRecord_index hshape₂ hcap₂ layer).bind
    fun f₃ ⟨hshape, hsize, hcount, hlen, hself, hindex⟩ => ?_
  have hcap₃ : f₃.header.nodeCapacity = f₁.header.nodeCapacity :=
    hshape.nodeCapacity.trans h₂.shape.nodeCapacity
  have hcount₃ : f₃.header.nodeCount = f₁.header.nodeCount := hcount.trans h₂.count
  refine ⟨⟨?_, ?_, hcap₃.trans htakes.cap, ?_, ?_, ?_, ?_, ?_, fun n hn hne => ?_,
    fun n hn hne => ?_⟩, hcap₃ ▸ hcap₁⟩
  · exact (hshape.dimensions.trans h₂.shape.dimensions).trans htakes.dims
  · exact (hshape.m.trans h₂.shape.m).trans htakes.m
  · rw [hlen, h₂.len, htakes.len, h₂.shape.m, htakes.m]
  · rw [hsize, hshape₂.size, hshape.flagsStart, hshape.nodeCapacity]
  · rw [hcount₃, hcap₃]
    exact htakes.shape.count_le
  · exact hcap₃ ▸ htakes.shape.cap_lt
  · rw [hself, h₂.len, htakes.len]
  · exact htakes.counted n (hcount₃ ▸ hn) hne
  · have hn₁ : n < f₁.header.nodeCapacity := by
      rw [htakes.cap]
      exact hn.trans_le hf.count_le_next
    calc f₃.recordOf n
        = f₂.recordOf n := hindex n (h₂.shape.nodeCapacity ▸ hn₁) hne
      _ = f₁.recordOf n := h₂.index n hn₁
      _ = f.recordOf n := htakes.index n hn hne

theorem applyConnections_index (f : VecFile) (connections : List Hnsw.Connection) :
    Good NotError (KeepsIndex f) (applyConnections Access.code f connections) := by
  unfold applyConnections
  refine good_foldlM (I := KeepsIndex f) _ (.refl f) fun f₁ c _ h₁ => ?_
  exact (writeNeighbors_index c.1 c.2.1 c.2.2).mono fun f₂ h₂ => h₁.trans h₂

/-- The log changes nothing else. -/
theorem wp_appendCommitted {entries : List VectorWal.WalEntry} {R : Unit → VectorCollection → Prop}
    (h : ∀ wal, R () { c with wal }) :
    wp (appendCommitted Access.code entries) R (fun _ _ => True) c := by
  unfold appendCommitted
  refine wp_get_bind.mpr ?_
  rw [wp_bind, code_run]
  cases c.wal.appendCommitted entries with
  | ok wal => exact h wal
  | error e => trivial

/-- **An insertion that returns has appended one record.** -/
theorem wp_insert_appends (hc : MapsInv c) (hf : Shape c.vecfile) :
    wp (insert Access.code distanceFn order rowid vector layer)
      (fun v c' => VecFile.Appends c.vecfile c'.vecfile v layer) (fun _ _ => True) c := by
  unfold insert
  refine wp_get_bind.mpr (wp_ite (fun _ => trivial) fun _ => wp_ite (fun _ => trivial) fun _ => ?_)
  rw [code_run]
  refine wp_ofExcept_bind (addNode_index hf hc.nodes vector layer) (fun _ _ => trivial)
    fun r hadded => ?_
  obtain ⟨v, f₁⟩ := r
  obtain ⟨happends, hv⟩ := hadded
  dsimp only at happends hv ⊢
  have hcount : c.vecfile.header.nodeCount ≤ f₁.header.nodeCapacity := by
    rw [happends.cap]
    exact hf.count_le_next
  rw [wp, run_set_bind, ← wp]
  refine wp_ofExcept_bind (Hnsw.insert_good (readsGood f₁) _ v layer _ _ _) (fun _ _ => trivial)
    fun result _ => ?_
  rw [wp_bind]
  refine wp_appendCommitted fun wal => ?_
  refine wp_ofExcept_bind (applyConnections_index f₁ _) (fun _ _ => trivial) fun f₂ h₂ => ?_
  rw [code_run]
  refine wp_ofExcept_bind (flush_index _) (fun _ _ => trivial) fun f₄ h₄ => ?_
  obtain ⟨hshape, hsize, hcount₂, hlen, hindex⟩ := h₂
  set f₃ : VecFile := { f₂ with
    header.entryPoint := some (result.newEntryPoint.getD (f₁.header.entryPoint.getD v))
    header.maxLayer := result.newMaxLayer.getD f₁.header.maxLayer } with hf₃
  have h₃ : KeepsIndex f₁ f₃ :=
    ⟨⟨hshape.dimensions, hshape.m, hshape.nodeCapacity⟩, hsize, hcount₂, hlen, hindex⟩
  exact happends.keeps (h₃.trans h₄.1) hcount hv

/-- **A deletion keeps the records**, and leaves a freed node. -/
theorem wp_delete_keeps (hc : MapsInv c) (hf : Shape c.vecfile) :
    wp (delete Access.code rowid) (fun _ c' => KeepsIndex c.vecfile c'.vecfile ∧
      c'.vecfile.header.freeListHead ≠ none) (fun _ _ => True) c := by
  unfold delete
  refine wp_get_bind.mpr ?_
  cases hlookup : c.rowidToNode.lookup rowid with
  | none => trivial
  | some v =>
      have hv := (hc.nodes.counted v ⟨rowid, (hc.inverse rowid v).mp hlookup⟩).trans_le hf.count_le
      dsimp only
      rw [wp, run_set_bind, ← wp]
      refine wp_ofExcept_bind (entryAfterDelete_good c.vecfile v) (fun _ _ => trivial)
        fun newEp _ => ?_
      rw [wp_bind]
      refine wp_appendCommitted fun wal => ?_
      rw [code_run]
      refine wp_ofExcept_bind (freeNode_index hf.dims_pos hv) (fun _ _ => trivial)
        fun f₁ hfreed => ?_
      obtain ⟨⟨hshape, hsize, hcount, hlen, hindex⟩, hhead₁⟩ := hfreed
      rw [code_run]
      refine wp_ofExcept_bind (flush_index _) (fun _ _ => trivial) fun f₃ hflushed => ?_
      obtain ⟨h₃, hheader₃⟩ := hflushed
      set f₂ : VecFile := { f₁ with header.entryPoint := newEp } with hf₂
      have h₂ : KeepsIndex c.vecfile f₂ :=
        ⟨⟨hshape.dimensions, hshape.m, hshape.nodeCapacity⟩, hsize, hcount, hlen, hindex⟩
      refine ⟨h₂.trans h₃, ?_⟩
      dsimp only
      rw [hheader₃]
      change f₁.header.freeListHead ≠ none
      rw [hhead₁]
      exact Option.some_ne_none v

end VectorCollection

end BoogyDb
