import BoogyDb.GraphRegion
import BoogyDb.HnswReads

/-!
# The freed nodes

The links of the free list lie in the vector slots, and the flags of the freed nodes behind the
graph region.  `FreedNodes` says that the free list names exactly the counted nodes that are not
in use, and that these are the nodes whose flag is set.

It does not need a sound graph.  The lists of neighbors are written where the index says, and the
record of the new node is the last one: a list on one of its layers, wherever the record of the
other node lies, ends before the graph data does (`writeNeighbors_flags`).  So as long as the graph
data stays in its region, no list is written over a flag.
-/

namespace BoogyDb

open Bytes Memory Wp Except VecFile

namespace VecFile

variable {f f' f'' : VecFile} {n v layer l : ℕ} {used : ℕ → Prop} {free : List ℕ}

/-! ## What keeps the flags -/

/-- The flags are the same, and the length of the free list. -/
structure KeepsFlags (f f' : VecFile) : Prop where
  len : f'.header.freeListLen = f.header.freeListLen
  flag : ∀ n < f.header.nodeCapacity, f'.deletedOf n = f.deletedOf n

theorem KeepsFlags.refl (f : VecFile) : KeepsFlags f f := ⟨rfl, fun _ _ => rfl⟩

/-- **A write before the flags keeps them.** -/
theorem store_flags {off : ℕ} {src : List UInt8} (hend : off + src.length ≤ f.flagsStart) :
    Good NotError (KeepsFlags f) (f.store off src) := by
  refine store_good fun f' hw => ⟨by rw [hw.header], fun n _ => hw.deletedOf ?_⟩
  rw [deletedFlagOffset_eq]
  exact Or.inr (by omega)

theorem writeVector_flags (hv : v < f.header.nodeCapacity) (vector : List UInt32) :
    Good NotError (KeepsFlags f) (f.writeVector v vector) := by
  have hslot := slot_le hv
  have hindex := Shape.index_le_graph f
  have hgraph := Shape.graph_le_flags f
  unfold writeVector
  refine good_ite (fun _ => notError_panic) fun hlen => ?_
  rw [not_not] at hlen
  apply store_flags
  rw [length_wordsBytes, List.length_map, hlen]
  omega

theorem flush_flags (f : VecFile) : Good NotError (KeepsFlags f) f.flush := by
  have hheader : vecHeaderSize ≤ f.indexStart := Nat.le_add_right _ _
  have hindex := Shape.index_le_graph f
  have hgraph := Shape.graph_le_flags f
  have hfits : offDimensions + f.headerBytes.length ≤ vecHeaderSize := by
    rw [length_headerBytes]
    decide
  exact store_flags (by omega)

/-- The record of the node is the last one, and the nodes that are not counted have none. -/
structure LastRecord (f : VecFile) (v layer : ℕ) : Prop where
  lt : v < f.header.nodeCapacity
  stop : f.recordOf v + graphRecordSize layer f.header.m ≤ f.header.graphDataLen
  last : ∀ n < f.header.nodeCount, f.recordOf n ≤ f.recordOf v
  unindexed : ∀ n, f.header.nodeCount ≤ n → n < f.header.nodeCapacity → f.recordOf n = noneU64

theorem LastRecord.keeps (h : LastRecord f v layer) (hkeeps : KeepsIndex f f')
    (hle : f.header.nodeCount ≤ f.header.nodeCapacity) : LastRecord f' v layer where
  lt := hkeeps.shape.nodeCapacity ▸ h.lt
  stop := by
    rw [hkeeps.index v h.lt, hkeeps.shape.m, hkeeps.len]
    exact h.stop
  last n hn := by
    rw [hkeeps.count] at hn
    rw [hkeeps.index n (hn.trans_le hle), hkeeps.index v h.lt]
    exact h.last n hn
  unindexed n hn hlt := by
    rw [hkeeps.count] at hn
    rw [hkeeps.shape.nodeCapacity] at hlt
    rw [hkeeps.index n hlt]
    exact h.unindexed n hn hlt

/-- **A list on a layer of the last record ends before the graph data does**, whichever node it is
written for. -/
theorem writeNeighbors_flags (hf : Shape f) (hlast : LastRecord f v layer)
    (hn : n < f.header.nodeCapacity) (hl : l ≤ layer) (neighbors : List ℕ) :
    Good NotError (KeepsFlags f) (f.writeNeighbors n l neighbors) := by
  have hin := Shape.index_le hn
  have hgraph := Shape.graph_le_flags f
  have hflags := hf.flags_le
  have hread : f.graphRecordOffset n =
      .ok (if f.recordOf n = noneU64 then none else some (f.recordOf n)) := by
    unfold graphRecordOffset readU64At
    rw [if_pos (by omega)]
    rfl
  unfold writeNeighbors
  rw [hread, ok_bind]
  -- a split on the `if` would evaluate the goal
  cases eq_or_ne (f.recordOf n) noneU64 with
  | inl hnone =>
      rw [if_pos hnone]
      exact .refl f
  | inr hnone =>
      rw [if_neg hnone]
      apply store_flags
      have hcount : n < f.header.nodeCount := by
        by_contra hle
        exact hnone (hlast.unindexed n (Nat.le_of_not_lt hle) hn)
      have hrecord := hlast.last n hcount
      have hstop := hlast.stop
      have hend := hf.graph_end_le
      have hentry := @layerEntry_le_size _ _ f.header.m hl
      have hstart : f.graphRecordAbsOffset (f.recordOf n) = f.graphStart + f.recordOf n := rfl
      have hbytes : (wordsBytes (neighborWords l f.header.m neighbors)).length =
          layerEntrySize l f.header.m := by
        rw [length_wordsBytes, length_neighborWords]
        unfold layerEntrySize
        omega
      rw [hbytes, hstart]
      omega

/-! ## The nodes that are not in use -/

/-- The free list names the counted nodes that are not in use, and their flags are set. -/
structure FreedNodes (f : VecFile) (used : ℕ → Prop) : Prop where
  free : ∃ free, FreeList f free
  flagged : ∀ n < f.header.nodeCapacity,
    f.deletedOf n = true ↔ n < f.header.nodeCount ∧ ¬ used n
  counted : ∀ n, used n → n < f.header.nodeCount
  unindexed : ∀ n, f.header.nodeCount ≤ n → n < f.header.nodeCapacity → f.recordOf n = noneU64

theorem FreedNodes.live (h : FreedNodes f used) (hf : Shape f) (hn : used n) : f.Live n := by
  have hlt := h.counted n hn
  refine ⟨hlt, ?_⟩
  cases hdel : f.deletedOf n with
  | false => rfl
  | true => exact absurd hn ((h.flagged n (hlt.trans_le hf.count_le)).mp hdel).2

/-- What keeps index, links and flags keeps the freed nodes. -/
theorem FreedNodes.keeps (h : FreedNodes f used) (hf : Shape f) (hindex : KeepsIndex f f')
    (hlinks : KeepsLinks f f' v) (hflags : KeepsFlags f f')
    (hv : v < f.header.nodeCount → used v) : FreedNodes f' used := by
  obtain ⟨⟨free, hfree⟩, hflagged, hcounted, hunindexed⟩ := h
  refine ⟨⟨free, hfree.congr hlinks.head hflags.len hindex.count (fun n hn => ?_) fun n hn => ?_⟩,
    fun n hn => ?_, fun n hn => ?_, fun n hle hlt => ?_⟩
  · obtain ⟨hlt, hdel⟩ := (hfree.mem n).mp hn
    have hcap := hlt.trans_le hf.count_le
    refine hlinks.link n hcap ?_
    rintro rfl
    exact ((hflagged n hcap).mp hdel).2 (hv hlt)
  · exact hflags.flag n (hn.trans_le hf.count_le)
  · rw [hindex.shape.nodeCapacity] at hn
    rw [hflags.flag n hn, hindex.count]
    exact hflagged n hn
  · rw [hindex.count]
    exact hcounted n hn
  · rw [hindex.count] at hle
    rw [hindex.shape.nodeCapacity] at hlt
    rw [hindex.index n hlt]
    exact hunindexed n hle hlt

/-- **A node that is freed is put on the free list.** -/
theorem FreedNodes.freeNode (h : FreedNodes f used) (hf : Shape f) (hv : used v) :
    Good NotError (fun f' => FreedNodes f' fun n => n ≠ v ∧ used n) (f.freeNode v) := by
  obtain ⟨free, hfree⟩ := h.free
  have hlive := h.live hf hv
  have hcap := hlive.1.trans_le hf.count_le
  have hcapLt := hf.cap_lt
  have hcountLe := hf.count_le
  have hnew : v ∉ free := by
    intro hmem
    have hdel := ((hfree.mem v).mp hmem).2
    rw [hlive.2] at hdel
    exact nomatch hdel
  have hlen : free.length + 1 ≤ f.header.nodeCount := by
    have hsub : (v :: free) ⊆ List.range f.header.nodeCount := List.cons_subset.mpr
      ⟨List.mem_range.mpr hlive.1, fun n hn => List.mem_range.mpr ((hfree.mem n).mp hn).1⟩
    have hle := ((List.nodup_cons.mpr ⟨hnew, hfree.nodup⟩).subperm hsub).length_le
    rwa [List.length_range] at hle
  have hhead : ∀ head, f.header.freeListHead = some head → head < 2 ^ 32 := by
    intro head hhead
    have hchain := hfree.chain
    rw [hhead] at hchain
    cases hchain with
    | cons _ =>
        have hlt := ((hfree.mem head).mp List.mem_cons_self).1
        omega
  obtain ⟨f', hrun, hfrees⟩ := freeNode_ok hf hcap hhead (by rw [hfree.length]; omega)
  have hkeeps := (freeNode_index hf.dims_pos hcap).ok hrun
  rw [hrun]
  refine ⟨⟨_, VectorCollection.Frees.freeList hfrees hf hfree hlive⟩, fun n hn => ?_,
    fun n hn => ?_, fun n hle hlt => ?_⟩
  · rw [hkeeps.1.shape.nodeCapacity] at hn
    rw [hkeeps.1.count]
    by_cases hne : n = v
    · subst hne
      exact ⟨fun _ => ⟨hlive.1, fun hused => hused.1 rfl⟩, fun _ => hfrees.deleted⟩
    · rw [(hfrees.others n hn hne).2.2, h.flagged n hn, and_iff_right hne]
  · rw [hkeeps.1.count]
    exact h.counted n hn.2
  · rw [hkeeps.1.count] at hle
    rw [hkeeps.1.shape.nodeCapacity] at hlt
    rw [hkeeps.1.index n hlt]
    exact h.unindexed n hle hlt

/-! ## Allocating -/

/-- A freed node is taken. -/
theorem FreedNodes.allocate_head (h : FreedNodes f used) (hf : Shape f)
    (hhead : f.header.freeListHead = some v) :
    Good NotError (fun r => FreedNodes r.2 fun n => n = r.1 ∨ used n) f.allocateNode := by
  obtain ⟨free, hfree⟩ := h.free
  obtain ⟨rest, rfl, hchain⟩ : ∃ rest, free = v :: rest ∧
      Chain f (optionU32 (f.linkOf v)) rest := by
    have hchain := hfree.chain
    rw [hhead] at hchain
    cases hchain with
    | cons h => exact ⟨_, rfl, h⟩
  have hnodup := List.nodup_cons.mp hfree.nodup
  have hv := ((hfree.mem v).mp List.mem_cons_self).1
  have hcap := hv.trans_le hf.count_le
  unfold allocateNode
  rw [hhead]
  dsimp only
  have hread : Good NotError (fun raw => raw = f.linkOf v) (f.readU32At (f.slotOffset v)) := by
    unfold readU32At
    exact good_ite (fun _ => rfl) fun _ => notError_panic
  refine hread.bind fun raw hraw => good_ite (fun _ => notError_overflow) fun hpos => ?_
  set f₁ : VecFile := { f with
    header.freeListHead := optionU32 raw
    header.freeListLen := f.header.freeListLen - 1 } with hf₁
  have hshape₁ : Shape f₁ :=
    ⟨hf.dims_pos, hf.m_pos, hf.m_le, hf.cap_pos, hf.cap_lt, hf.count_le, hf.size, hf.graph_le⟩
  obtain ⟨f₂, hrun₂, hheader₂, hshape₂, hdeleted₂, -, hparts₂⟩ := setDeleted_ok hshape₁ hcap false
  have hcap₂ : f₂.header.nodeCapacity = f.header.nodeCapacity := by rw [hheader₂]
  obtain ⟨f₃, hrun₃, hheader₃, -, -, -, hparts₃⟩ :=
    @setGraphRecordOffset_ok f₂ v hshape₂ (hcap₂ ▸ hcap) noneU64 (by decide)
  have hheader : f₃.header = f₁.header := hheader₃.trans hheader₂
  -- the slots are not written, so the links of the rest stay
  have hlink : ∀ n < f.header.nodeCapacity, f₃.linkOf n = f.linkOf n := fun n hn =>
    (hparts₃ n (hcap₂ ▸ hn)).2.1.trans (hparts₂ n hn).2.1
  have hdeleted : f₃.deletedOf v = false := (hparts₃ v (hcap₂ ▸ hcap)).2.2.1.trans hdeleted₂
  have hother : ∀ n < f.header.nodeCapacity, n ≠ v → f₃.deletedOf n = f.deletedOf n :=
    fun n hn hne => (hparts₃ n (hcap₂ ▸ hn)).2.2.1.trans ((hparts₂ n hn).2.2.2 hne)
  rw [hrun₂, ok_bind, hrun₃, ok_bind]
  refine ⟨⟨rest, ?_, hnodup.2, fun n => ?_, ?_⟩, fun n hn => ?_, fun n hn => ?_,
    fun n hle hlt => ?_⟩
  · change Chain f₃ f₃.header.freeListHead rest
    rw [hheader]
    change Chain f₃ (optionU32 raw) rest
    rw [hraw]
    refine hchain.congr fun n hn => hlink n ?_
    exact ((hfree.mem n).mp (List.mem_cons_of_mem _ hn)).1.trans_le hf.count_le
  · change n ∈ rest ↔ n < f₃.header.nodeCount ∧ f₃.deletedOf n = true
    rw [hheader]
    change n ∈ rest ↔ n < f.header.nodeCount ∧ f₃.deletedOf n = true
    by_cases hne : n = v
    · rw [hne, hdeleted]
      exact ⟨fun hmem => absurd hmem hnodup.1, fun hn => nomatch hn.2⟩
    · have hold := hfree.mem n
      rw [List.mem_cons, or_iff_right hne] at hold
      rw [hold]
      exact and_congr_right fun hn => by rw [hother n (hn.trans_le hf.count_le) hne]
  · change f₃.header.freeListLen = rest.length
    rw [hheader]
    change f.header.freeListLen - 1 = rest.length
    rw [hfree.length, List.length_cons, Nat.add_sub_cancel]
  -- the flag of `v` is cleared, which is what counts as being in use
  · change n < f₃.header.nodeCapacity at hn
    change f₃.deletedOf n = true ↔ n < f₃.header.nodeCount ∧ ¬ (n = v ∨ used n)
    rw [hheader] at hn ⊢
    by_cases hne : n = v
    · rw [hne, hdeleted]
      exact ⟨fun hn => (nomatch hn), fun hn => absurd (Or.inl rfl) hn.2⟩
    · rw [hother n hn hne, h.flagged n hn, or_iff_right hne]
  · change n < f₃.header.nodeCount
    rw [hheader]
    rcases hn with rfl | hn
    · exact hv
    · exact h.counted n hn
  · change f₃.header.nodeCount ≤ n at hle
    change n < f₃.header.nodeCapacity at hlt
    change f₃.recordOf n = noneU64
    rw [hheader] at hle hlt
    have hne : n ≠ v := (hv.trans_le hle).ne'
    rw [((hparts₃ n (hcap₂ ▸ hlt)).2.2.2 hne).record, (hparts₂ n hlt).2.2.1]
    exact h.unindexed n hle hlt

/-- Growing keeps the freed nodes: the new nodes are not flagged and have no record. -/
theorem FreedNodes.makeRoom (h : FreedNodes f used) (hf : Shape f) :
    Good NotError (fun f' => FreedNodes f' used ∧
      f'.header = { f.header with nodeCapacity := f'.header.nodeCapacity } ∧
      f.header.nodeCount < f'.header.nodeCapacity) f.makeRoom := by
  have hpos := hf.cap_pos
  have hle := hf.count_le
  unfold VecFile.makeRoom
  refine good_ite (fun hfull => ?_) fun hfull => ⟨h, rfl, Nat.lt_of_not_le hfull⟩
  by_cases hlt : f.header.nodeCapacity * 2 < 2 ^ 32
  · obtain ⟨f', hrun, hmoves⟩ := grow_moves hf.size hf.graph_le hlt
    have hcap : f'.header.nodeCapacity = f.header.nodeCapacity * 2 := by rw [hmoves.header]
    have hcount : f'.header.nodeCount = f.header.nodeCount := by rw [hmoves.header]
    obtain ⟨⟨free, hfree⟩, hflagged, hcounted, hunindexed⟩ := h
    rw [hrun]
    refine ⟨⟨⟨free, hfree.congr ?_ ?_ hcount (fun n hn => ?_) fun n hn => ?_⟩, fun n hn => ?_,
      fun n hn => ?_, fun n hle' hn => ?_⟩, ?_, ?_⟩
    · rw [hmoves.header]
    · rw [hmoves.header]
    · exact hmoves.linkOf (((hfree.mem n).mp hn).1.trans_le hle) hf.dims_pos
    · exact hmoves.deletedOf (hn.trans_le hle)
    · rw [hcap] at hn
      rw [hcount]
      by_cases hold : n < f.header.nodeCapacity
      · rw [hmoves.deletedOf hold]
        exact hflagged n hold
      · have hclear : f'.deletedOf n = false := by
          unfold VecFile.deletedOf
          rw [deletedFlagOffset_eq, hmoves.clear n (Nat.le_of_not_lt hold) hn]
          rfl
        rw [hclear]
        exact ⟨fun hn => (nomatch hn), fun hn => absurd (hn.1.trans_le hle) hold⟩
    · rw [hcount]
      exact hcounted n hn
    · rw [hcount] at hle'
      rw [hcap] at hn
      by_cases hold : n < f.header.nodeCapacity
      · rw [hmoves.recordOf hold]
        exact hunindexed n hle' hold
      · exact hmoves.noRecord n (Nat.le_of_not_lt hold) hn
    · rw [hmoves.header]
    · rw [hcap]
      omega
  · unfold VecFile.grow
    dsimp only
    rw [if_pos (Nat.le_of_not_lt hlt)]
    exact notError_overflow

/-- A new node is counted. -/
theorem FreedNodes.allocate_new (h : FreedNodes f used) (hf : Shape f)
    (hhead : f.header.freeListHead = none) :
    Good NotError (fun r => FreedNodes r.2 fun n => n = r.1 ∨ used n) f.allocateNode := by
  unfold allocateNode
  rw [hhead]
  dsimp only
  refine (h.makeRoom hf).bind fun f₁ ⟨h₁, hheader, hlt⟩ => good_ite (fun _ => notError_overflow)
    fun _ => ?_
  have hcount : f₁.header.nodeCount = f.header.nodeCount := by rw [hheader]
  have hhead₁ : f₁.header.freeListHead = none := by rw [hheader, ← hhead]
  obtain ⟨free, hfree⟩ := h₁.free
  have hnil : free = [] := by
    have hchain := hfree.chain
    rw [hhead₁] at hchain
    cases hchain
    rfl
  subst hnil
  -- the node that is counted is not flagged
  have hnew : f₁.deletedOf f₁.header.nodeCount = false := by
    cases hdel : f₁.deletedOf f₁.header.nodeCount with
    | false => rfl
    | true =>
        have hflagged := (h₁.flagged _ (hcount ▸ hlt)).mp hdel
        exact absurd hflagged.1 (lt_irrefl _)
  have hflag : ∀ n < f₁.header.nodeCount + 1, f₁.deletedOf n = false := by
    intro n hn
    by_cases hne : n = f₁.header.nodeCount
    · rw [hne]
      exact hnew
    · cases hdel : f₁.deletedOf n with
      | false => rfl
      | true => exact absurd ((hfree.mem n).mpr ⟨by omega, hdel⟩) List.not_mem_nil
  refine ⟨⟨[], ?_, List.nodup_nil, fun n => ?_, ?_⟩, fun n hn => ?_, fun n hn => ?_,
    fun n hle hn => ?_⟩
  · change Chain _ f₁.header.freeListHead []
    rw [hhead₁]
    exact .nil
  · refine ⟨fun hmem => absurd hmem List.not_mem_nil, fun ⟨hn, hdel⟩ => ?_⟩
    have hclear : f₁.deletedOf n = false := hflag n hn
    change f₁.deletedOf n = true at hdel
    rw [hclear] at hdel
    exact nomatch hdel
  · exact hfree.length
  · change f₁.deletedOf n = true ↔
      n < f₁.header.nodeCount + 1 ∧ ¬ (n = f₁.header.nodeCount ∨ used n)
    rw [h₁.flagged n hn]
    constructor
    · rintro ⟨hlt, hused⟩
      exact ⟨hlt.trans (Nat.lt_succ_self _), fun hor => hor.elim hlt.ne hused⟩
    · rintro ⟨hlt, hused⟩
      have hne : n ≠ f₁.header.nodeCount := fun heq => hused (Or.inl heq)
      exact ⟨by omega, fun hor => hused (Or.inr hor)⟩
  · change n < f₁.header.nodeCount + 1
    rcases hn with rfl | hn
    · exact Nat.lt_succ_self _
    · exact (h₁.counted n hn).trans (Nat.lt_succ_self _)
  · change f₁.header.nodeCount + 1 ≤ n at hle
    exact h₁.unindexed n (Nat.le_of_succ_le hle) hn

/-- **The node that is allocated is taken off the free list, or is a new one.** -/
theorem FreedNodes.allocateNode (h : FreedNodes f used) (hf : Shape f) :
    Good NotError (fun r => FreedNodes r.2 fun n => n = r.1 ∨ used n) f.allocateNode := by
  cases hhead : f.header.freeListHead with
  | none => exact h.allocate_new hf hhead
  | some v => exact h.allocate_head hf hhead

end VecFile

namespace VectorCollection

variable {c c' : VectorCollection} {f : VecFile} {rowid : UInt64} {vector : List UInt32}
  {v layer : ℕ} {used : ℕ → Prop} {records : List (ℕ × ℕ)}
  {distanceFn : DistanceMetric → List UInt32 → List UInt32 → UInt32} {order : HeapOrder}

/-! ## Insertion -/

/-- A node that is added is in use. -/
theorem addNode_freed (h : FreedNodes f used) (hf : Shape f) (hnodes : NodesInv f used)
    (hlayer : layer < 2 ^ 32) (hroom : f.HasRoom layer) (vector : List UInt32) :
    Good NotError (fun r => FreedNodes r.2 fun n => n = r.1 ∨ used n)
      (addNode f vector layer) := by
  unfold addNode
  refine ((h.allocateNode hf).and ((allocateNode_index hf hnodes).and (allocateNode_good hnodes))).bind
    fun r ⟨h₁, htakes, _, hnodes₁, _⟩ => ?_
  obtain ⟨v, f₁⟩ := r
  dsimp only at h₁ htakes hnodes₁ ⊢
  have hcap₁ : v < f₁.header.nodeCapacity := htakes.lt.trans_le htakes.shape.count_le
  refine ((writeVector_index hcap₁ vector).and ((writeVector_good hnodes₁.sized v vector).and
    (writeVector_flags hcap₁ vector))).bind fun f₂ ⟨hindex₂, hlinks₂, hflags₂⟩ => ?_
  have h₂ := h₁.keeps htakes.shape hindex₂ hlinks₂ hflags₂ fun _ => Or.inl rfl
  have hshape₂ := htakes.shape.of_keeps hindex₂
  have hcap₂ : v < f₂.header.nodeCapacity := hindex₂.shape.nodeCapacity ▸ hcap₁
  have hroom₂ : f₂.header.graphDataLen + graphRecordSize layer f₂.header.m ≤
      graphDataPreallocated f₂.header.nodeCapacity f₂.header.m := by
    rw [hindex₂.len, hindex₂.shape.m, hindex₂.shape.nodeCapacity, htakes.len, htakes.m, htakes.cap]
    exact hroom
  obtain ⟨f₃, hrun, hadds⟩ := allocateGraphRecord_ok hshape₂ hcap₂ hlayer hroom₂
  obtain ⟨hsame, -, -, -, -, hothers⟩ := (allocateGraphRecord_index hshape₂ hcap₂ layer).ok hrun
  have hv₂ : v < f₂.header.nodeCount := h₂.counted v (Or.inl rfl)
  obtain ⟨⟨free, hfree⟩, hflagged, hcounted, hunindexed⟩ := h₂
  have hcount : f₃.header.nodeCount = f₂.header.nodeCount := by rw [hadds.header]
  rw [hrun, ok_bind]
  refine ⟨⟨free, hfree.congr ?_ ?_ hcount (fun n hn => ?_) fun n hn => ?_⟩, fun n hn => ?_,
    fun n hn => ?_, fun n hle hlt => ?_⟩
  · rw [hadds.header]
  · rw [hadds.header]
  · exact (hadds.parts n (((hfree.mem n).mp hn).1.trans_le hshape₂.count_le)).2.1
  · exact (hadds.parts n (hn.trans_le hshape₂.count_le)).2.2
  · change n < f₃.header.nodeCapacity at hn
    rw [hsame.nodeCapacity] at hn
    change f₃.deletedOf n = true ↔ n < f₃.header.nodeCount ∧ _
    rw [(hadds.parts n hn).2.2, hcount]
    exact hflagged n hn
  · change n < f₃.header.nodeCount
    rw [hcount]
    exact hcounted n hn
  · change f₃.header.nodeCount ≤ n at hle
    change n < f₃.header.nodeCapacity at hlt
    change f₃.recordOf n = noneU64
    rw [hcount] at hle
    rw [hsame.nodeCapacity] at hlt
    rw [hothers n hlt (hv₂.trans_le hle).ne']
    exact hunindexed n hle hlt

/-- A node that was read has a flag in the file. -/
theorem lt_capacity_of_read (hf : Shape f) {n : ℕ} {b : Bool}
    (hread : (Access.code.storage f).isDeleted n = .ok b) : n < f.header.nodeCapacity := by
  change Access.code.run (f.isDeleted n) = .ok b at hread
  rw [code_run] at hread
  unfold isDeleted at hread
  by_cases hlt : f.deletedFlagOffset n < f.mem.size
  · rw [hf.size, deletedFlagOffset_eq] at hlt
    omega
  · rw [if_neg hlt] at hread
    cases hread

/-- **The lists of an insertion are not written over the flags.** -/
theorem applyConnections_flags (hf : Shape f) (hlast : LastRecord f v layer)
    {connections : List Hnsw.Connection}
    (hwrites : ∀ c ∈ connections, Hnsw.Writes (Access.code.storage f) v layer c) :
    Good NotError (KeepsFlags f) (applyConnections Access.code f connections) := by
  unfold applyConnections
  refine (good_foldlM (I := fun f₁ => KeepsIndex f f₁ ∧ KeepsFlags f f₁) _ ⟨.refl f, .refl f⟩
    fun f₁ c hc ⟨hindex₁, hflags₁⟩ => ?_).mono fun f' h => h.2
  obtain ⟨hl, hnode⟩ := hwrites c hc
  have hcap : c.1 < f.header.nodeCapacity := by
    rcases hnode with hnode | hread
    · rw [hnode]
      exact hlast.lt
    · exact lt_capacity_of_read hf hread
  have hlast₁ := hlast.keeps hindex₁ hf.count_le
  have hcap₁ : c.1 < f₁.header.nodeCapacity := hindex₁.shape.nodeCapacity ▸ hcap
  refine ((writeNeighbors_index c.1 c.2.1 c.2.2).and
    (writeNeighbors_flags (hf.of_keeps hindex₁) hlast₁ hcap₁ hl c.2.2)).mono
      fun f₂ ⟨hindex₂, hflags₂⟩ => ⟨hindex₁.trans hindex₂, hflags₂.len.trans hflags₁.len, ?_⟩
  intro n hn
  exact (hflags₂.flag n (hindex₁.shape.nodeCapacity ▸ hn)).trans (hflags₁.flag n hn)

/-- The new record is behind all others. -/
theorem lastRecord_of_appends {f' : VecFile} (hregion : Region f records)
    (happends : VecFile.Appends f f' v layer) (hv : v < f'.header.nodeCapacity)
    (hfreed : FreedNodes f' used) : LastRecord f' v layer where
  lt := hv
  stop := by rw [happends.recordOf, happends.len, happends.m]
  last n hn := by
    rw [happends.recordOf]
    by_cases hne : n = v
    · rw [hne, happends.recordOf]
    · have hold := happends.counted n hn hne
      obtain ⟨l, hmem⟩ := hregion.indexed n hold
      have hinside := hregion.inside _ hmem
      dsimp only at hinside
      rw [happends.index n hold hne]
      omega
  unindexed := hfreed.unindexed

/-- A pair is inserted into the map of the nodes. -/
theorem used_insert_iff {nodes : AList fun _ : ℕ => UInt64} (n : ℕ) :
    (∃ r, (nodes.insert v rowid).lookup n = some r) ↔ n = v ∨ ∃ r, nodes.lookup n = some r := by
  by_cases hne : n = v
  · subst hne
    rw [AList.lookup_insert]
    exact ⟨fun _ => Or.inl rfl, fun _ => ⟨rowid, rfl⟩⟩
  · rw [AList.lookup_insert_ne hne, or_iff_right hne]

/-- The nodes with a row id are in use. -/
abbrev Freed (c : VectorCollection) : Prop :=
  FreedNodes c.vecfile fun n => ∃ rowid, c.nodeToRowid.lookup n = some rowid

/-- **An insertion that finds room** takes one node off the free list, or counts one more. -/
theorem wp_insert_freed (hc : MapsInv c) (hregion : Region c.vecfile records) (hfreed : Freed c)
    (hlayer : layer < 2 ^ 32) (hroom : c.Accepts rowid vector → c.vecfile.HasRoom layer) :
    wp (insert Access.code distanceFn order rowid vector layer)
      (fun _ c' => Freed c') (fun _ _ => True) c := by
  have hf := hregion.shape
  unfold insert
  refine wp_get_bind.mpr (wp_ite (fun _ => trivial) fun hlen =>
    wp_ite (fun _ => trivial) fun hnew => ?_)
  have hroom := hroom ⟨not_not.mp hlen, hnew⟩
  rw [code_run]
  refine wp_ofExcept_bind ((addNode_index hf hc.nodes vector layer).and
    ((addNode_good hc.nodes vector layer).and
      (addNode_freed hfreed hf hc.nodes hlayer hroom vector))) (fun _ _ => trivial)
    fun r hadded => ?_
  obtain ⟨v, f₁⟩ := r
  obtain ⟨⟨happends, hv⟩, ⟨-, hnodes₁, -⟩, hfreed₁⟩ := hadded
  dsimp only at happends hv hnodes₁ hfreed₁ ⊢
  have hf₁ := happends.shape hf hroom
  have hlast := lastRecord_of_appends hregion happends hv hfreed₁
  rw [wp, run_set_bind, ← wp]
  refine wp_ofExcept_bind (Hnsw.insert_writes (readsGood f₁) _ v layer _ _ _) (fun _ _ => trivial)
    fun result hwrites => ?_
  rw [wp_bind]
  refine wp_appendCommitted fun wal => ?_
  refine wp_ofExcept_bind ((applyConnections_index f₁ _).and
    ((applyConnections_good hnodes₁.sized _ v).and (applyConnections_flags hf₁ hlast hwrites)))
    (fun _ _ => trivial) fun f₂ hwritten => ?_
  obtain ⟨hindex₂, hlinks₂, hflags₂⟩ := hwritten
  have hfreed₂ := hfreed₁.keeps hf₁ hindex₂ hlinks₂ hflags₂ fun _ => Or.inl rfl
  rw [code_run]
  set f₃ : VecFile := { f₂ with
    header.entryPoint := some (result.newEntryPoint.getD (f₁.header.entryPoint.getD v))
    header.maxLayer := result.newMaxLayer.getD f₁.header.maxLayer } with hf₃
  have hfreed₃ : FreedNodes f₃ fun n => n = v ∨ ∃ r, c.nodeToRowid.lookup n = some r := by
    obtain ⟨⟨free, hfree⟩, hflagged, hcounted, hunindexed⟩ := hfreed₂
    exact ⟨⟨free, hfree.congr rfl rfl rfl (fun _ _ => rfl) fun _ _ => rfl⟩, hflagged, hcounted,
      hunindexed⟩
  have hf₂ := hf₁.of_keeps hindex₂
  have hf₃ : Shape f₃ :=
    ⟨hf₂.dims_pos, hf₂.m_pos, hf₂.m_le, hf₂.cap_pos, hf₂.cap_lt, hf₂.count_le, hf₂.size,
      hf₂.graph_le⟩
  have hsized₂ := hlinks₂.sized hnodes₁.sized
  have hsized₃ : Sized f₃ :=
    ⟨hsized₂.dims_pos, hsized₂.dims_le, hsized₂.m_le, hsized₂.cap_pos, hsized₂.cap_lt,
      hsized₂.count_le, hsized₂.size⟩
  refine wp_ofExcept_bind ((flush_index f₃).and ((flush_good hsized₃ v).and (flush_flags f₃)))
    (fun _ _ => trivial) fun f₄ hflushed => ?_
  obtain ⟨⟨hindex₄, -⟩, hlinks₄, hflags₄⟩ := hflushed
  have hfreed₄ := hfreed₃.keeps hf₃ hindex₄ hlinks₄ hflags₄ fun _ => Or.inl rfl
  change FreedNodes f₄ fun n => ∃ r, (c.nodeToRowid.insert v rowid).lookup n = some r
  simp only [used_insert_iff]
  exact hfreed₄

/-! ## Deletion -/

theorem used_erase_iff {nodes : AList fun _ : ℕ => UInt64} (n : ℕ) :
    (∃ r, (nodes.erase v).lookup n = some r) ↔ n ≠ v ∧ ∃ r, nodes.lookup n = some r := by
  by_cases hne : n = v
  · subst hne
    rw [AList.lookup_erase]
    exact ⟨fun ⟨_, hr⟩ => (nomatch hr), fun hn => absurd rfl hn.1⟩
  · rw [AList.lookup_erase_ne hne, and_iff_right hne]

/-- **A deletion** puts one node on the free list. -/
theorem wp_delete_freed (hc : MapsInv c) (hf : Shape c.vecfile) (hfreed : Freed c) :
    wp (delete Access.code rowid) (fun _ c' => Freed c') (fun _ _ => True) c := by
  unfold delete
  refine wp_get_bind.mpr ?_
  cases hlookup : c.rowidToNode.lookup rowid with
  | none => trivial
  | some v =>
      have hnode := (hc.inverse rowid v).mp hlookup
      have hv := (hc.nodes.counted v ⟨rowid, hnode⟩).trans_le hf.count_le
      dsimp only
      rw [wp, run_set_bind, ← wp]
      refine wp_ofExcept_bind (entryAfterDelete_good c.vecfile v) (fun _ _ => trivial)
        fun newEp _ => ?_
      rw [wp_bind]
      refine wp_appendCommitted fun wal => ?_
      rw [code_run]
      refine wp_ofExcept_bind ((freeNode_index hf.dims_pos hv).and
        ((freeNode_good hc.nodes ⟨rowid, hnode⟩).and (hfreed.freeNode hf ⟨rowid, hnode⟩)))
        (fun _ _ => trivial) fun f₁ hf₁ => ?_
      obtain ⟨⟨hindex₁, -⟩, ⟨hnodes₁, -⟩, hfreed₁⟩ := hf₁
      rw [code_run]
      have hf₁ := hf.of_keeps hindex₁
      set f₂ : VecFile := { f₁ with header.entryPoint := newEp } with hf₂
      have hshape₂ : Shape f₂ :=
        ⟨hf₁.dims_pos, hf₁.m_pos, hf₁.m_le, hf₁.cap_pos, hf₁.cap_lt, hf₁.count_le, hf₁.size,
          hf₁.graph_le⟩
      have hsized₁ := hnodes₁.sized
      have hsized₂ : Sized f₂ :=
        ⟨hsized₁.dims_pos, hsized₁.dims_le, hsized₁.m_le, hsized₁.cap_pos, hsized₁.cap_lt,
          hsized₁.count_le, hsized₁.size⟩
      have hfreed₂ : FreedNodes f₂ fun n => n ≠ v ∧ ∃ r, c.nodeToRowid.lookup n = some r := by
        obtain ⟨⟨free, hfree⟩, hflagged, hcounted, hunindexed⟩ := hfreed₁
        exact ⟨⟨free, hfree.congr rfl rfl rfl (fun _ _ => rfl) fun _ _ => rfl⟩, hflagged, hcounted,
          hunindexed⟩
      refine wp_ofExcept_bind ((flush_index f₂).and
        ((flush_good hsized₂ f₂.header.nodeCapacity).and (flush_flags f₂)))
        (fun _ _ => trivial) fun f₃ hflushed => ?_
      obtain ⟨⟨hindex₃, -⟩, hlinks₃, hflags₃⟩ := hflushed
      have hfreed₃ := hfreed₂.keeps hshape₂ hindex₃ hlinks₃ hflags₃ fun hlt =>
        absurd hlt (Nat.not_lt.mpr hshape₂.count_le)
      change FreedNodes f₃ fun n => ∃ r, (c.nodeToRowid.erase v).lookup n = some r
      simp only [used_erase_iff]
      exact hfreed₃

end VectorCollection

/-! ## Calls and runs -/

variable {c₀ c c' : VectorCollection} {op : VectorOp} {records : List (ℕ × ℕ)}
  {distanceFn : DistanceMetric → List UInt32 → List UInt32 → UInt32} {order : HeapOrder}

open VectorCollection

/-- An insertion that returns keeps the freed nodes. -/
theorem VectorCollection.insert_freed {rowid : UInt64} {vector : List UInt32} {layer : ℕ}
    (hc : MapsInv c) (hregion : Region c.vecfile records) (hfreed : Freed c) (hlayer : layer < 2 ^ 32)
    (hroom : c.Accepts rowid vector → c.vecfile.HasRoom layer)
    (hreturns : ReturnsTo (VectorCollection.insert Access.code distanceFn order rowid vector layer)
      c c') : Freed c' := by
  rcases hreturns.spec
    ((VectorCollection.wp_insert hc).and (wp_insert_freed hc hregion hfreed (by omega) hroom)) with
    ⟨v, -, -, hfreed'⟩ | ⟨e, -, hrefused, -⟩
  · exact hfreed'
  · obtain ⟨-, rfl⟩ := hrefused e rfl
    exact hfreed

/-- **A call that finds room keeps the freed nodes.** -/
theorem VectorOp.run_freed (hc : MapsInv c) (hregion : Region c.vecfile records) (hfreed : Freed c)
    (hlayer : op.layer < 2 ^ 32) (hroom : op.FindsRoom c)
    (hreturns : ReturnsTo (op.run Access.code distanceFn order) c c') : Freed c' := by
  have hf := hregion.shape
  cases op with
  | insert rowid vector layer =>
      exact insert_freed hc hregion hfreed hlayer hroom hreturns.of_discard
  | delete rowid =>
      rcases hreturns.spec ((VectorCollection.wp_delete hc).and (wp_delete_freed hc hf hfreed)) with
        ⟨-, -, -, hfreed'⟩ | ⟨e, -, hrefused, -⟩
      · exact hfreed'
      · obtain ⟨-, rfl⟩ := hrefused e rfl
        exact hfreed
  | update rowid vector layer =>
      have hdelete := (@VectorCollection.wp_delete _ rowid hc).and ((wp_delete_keeps hc hf).and
        (wp_delete_freed hc hf hfreed))
      rcases hreturns.of_discard.of_bind with ⟨e, herr⟩ | ⟨_, c₁, hok, hinsert⟩
      · obtain ⟨-, rfl⟩ := (hdelete.error herr).1 e rfl
        exact hfreed
      obtain ⟨⟨hmem, hmaps₁, -, hdims, -⟩, ⟨hkeeps, hhead⟩, hfreed₁⟩ := hdelete.ok hok
      refine insert_freed hmaps₁ (hregion.keeps hkeeps) hfreed₁ hlayer (fun haccepts => ?_) hinsert
      unfold HasRoom
      rw [nextCapacity_of_freed hhead, hkeeps.len, hkeeps.shape.m, hkeeps.shape.nodeCapacity]
      exact hroom hmem (haccepts.1.trans hdims)

/-- The graph data of the collection stays within its region. -/
def VectorCollection.DataInRegion (c : VectorCollection) : Prop :=
  c.vecfile.header.graphDataLen ≤
    graphDataPreallocated c.vecfile.header.nodeCapacity c.vecfile.header.m

instance (c : VectorCollection) : Decidable c.DataInRegion := Nat.decLe _ _

/-- The graph data is within its region after the call. -/
def VectorOp.StaysInRegion (distanceFn : DistanceMetric → List UInt32 → List UInt32 → UInt32)
    (order : HeapOrder) (c : VectorCollection) (op : VectorOp) : Prop :=
  ∀ c', ReturnsTo (op.run Access.code distanceFn order) c c' → c'.DataInRegion

/-- The free list of the collection: following the links from its head visits the counted nodes
that are marked as deleted, each once, and ends after as many steps as the header says.  They
are the nodes without a row id.  What is allocated next is not one of the others, and the length
of the list does not underflow. -/
structure ListsFreed (c : VectorCollection) : Prop where
  free : ∃ free, FreeList c.vecfile free
  deleted : ∀ n < c.vecfile.header.nodeCount,
    c.vecfile.deletedOf n = true ↔ c.nodeToRowid.lookup n = none
  allocates : ∀ v f, c.vecfile.allocateNode = .ok (v, f) →
    ¬ c.vecfile.Live v ∧ c.nodeToRowid.lookup v = none
  length_pos : c.vecfile.header.freeListHead ≠ none → 0 < c.vecfile.header.freeListLen

theorem VectorCollection.Freed.lists (hfreed : Freed c) (hc : MapsInv c) (hf : Shape c.vecfile) :
    ListsFreed c := by
  have hunused : ∀ n, (¬ ∃ rowid, c.nodeToRowid.lookup n = some rowid) ↔
      c.nodeToRowid.lookup n = none := by
    intro n
    rw [← Option.isSome_iff_exists, Bool.not_eq_true, Option.isSome_eq_false_iff,
      Option.isNone_iff_eq_none]
  refine ⟨hfreed.free, fun n hn => ?_, fun v f hrun => ?_, fun hhead => ?_⟩
  · rw [hfreed.flagged n (hn.trans_le hf.count_le), and_iff_right hn, hunused]
  · obtain ⟨hv, -⟩ := (allocateNode_good hc.nodes).ok hrun
    refine ⟨fun hlive => ?_, (hunused v).mp hv⟩
    have hdel := (hfreed.flagged v (hlive.1.trans_le hf.count_le)).mpr ⟨hlive.1, hv⟩
    rw [hlive.2] at hdel
    exact nomatch hdel
  · obtain ⟨free, hfree⟩ := hfreed.free
    obtain ⟨head, hhead⟩ := Option.ne_none_iff_exists'.mp hhead
    have hchain := hfree.chain
    rw [hhead] at hchain
    cases hchain with
    | cons _ =>
        rw [hfree.length]
        exact Nat.succ_pos _

/-- In a new file no node has a record. -/
theorem VecFile.create_unindexed {dimensions m efConstruction cap n : ℕ} {metric : DistanceMetric}
    (hn : n < cap) : (VecFile.create dimensions metric m efConstruction cap).recordOf n = noneU64 := by
  have hread : ∀ (mem : Memory) (off width i : ℕ), i + 8 ≤ width →
      (mem.fill off width 0xFF).word (off + i) 8 = noneU64 := by
    intro mem off width i hi
    have hbytes : (mem.fill off width 0xFF).read (off + i) 8 = List.replicate 8 0xFF := by
      refine List.ext_getElem (by simp [Memory.read]) fun j hj _ => ?_
      simp only [Memory.length_read] at hj
      simp only [Memory.read, List.getElem_map, List.getElem_range, List.getElem_replicate,
        Memory.fill]
      exact if_pos ⟨by omega, by omega⟩
    unfold Memory.word
    rw [hbytes]
    decide
  exact hread _ _ _ _ (by unfold nodeIndexSize; omega)

/-- The freed nodes of a new collection: there are none. -/
theorem VectorCollection.create_freed {options : VectorCollectionOptions}
    {cipher : Option Aes256Gcm} {nonces : ℕ → Nonce}
    (hcreate : VectorCollection.create options cipher nonces = .ok c) : Freed c := by
  obtain ⟨hlayout, hfree, -⟩ := (create_inv hcreate).graph
  have hinv := create_inv hcreate
  unfold VectorCollection.create at hcreate
  split at hcreate
  · cases hcreate
  · split at hcreate
    · cases hcreate
    · cases hcreate
      refine ⟨hfree, fun n hn => ?_, fun n hn => ((hinv.mapped n).mp hn).1, fun n _ hlt => ?_⟩
      · rw [hlayout.fresh (Nat.zero_le n) hn]
        exact ⟨fun h => (nomatch h), fun h => absurd h.1 (Nat.not_lt_zero n)⟩
      · exact create_unindexed hlt

/-- The freed nodes are listed in a run whose calls stay in the region. -/
theorem VectorRun.freed
    (h : VectorRun distanceFn order (fun c op => op.StaysInRegion distanceFn order c) c₀ c)
    (hc₀ : MapsInv c₀) (hregion₀ : Region c₀.vecfile []) (hfreed₀ : Freed c₀) :
    MapsInv c ∧ (∃ records, Region c.vecfile records) ∧ Freed c := by
  induction h with
  | start => exact ⟨hc₀, ⟨[], hregion₀⟩, hfreed₀⟩
  | step _ hlayer hstays hreturns ih =>
      obtain ⟨hmaps, ⟨records, hregion⟩, hfreed⟩ := ih
      obtain ⟨hmaps', f, hmoves⟩ := VectorOp.run_moves hmaps hregion.shape hreturns
      have hroom := (hmoves.bound_iff hregion.shape).mp (hstays _ hreturns)
      exact ⟨hmaps', ⟨_, hmoves.region hroom hregion rfl⟩,
        VectorOp.run_freed hmaps hregion hfreed hlayer hroom hreturns⟩

/-- **The free list names the deleted nodes in every run whose graph data stays within its
region**, whatever the deletions have done to the graph. -/
theorem VectorRun.lists_freed {options : VectorCollectionOptions} {cipher : Option Aes256Gcm}
    {nonces : ℕ → Nonce} (hcreate : VectorCollection.create options cipher nonces = .ok c₀)
    (hrun : VectorRun distanceFn order (fun c op => op.StaysInRegion distanceFn order c) c₀ c) :
    ListsFreed c := by
  obtain ⟨hmaps₀, hregion₀⟩ := VectorCollection.create_region hcreate
  obtain ⟨hmaps, ⟨records, hregion⟩, hfreed⟩ :=
    hrun.freed hmaps₀ hregion₀ (VectorCollection.create_freed hcreate)
  exact hfreed.lists hmaps hregion.shape

theorem VectorOp.StaysInRegion.of_ok {r : PUnit}
    (hrun : op.run Access.code distanceFn order c = .ok r c') (h : c'.DataInRegion) :
    op.StaysInRegion distanceFn order c := by
  intro c'' hreturns
  rw [hreturns.eq_of_ok hrun]
  exact h

/-- A vector that is inserted and deleted again. -/
theorem VectorRun.lists_freed_one : ∃ c,
    (newVectors 16).after noDistance .inOrder [.insert 1 [0] 0, .delete 1] = some c ∧
      ListsFreed c := by
  have hcreate : VectorCollection.create ⟨1, .euclidean, 16, 10⟩ none VectorWal.zeroNonces =
    .ok (newVectors 16) := rfl
  have heval : ((newVectors 16).after noDistance .inOrder [.insert 1 [0] 0]).any (fun c =>
        c.DataInRegion) = true ∧
      ((newVectors 16).after noDistance .inOrder [.insert 1 [0] 0, .delete 1]).any (fun c =>
        c.DataInRegion) = true := by
    decide +kernel
  obtain ⟨heval₁, heval₂⟩ := heval
  obtain ⟨c₂, hafter, hstays₂⟩ := (Option.any_eq_true _ _).mp heval₂
  obtain ⟨c₁, hrun₁, hrest⟩ := VectorCollection.after_cons.mp hafter
  obtain ⟨c₂', hrun₂, hnil⟩ := VectorCollection.after_cons.mp hrest
  obtain rfl : c₂' = c₂ := Option.some.inj hnil
  rw [VectorCollection.after_cons.mpr ⟨c₁, hrun₁, rfl⟩, Option.any_some, decide_eq_true_eq] at heval₁
  rw [decide_eq_true_eq] at hstays₂
  have hfirst : VectorRun noDistance .inOrder
      (fun c op => op.StaysInRegion noDistance .inOrder c) (newVectors 16) c₁ :=
    .step .start (by decide) (.of_ok hrun₁ heval₁) (Or.inl ⟨_, hrun₁⟩)
  have hlayer : (VectorOp.delete 1).layer < 2 ^ 32 := Nat.two_pow_pos 32
  exact ⟨c₂', hafter, VectorRun.lists_freed hcreate
    (hfirst.step hlayer (.of_ok hrun₂ hstays₂) (Or.inl ⟨_, hrun₂⟩))⟩

end BoogyDb
