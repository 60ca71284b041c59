import BoogyDb.Lib.Simulation
import BoogyDb.RecordIndex
import BoogyDb.SearchSound
import BoogyDb.VectorMaps

/-!
# A vector collection as a map

To its callers a collection is a map from row ids to vectors (`VectorCollection.contents`).  The
slots of the vectors lie in front of everything that the graph writes, so a node in use keeps its
vector whatever has become of the lists and records (`KeepsSlots`).

In every history of calls, the replies are those of `VectorOp.spec`, a few lines on a map, and a
search of the collection returns rows of that map with their true distances
(`VectorCollection.serves`).  No call has to fit.
-/

namespace BoogyDb

open Bytes Wp Except Simulation

/-! ## The slots -/

namespace VecFile

variable {f f' f'' : VecFile} {v : ℕ}

/-- What a file was created with. -/
def options (f : VecFile) : VectorCollectionOptions where
  dimensions := f.header.dimensions
  metric := f.header.metric
  m := f.header.m
  efConstruction := f.header.efConstruction

/-- The slots are the same, up to that of `v`. -/
structure KeepsSlots (f f' : VecFile) (v : ℕ) : Prop where
  options : f'.options = f.options
  cap : f.header.nodeCapacity ≤ f'.header.nodeCapacity
  vectors : ∀ n < f.header.nodeCapacity, n ≠ v → f'.readVector n = f.readVector n

theorem KeepsSlots.refl (f : VecFile) (v : ℕ) : KeepsSlots f f v := ⟨rfl, le_rfl, fun _ _ _ => rfl⟩

theorem KeepsSlots.trans (h : KeepsSlots f f' v) (h' : KeepsSlots f' f'' v) :
    KeepsSlots f f'' v where
  options := h'.options.trans h.options
  cap := h.cap.trans h'.cap
  vectors n hn hne := (h'.vectors n (hn.trans_le h.cap) hne).trans (h.vectors n hn hne)

theorem KeepsSlots.dims (h : KeepsSlots f f' v) :
    f'.header.dimensions = f.header.dimensions :=
  congrArg VectorCollectionOptions.dimensions h.options

/-- The vector of a slot where the bytes are the same. -/
theorem readVector_congr {n : ℕ} (hdims : f'.header.dimensions = f.header.dimensions)
    (hsize : f.slotOffset n + f.header.dimensions * 4 ≤ f.mem.size ↔
      f.slotOffset n + f.header.dimensions * 4 ≤ f'.mem.size)
    (hagree : Memory.Agree f.mem f'.mem (f.slotOffset n) (f.slotOffset n + f.header.dimensions * 4)) :
    f'.readVector n = f.readVector n := by
  have hslot : f'.slotOffset n = f.slotOffset n := by
    unfold slotOffset
    rw [hdims]
  unfold readVector
  rw [hslot, hdims, (hagree.moved le_rfl le_rfl).words]
  exact if_congr hsize.symm rfl rfl

/-- **A write behind the slots, into the header or into the slot of `v` keeps the other slots.** -/
theorem WritesIn.keepsSlots {start stop : ℕ} (h : WritesIn f f' start stop)
    (hwhere : f.indexStart ≤ start ∨ stop ≤ vecHeaderSize ∨
      f.slotOffset v ≤ start ∧ stop ≤ f.slotOffset v + f.header.dimensions * 4) :
    KeepsSlots f f' v := by
  refine ⟨by rw [options, options, h.header], by rw [h.header], fun n hn hne => ?_⟩
  refine readVector_congr (by rw [h.header]) (by rw [h.size]) (h.agree _ _ ?_)
  have hslot := slot_le hn
  have hheader := vecHeaderSize_le_slot f n
  rcases hwhere with hbehind | hbefore | ⟨hstart, hstop⟩
  · exact Or.inl (by omega)
  · exact Or.inr (by omega)
  · rcases Nat.lt_or_gt_of_ne hne with hlt | hlt
    · have hslots := @slots_apart f _ _ hlt
      exact Or.inl (by omega)
    · have hslots := @slots_apart f _ _ hlt
      exact Or.inr (by omega)

/-- A store behind the slots. -/
theorem store_slots {off : ℕ} (src : List UInt8) (h : f.indexStart ≤ off) (v : ℕ) :
    Good NotError (fun f' => KeepsSlots f f' v ∧ f'.header = f.header) (f.store off src) :=
  store_good fun _ hw => ⟨hw.keepsSlots (Or.inl h), hw.header⟩

theorem flush_slots (f : VecFile) (v : ℕ) : Good NotError (fun f' => KeepsSlots f f' v) f.flush := by
  refine store_good fun _ hw => hw.keepsSlots (Or.inr (Or.inl ?_))
  rw [length_headerBytes]
  decide

theorem setDeleted_slots (f : VecFile) (n v : ℕ) (b : Bool) :
    Good NotError (fun f' => KeepsSlots f f' v) (f.setDeleted n b) := by
  have hindex := Shape.index_le_graph f
  have hgraph := Shape.graph_le_flags f
  refine (store_slots _ ?_ v).mono fun f' h => h.1
  rw [deletedFlagOffset_eq]
  omega

theorem setGraphRecordOffset_slots (f : VecFile) (n r v : ℕ) :
    Good NotError (fun f' => KeepsSlots f f' v) (f.setGraphRecordOffset n r) :=
  (store_slots _ (Nat.le_add_right _ _) v).mono fun _ h => h.1

theorem allocateGraphRecord_slots (f : VecFile) (n layer v : ℕ) :
    Good NotError (fun f' => KeepsSlots f f' v) (f.allocateGraphRecord n layer) := by
  have hindex := Shape.index_le_graph f
  unfold allocateGraphRecord
  refine (store_slots _ (hindex.trans (Nat.le_add_right _ _)) v).bind fun f₁ h₁ => ?_
  refine (setGraphRecordOffset_slots f₁ n _ v).bind fun f₂ h₂ => ?_
  obtain ⟨hoptions, hcap, hvectors⟩ := h₁.1.trans h₂
  exact ⟨hoptions, hcap, hvectors⟩

/-- Lists are written behind the slots, wherever a record says that it lies. -/
theorem writeNeighbors_slots (f : VecFile) (n layer : ℕ) (neighbors : List ℕ) (v : ℕ) :
    Good NotError (fun f' => KeepsSlots f f' v) (f.writeNeighbors n layer neighbors) := by
  have hindex := Shape.index_le_graph f
  have hentry : Good NotError (fun _ => True) (f.graphRecordOffset n) := by
    unfold graphRecordOffset readU64At
    split
    · trivial
    · exact notError_panic
  unfold writeNeighbors
  refine hentry.bind fun record _ => ?_
  cases record with
  | none => exact .refl f v
  | some recordOff =>
      refine (store_slots _ ?_ v).mono fun f' h => h.1
      exact (hindex.trans (Nat.le_add_right _ recordOff)).trans (Nat.le_add_right _ _)

/-- A vector that is written is read back, and the other slots are the same. -/
theorem writeVector_slots (f : VecFile) (v : ℕ) (vector : List UInt32) :
    Good NotError (fun f' => KeepsSlots f f' v ∧ f'.readVector v = .ok vector)
      (f.writeVector v vector) := by
  unfold writeVector
  refine good_ite (fun _ => notError_panic) fun hlen => ?_
  rw [not_not] at hlen
  have hbytes : (Memory.wordsBytes (vector.map UInt32.toNat)).length = f.header.dimensions * 4 := by
    rw [Memory.length_wordsBytes, List.length_map, hlen]
  by_cases hrange : f.slotOffset v + (Memory.wordsBytes (vector.map UInt32.toNat)).length ≤ f.mem.size
  swap
  · unfold store
    rw [if_neg hrange]
    exact notError_panic
  obtain ⟨hrun, hw⟩ := store_ok hrange
  rw [hrun]
  refine ⟨hw.keepsSlots (Or.inr (Or.inr ⟨le_rfl, by rw [hbytes]⟩)), ?_⟩
  have hlt : ∀ w ∈ vector.map UInt32.toNat, w < 2 ^ 32 := by
    intro w hw
    obtain ⟨x, -, rfl⟩ := List.mem_map.mp hw
    exact x.toNat_lt
  have hwords := @Memory.words_write_words f.mem (f.slotOffset v) f.header.dimensions 0 _ hlt
    (by rw [List.length_map, hlen, Nat.zero_add])
  rw [Nat.zero_mul, Nat.add_zero, List.drop_zero,
    List.take_of_length_le (by rw [List.length_map, hlen])] at hwords
  rw [hbytes] at hrange
  unfold readVector
  refine (if_pos hrange).trans ?_
  change Except.ok (((f.mem.write (f.slotOffset v) _).words (f.slotOffset v)
    f.header.dimensions).map UInt32.ofNat) = _
  rw [hwords, words_map_ofNat]

/-- A copy that is made lies in the file. -/
theorem copyOut_good (f : VecFile) (off len : ℕ) :
    Good NotError (fun _ => off + len ≤ f.mem.size) (f.copyOut off len) := by
  unfold copyOut
  exact good_ite (fun h => h) fun _ => notError_panic

/-- **Growing moves what lies behind the slots.** -/
theorem grow_slots (f : VecFile) (v : ℕ) : Good NotError (fun f' => KeepsSlots f f' v) f.grow := by
  unfold grow
  dsimp only
  refine good_ite (fun _ => notError_overflow) fun _ => ?_
  refine (copyOut_good f _ _).bind fun index hin => ?_
  refine (copyOut_good f _ _).bind fun graph _ => (copyOut_good f _ _).bind fun deleted _ => ?_
  set newCap := f.header.nodeCapacity * 2 with hnewCap
  set f₀ : VecFile := { f.setLen (totalFileSize newCap f.header.dimensions f.header.m) with
    header.nodeCapacity := newCap } with hf₀
  have hcap : f.header.nodeCapacity ≤ newCap := by omega
  have hgraph₀ : f₀.graphStart = f₀.indexStart + newCap * 8 := rfl
  have hflags₀ : f₀.flagsStart = f₀.graphStart + graphDataPreallocated newCap f.header.m := rfl
  have hsize₀ : f₀.mem.size = f₀.flagsStart + newCap := rfl
  -- the old slots lie in the old file and in the new one
  have h₀ : KeepsSlots f f₀ v := by
    refine ⟨rfl, hcap, fun n hn _ => ?_⟩
    have hslot := slot_le hn
    have hslot₀ : f₀.slotOffset n + f.header.dimensions * 4 ≤ f₀.indexStart :=
      slot_le (f := f₀) (hn.trans_le hcap)
    have hsame : f₀.slotOffset n = f.slotOffset n := rfl
    have hold : f.indexStart ≤ f.mem.size := (Nat.le_add_right _ _).trans hin
    refine readVector_congr rfl ⟨fun _ => by omega, fun _ => by omega⟩ fun a _ hstop => ?_
    exact if_pos (by omega)
  refine (store_slots (f := f₀) _ le_rfl v).bind fun f₁ ⟨h₁, hheader₁⟩ => ?_
  have hindex : ∀ g : VecFile, g.header = f₀.header → g.indexStart = f₀.indexStart := by
    intro g hg
    unfold indexStart
    rw [hg]
  refine (store_slots (f := f₁) _ ?_ v).bind fun f₂ ⟨h₂, hheader₂⟩ => ?_
  · rw [hindex f₁ hheader₁]
    exact Nat.le_add_right _ _
  have hheader₂ := hheader₂.trans hheader₁
  refine (store_slots (f := f₂) _ ?_ v).bind fun f₃ ⟨h₃, hheader₃⟩ => ?_
  · rw [hindex f₂ hheader₂]
    exact Nat.le_add_right _ _
  have hheader₃ := hheader₃.trans hheader₂
  refine (store_slots (f := f₃) _ ?_ v).bind fun f₄ ⟨h₄, hheader₄⟩ => ?_
  · rw [hindex f₃ hheader₃]
    change f₀.indexStart ≤ f₀.flagsStart
    omega
  have hheader₄ := hheader₄.trans hheader₃
  refine (store_slots (f := f₄) _ ?_ v).bind fun f₅ ⟨h₅, _⟩ => ?_
  · rw [hindex f₄ hheader₄]
    change f₀.indexStart ≤ f₀.flagsStart + _
    omega
  refine (flush_slots f₅ v).mono fun f₆ h₆ => ?_
  exact h₀.trans (h₁.trans (h₂.trans (h₃.trans (h₄.trans (h₅.trans h₆)))))

theorem allocateNode_slots (f : VecFile) (v : ℕ) :
    Good NotError (fun r => KeepsSlots f r.2 v) f.allocateNode := by
  have hread : ∀ off, Good NotError (fun _ => True) (f.readU32At off) := by
    intro off
    unfold readU32At
    exact good_ite (fun _ => trivial) fun _ => notError_panic
  unfold allocateNode
  cases f.header.freeListHead with
  | some head =>
      dsimp only
      refine (hread _).bind fun raw _ => good_ite (fun _ => notError_overflow) fun _ => ?_
      refine (setDeleted_slots _ head v false).bind fun f₁ h₁ => ?_
      refine (setGraphRecordOffset_slots f₁ head noneU64 v).bind fun f₂ h₂ => ?_
      obtain ⟨hoptions, hcap, hvectors⟩ := h₁.trans h₂
      exact ⟨hoptions, hcap, hvectors⟩
  | none =>
      dsimp only
      have hroom : Good NotError (fun f' => KeepsSlots f f' v) f.makeRoom := by
        unfold makeRoom
        exact good_ite (fun _ => grow_slots f v) fun _ => .refl f v
      refine hroom.bind fun f₁ h₁ => good_ite (fun _ => notError_overflow) fun _ => ?_
      exact ⟨h₁.options, h₁.cap, h₁.vectors⟩

theorem freeNode_slots (f : VecFile) (hdims : 0 < f.header.dimensions) (v : ℕ) :
    Good NotError (fun f' => KeepsSlots f f' v) (f.freeNode v) := by
  unfold freeNode
  dsimp only
  refine Good.bind (Q := fun f' => KeepsSlots f f' v)
    (store_good fun _ hw => hw.keepsSlots (Or.inr (Or.inr ⟨le_rfl, ?_⟩))) fun f₁ h₁ => ?_
  · rw [length_leBytes]
    omega
  refine (setDeleted_slots f₁ v v true).bind fun f₂ h₂ => good_ite (fun _ => notError_overflow)
    fun _ => ?_
  obtain ⟨hoptions, hcap, hvectors⟩ := h₁.trans h₂
  exact ⟨hoptions, hcap, hvectors⟩

end VecFile

/-! ## The calls and the slots -/

/-- What a caller sees of a fault. -/
def Fault.returned : Fault → Option BoogyError
  | .error e => some e
  | .panic => none
  | .overflow => none
  | .unspecified => none

namespace VectorCollection

open VecFile

variable {c c' : VectorCollection} {rowid : UInt64} {vector : List UInt32} {v layer : ℕ}
  {distanceFn : DistanceMetric → List UInt32 → List UInt32 → UInt32} {order : HeapOrder}

/-- A node that is added has its vector, and the others have theirs. -/
theorem addNode_slots {f : VecFile} {used : ℕ → Prop} (hf : NodesInv f used) (vector : List UInt32)
    (layer : ℕ) : Good NotError (fun r => KeepsSlots f r.2 r.1 ∧ r.2.readVector r.1 = .ok vector ∧
      r.1 < r.2.header.nodeCapacity) (addNode f vector layer) := by
  unfold addNode
  refine ((allocateNode_good hf).and (allocateNode_slots f f.header.nodeCapacity)).bind
    fun r ⟨⟨_, hnodes, _⟩, h₁⟩ => ?_
  obtain ⟨v, f₁⟩ := r
  have hv : v < f₁.header.nodeCapacity :=
    (hnodes.counted v (Or.inl rfl)).trans_le hnodes.sized.count_le
  have h₁ : KeepsSlots f f₁ v :=
    ⟨h₁.options, h₁.cap, fun n hn _ => h₁.vectors n hn hn.ne⟩
  refine (writeVector_slots f₁ v vector).bind fun f₂ ⟨h₂, hvector⟩ => ?_
  -- the record is written behind all slots
  refine (allocateGraphRecord_slots f₂ v layer f₂.header.nodeCapacity).bind fun f₃ h₃ => ?_
  have hv₂ := hv.trans_le h₂.cap
  have h₃' : KeepsSlots f₂ f₃ v :=
    ⟨h₃.options, h₃.cap, fun n hn _ => h₃.vectors n hn hn.ne⟩
  refine ⟨h₁.trans (h₂.trans h₃'), ?_, hv₂.trans_le h₃.cap⟩
  exact (h₃.vectors v hv₂ hv₂.ne).trans hvector

theorem applyConnections_slots (f : VecFile) (connections : List Hnsw.Connection) (v : ℕ) :
    Good NotError (fun f' => KeepsSlots f f' v) (applyConnections Access.code f connections) := by
  unfold applyConnections
  refine good_foldlM (I := fun f' => KeepsSlots f f' v) _ (.refl f v) fun f₁ c _ h₁ => ?_
  exact (writeNeighbors_slots f₁ c.1 c.2.1 c.2.2 v).mono fun f₂ h₂ => h₁.trans h₂

/-- **An insertion that returns** has written the vector, and no other. -/
theorem wp_insert_slots (hc : MapsInv c) :
    wlp (insert Access.code distanceFn order rowid vector layer) (fun v c' =>
      KeepsSlots c.vecfile c'.vecfile v ∧ c'.vecfile.readVector v = .ok vector) c := by
  unfold insert
  refine wp_get_bind.mpr (wp_ite (fun _ => trivial) fun _ => wp_ite (fun _ => trivial) fun _ => ?_)
  rw [code_run]
  refine wp_ofExcept_bind (addNode_slots hc.nodes vector layer) (fun _ _ => trivial) fun r hadded => ?_
  obtain ⟨v, f₁⟩ := r
  obtain ⟨h₁, hvector, hv⟩ := hadded
  dsimp only at h₁ hvector hv ⊢
  rw [wp, run_set_bind, ← wp]
  refine wp_ofExcept_bind (Hnsw.insert_good (readsGood f₁) _ v layer _ _ _) (fun _ _ => trivial)
    fun result _ => ?_
  rw [wp_bind]
  refine wp_appendCommitted fun wal => ?_
  refine wp_ofExcept_bind (applyConnections_slots f₁ _ f₁.header.nodeCapacity) (fun _ _ => trivial)
    fun f₂ h₂ => ?_
  rw [code_run]
  refine wp_ofExcept_bind (flush_slots _ f₁.header.nodeCapacity) (fun _ _ => trivial) fun f₃ h₃ => ?_
  have hall : ∀ n < f₁.header.nodeCapacity, f₃.readVector n = f₁.readVector n := fun n hn =>
    (h₃.vectors n (hn.trans_le h₂.cap) hn.ne).trans (h₂.vectors n hn hn.ne)
  refine ⟨⟨h₃.options.trans (h₂.options.trans h₁.options),
    h₁.cap.trans (h₂.cap.trans h₃.cap), fun n hn hne => ?_⟩, (hall v hv).trans hvector⟩
  exact (hall n (hn.trans_le h₁.cap)).trans (h₁.vectors n hn hne)

/-- **A deletion that returns** has written the slot of its node at most. -/
theorem wp_delete_slots (hc : MapsInv c) :
    wlp (delete Access.code rowid) (fun _ c' => ∀ v, c.rowidToNode.lookup rowid = some v →
      KeepsSlots c.vecfile c'.vecfile v) c := by
  unfold delete
  refine wp_get_bind.mpr ?_
  cases hlookup : c.rowidToNode.lookup rowid with
  | none => trivial
  | some v =>
      dsimp only
      rw [wp, run_set_bind, ← wp]
      refine wp_ofExcept_bind (entryAfterDelete_good c.vecfile v) (fun _ _ => trivial)
        fun newEp _ => ?_
      rw [wp_bind]
      refine wp_appendCommitted fun wal => ?_
      rw [code_run]
      refine wp_ofExcept_bind (freeNode_slots _ hc.nodes.sized.dims_pos v) (fun _ _ => trivial)
        fun f₁ h₁ => ?_
      rw [code_run]
      refine wp_ofExcept_bind (flush_slots _ v) (fun _ _ => trivial) fun f₂ h₂ v' hv' => ?_
      cases hv'
      have h₁' : KeepsSlots c.vecfile { f₁ with header.entryPoint := newEp } v :=
        ⟨h₁.options, h₁.cap, h₁.vectors⟩
      exact h₁'.trans h₂

end VectorCollection

/-! ## The map -/

/-- Vectors by row id. -/
abbrev VectorMap : Type := UInt64 → Option (List UInt32)

namespace VectorMap

/-- A vector of the right length is put in for a row id that has none. -/
def insert (dims : ℕ) (rowid : UInt64) (vector : List UInt32) :
    EStateM BoogyError VectorMap PUnit := do
  let m ← get
  if vector.length ≠ dims then throw (.vectorDimensionMismatch dims vector.length)
  else if (m rowid).isSome then throw (.vectorError s!"duplicate rowid {rowid}")
  else set (Function.update m rowid (some vector))

def delete (rowid : UInt64) : EStateM BoogyError VectorMap PUnit := do
  let m ← get
  if (m rowid).isNone then throw (.vectorError s!"rowid {rowid} not found")
  else set (Function.update m rowid none)

end VectorMap

/-- The calls on a map: an update takes the old vector out before it looks at the new one. -/
def VectorOp.spec (dims : ℕ) : VectorOp → EStateM BoogyError VectorMap PUnit
  | insert rowid vector _ => VectorMap.insert dims rowid vector
  | delete rowid => VectorMap.delete rowid
  | update rowid vector _ => do
      VectorMap.delete rowid
      VectorMap.insert dims rowid vector

namespace VectorCollection

open VecFile

/-- The vectors of a collection. -/
def contents (c : VectorCollection) : VectorMap := fun rowid =>
  (c.rowidToNode.lookup rowid).bind fun n => (c.vecfile.readVector n).toOption

/-- Every row id has a vector of the file. -/
structure Holds (options : VectorCollectionOptions) (c : VectorCollection) : Prop where
  maps : MapsInv c
  options_eq : c.vecfile.options = options
  stored : ∀ rowid n, c.rowidToNode.lookup rowid = some n →
    ∃ vector, c.vecfile.readVector n = .ok vector

variable {c c' : VectorCollection} {rowid : UInt64} {vector : List UInt32} {v layer : ℕ}
  {options : VectorCollectionOptions}
  {distanceFn : DistanceMetric → List UInt32 → List UInt32 → UInt32} {order : HeapOrder}

theorem Holds.dims_eq (h : Holds options c) : c.vecfile.header.dimensions = options.dimensions :=
  congrArg VectorCollectionOptions.dimensions h.options_eq

theorem contents_of_lookup {n : ℕ} (h : c.rowidToNode.lookup rowid = some n)
    (hread : c.vecfile.readVector n = .ok vector) : c.contents rowid = some vector := by
  unfold contents
  rw [h, Option.bind_some, hread]
  rfl

theorem contents_of_missing (h : c.rowidToNode.lookup rowid = none) : c.contents rowid = none := by
  unfold contents
  rw [h]
  rfl

theorem Holds.lookup_iff (h : Holds options c) :
    (c.contents rowid).isSome = true ↔ rowid ∈ c.rowidToNode := by
  rw [← AList.lookup_isSome]
  cases hlookup : c.rowidToNode.lookup rowid with
  | none =>
      rw [contents_of_missing hlookup]
      exact Iff.rfl
  | some n =>
      obtain ⟨vector, hread⟩ := h.stored rowid n hlookup
      rw [contents_of_lookup hlookup hread]
      exact Iff.rfl

/-- Two row ids do not share a node. -/
theorem Holds.node_inj {rowid' : UInt64} {n : ℕ} (h : Holds options c)
    (hrowid : c.rowidToNode.lookup rowid = some n) (hrowid' : c.rowidToNode.lookup rowid' = some n) :
    rowid = rowid' := by
  have hnode := (h.maps.inverse rowid n).mp hrowid
  rw [(h.maps.inverse rowid' n).mp hrowid'] at hnode
  exact (Option.some.inj hnode).symm

theorem Holds.node_lt {n : ℕ} (h : Holds options c) (hrowid : c.rowidToNode.lookup rowid = some n) :
    n < c.vecfile.header.nodeCapacity :=
  (h.maps.nodes.counted n ⟨rowid, (h.maps.inverse rowid n).mp hrowid⟩).trans_le
    h.maps.nodes.sized.count_le

/-- The contents and the invariant when a vector is put in. -/
theorem Holds.put (h : Holds options c) (hmaps : MapsInv c') (hgone : rowid ∉ c.rowidToNode)
    (hrowids : c'.rowidToNode = c.rowidToNode.insert rowid v)
    (hslots : KeepsSlots c.vecfile c'.vecfile v) (hread : c'.vecfile.readVector v = .ok vector) :
    Holds options c' ∧ c'.contents = Function.update c.contents rowid (some vector) := by
  have hself : c'.rowidToNode.lookup rowid = some v := by
    rw [hrowids]
    exact AList.lookup_insert _
  have hother : ∀ rowid' ≠ rowid, c'.rowidToNode.lookup rowid' = c.rowidToNode.lookup rowid' := by
    intro rowid' hne
    rw [hrowids]
    exact AList.lookup_insert_ne hne
  have hsame : ∀ rowid' ≠ rowid, ∀ n, c.rowidToNode.lookup rowid' = some n →
      c'.vecfile.readVector n = c.vecfile.readVector n := by
    intro rowid' hne n hn
    refine hslots.vectors n (h.node_lt hn) ?_
    rintro rfl
    -- the node would have two row ids
    have hnode := (hmaps.inverse rowid n).mp hself
    rw [(hmaps.inverse rowid' n).mp ((hother rowid' hne).trans hn)] at hnode
    exact hne (Option.some.inj hnode)
  refine ⟨⟨hmaps, hslots.options.trans h.options_eq, fun rowid' n hn => ?_⟩,
    funext fun rowid' => ?_⟩
  · by_cases hne : rowid' = rowid
    · subst hne
      rw [hself] at hn
      cases hn
      exact ⟨vector, hread⟩
    · rw [hother rowid' hne] at hn
      rw [hsame rowid' hne n hn]
      exact h.stored rowid' n hn
  · by_cases hne : rowid' = rowid
    · subst hne
      rw [Function.update_self]
      exact contents_of_lookup hself hread
    · rw [Function.update_of_ne hne]
      unfold contents
      rw [hother rowid' hne]
      cases hn : c.rowidToNode.lookup rowid' with
      | none => rfl
      | some n => rw [Option.bind_some, Option.bind_some, hsame rowid' hne n hn]

/-- The contents and the invariant when a vector is taken out. -/
theorem Holds.take (h : Holds options c) (hmaps : MapsInv c')
    (hwas : c.rowidToNode.lookup rowid = some v)
    (hrowids : c'.rowidToNode = c.rowidToNode.erase rowid)
    (hslots : KeepsSlots c.vecfile c'.vecfile v) :
    Holds options c' ∧ c'.contents = Function.update c.contents rowid none := by
  have hself : c'.rowidToNode.lookup rowid = none := by
    rw [hrowids]
    exact AList.lookup_erase _ _
  have hother : ∀ rowid' ≠ rowid, c'.rowidToNode.lookup rowid' = c.rowidToNode.lookup rowid' := by
    intro rowid' hne
    rw [hrowids]
    exact AList.lookup_erase_ne hne
  have hsame : ∀ rowid' ≠ rowid, ∀ n, c.rowidToNode.lookup rowid' = some n →
      c'.vecfile.readVector n = c.vecfile.readVector n := by
    intro rowid' hne n hn
    refine hslots.vectors n (h.node_lt hn) ?_
    rintro rfl
    exact hne (h.node_inj hn hwas)
  refine ⟨⟨hmaps, hslots.options.trans h.options_eq, fun rowid' n hn => ?_⟩,
    funext fun rowid' => ?_⟩
  · by_cases hne : rowid' = rowid
    · subst hne
      exact nomatch hself.symm.trans hn
    · rw [hother rowid' hne] at hn
      rw [hsame rowid' hne n hn]
      exact h.stored rowid' n hn
  · by_cases hne : rowid' = rowid
    · subst hne
      rw [Function.update_self]
      exact contents_of_missing hself
    · rw [Function.update_of_ne hne]
      unfold contents
      rw [hother rowid' hne]
      cases hn : c.rowidToNode.lookup rowid' with
      | none => rfl
      | some n => rw [Option.bind_some, Option.bind_some, hsame rowid' hne n hn]

/-! ### The calls follow the map -/

/-- A row id that is there is refused. -/
theorem insert_duplicate (hlen : vector.length = c.vecfile.header.dimensions)
    (hmem : rowid ∈ c.rowidToNode) :
    insert Access.code distanceFn order rowid vector layer c =
      .error (.error (.vectorError s!"duplicate rowid {rowid}")) c := by
  unfold insert
  rw [run_bind_ok (rfl : (get : EStateM Fault VectorCollection VectorCollection) c = .ok c c)]
  dsimp only
  rw [if_neg (not_not_intro hlen), if_pos hmem]
  rfl

/-- **An insertion follows the map.** -/
theorem insert_follows : Follows (Holds options) contents Fault.returned
    (insert Access.code distanceFn order rowid vector layer >>= fun _ => pure ⟨⟩)
    (VectorMap.insert options.dimensions rowid vector) := by
  intro c hc
  have hdims := hc.dims_eq
  by_cases hlen : vector.length = options.dimensions
  swap
  · have hrun : insert Access.code distanceFn order rowid vector layer c = _ :=
      insert_wrongLength (by rwa [hdims])
    refine (wp_of_error (run_bind_error hrun)).mpr fun e he => ?_
    cases he
    refine ⟨hc, ?_⟩
    rw [hdims]
    exact congrFun (if_pos hlen) _
  by_cases hmem : rowid ∈ c.rowidToNode
  · have hrun : insert Access.code distanceFn order rowid vector layer c = _ :=
      insert_duplicate (hlen.trans hdims.symm) hmem
    refine (wp_of_error (run_bind_error hrun)).mpr fun e he => ?_
    cases he
    refine ⟨hc, ?_⟩
    exact congrFun ((if_neg (not_not_intro hlen)).trans (if_pos (hc.lookup_iff.mpr hmem))) _
  refine wp_bind.mpr (((wp_insert hc.maps).and (wp_insert_slots hc.maps)).mono
    (fun v c' h => ?_) fun e c' h error herror => ?_)
  · obtain ⟨⟨-, hmaps, hrowids, -⟩, hslots, hread⟩ := h
    obtain ⟨hholds, hcontents⟩ := hc.put hmaps hmem hrowids hslots hread
    refine ⟨hholds, ?_⟩
    rw [hcontents]
    exact congrFun ((if_neg (not_not_intro hlen)).trans (if_neg (hmem ∘ hc.lookup_iff.mp))) _
  · -- nothing else is refused
    have he : e = .error error := by
      cases e with
      | error _ => cases herror; rfl
      | panic => cases herror
      | overflow => cases herror
      | unspecified => cases herror
    exact absurd ⟨hlen.trans hdims.symm, hmem⟩ (h.1 error he).1

/-- **A deletion follows the map.** -/
theorem delete_follows : Follows (Holds options) contents Fault.returned
    (delete Access.code rowid) (VectorMap.delete rowid) := by
  intro c hc
  cases hlookup : c.rowidToNode.lookup rowid with
  | none =>
      have hrun : delete Access.code rowid c =
          .error (.error (.vectorError s!"rowid {rowid} not found")) c := by
        unfold delete
        rw [run_bind_ok (rfl : (get : EStateM Fault VectorCollection VectorCollection) c = .ok c c)]
        rw [hlookup]
        rfl
      refine (wp_of_error hrun).mpr fun e he => ?_
      cases he
      refine ⟨hc, ?_⟩
      have hnone : (c.contents rowid).isNone = true := by rw [contents_of_missing hlookup]; rfl
      exact congrFun (if_pos hnone) _
  | some v =>
      have hmem : rowid ∈ c.rowidToNode := by
        rw [← AList.lookup_isSome, hlookup]
        rfl
      refine ((wp_delete hc.maps).and (wp_delete_slots hc.maps)).mono
        (fun _ c' h => ?_) fun e c' h error herror => ?_
      · obtain ⟨⟨-, hmaps, hrowids, -⟩, hslots⟩ := h
        obtain ⟨hholds, hcontents⟩ := hc.take hmaps hlookup hrowids (hslots v hlookup)
        refine ⟨hholds, ?_⟩
        rw [hcontents]
        have hsome := hc.lookup_iff.mpr hmem
        have hnone : ¬ (c.contents rowid).isNone = true := by
          rw [← Option.not_isSome, hsome]
          exact Bool.false_ne_true
        exact congrFun (if_neg hnone) _
      · have he : e = .error error := by
          cases e with
          | error _ => cases herror; rfl
          | panic => cases herror
          | overflow => cases herror
          | unspecified => cases herror
        exact absurd hmem (h.1 error he).1

end VectorCollection

/-- **Every call follows the map.** -/
theorem VectorOp.run_follows {options : VectorCollectionOptions}
    {distanceFn : DistanceMetric → List UInt32 → List UInt32 → UInt32} {order : HeapOrder}
    (op : VectorOp) :
    Follows (VectorCollection.Holds options) VectorCollection.contents Fault.returned
      (op.run Access.code distanceFn order) (op.spec options.dimensions) := by
  cases op with
  | insert rowid vector layer => exact VectorCollection.insert_follows
  | delete rowid => exact VectorCollection.delete_follows
  | update rowid vector layer =>
      have hrun : (VectorOp.update rowid vector layer).run Access.code distanceFn order =
          VectorCollection.delete Access.code rowid >>= fun _ =>
            VectorCollection.insert Access.code distanceFn order rowid vector layer >>= fun _ =>
              pure ⟨⟩ := by
        change (VectorCollection.update Access.code distanceFn order rowid vector layer >>= fun _ =>
          (pure ⟨⟩ : EStateM Fault VectorCollection PUnit)) = _
        exact bind_assoc _ _ _
      rw [hrun]
      exact VectorCollection.delete_follows.bind fun _ => VectorCollection.insert_follows

/-! ## Searches -/

namespace VectorCollection

variable {c c₀ : VectorCollection} {options : VectorCollectionOptions}
  {distanceFn : DistanceMetric → List UInt32 → List UInt32 → UInt32} {order : HeapOrder}
  {rowLoader : Option (UInt64 → Option (List (String × Value)))} {filter : Option Filter}
  {query : List UInt32} {k efSearch : ℕ} {found : List VectorResult}

/-- Whether the row of a row id passes the filter. -/
def rowAllowed (rowLoader : Option (UInt64 → Option (List (String × Value))))
    (filter : Option Filter) (rowid : UInt64) : Bool :=
  match rowLoader, filter with
  | some load, some f =>
      match load rowid with
      | some columns =>
          f.matches (((columns.find? fun col => col.1 = f.column).map Prod.snd).getD .null)
      | none => false
  | _, _ => true

theorem allowed_eq {n : ℕ} {rowid : UInt64} (h : c.nodeToRowid.lookup n = some rowid) :
    allowed c rowLoader filter n = rowAllowed rowLoader filter rowid := by
  unfold allowed rowAllowed
  rw [h]
  cases rowLoader <;> cases filter <;> rfl

/-- What a search may return from a map: rows of the map that pass, each once, with the distances
of their vectors. -/
structure Serves (m : VectorMap) (dist : List UInt32 → UInt32) (passes : UInt64 → Bool) (k : ℕ)
    (found : List VectorResult) : Prop where
  stored : ∀ r ∈ found, ∃ vector, m r.rowid = some vector ∧ r.distance = dist vector
  passes : ∀ r ∈ found, passes r.rowid = true
  distinct : (found.map VectorResult.rowid).Nodup
  length_le : found.length ≤ k

/-- No node that is not marked as deleted is at a distance that is not a number. -/
def Numbers (c : VectorCollection) (dist : List UInt32 → UInt32) : Prop :=
  ∀ n vector, c.vecfile.isDeleted n = .ok false → c.vecfile.readVector n = .ok vector →
    Binary32.isNaN (dist vector) = false

/-- **A search returns rows of the map**, in the order of their distances if these are numbers. -/
theorem Holds.search_ok (hc : Holds options c)
    (hrun : search Access.code distanceFn order c query k efSearch rowLoader filter = .ok found) :
    query.length = options.dimensions ∧
      Serves c.contents (distanceFn options.metric query) (rowAllowed rowLoader filter) k found ∧
      (c.Numbers (distanceFn options.metric query) →
        found.Pairwise fun r r' => Binary32.orderKey r.distance ≤ Binary32.orderKey r'.distance) := by
  have hmetric : c.vecfile.header.metric = options.metric :=
    congrArg VectorCollectionOptions.metric hc.options_eq
  unfold search at hrun
  dsimp only at hrun
  rw [hc.dims_eq, hmetric] at hrun
  split at hrun
  · cases hrun
  rename_i hlen
  refine ⟨not_not.mp hlen, ?_⟩
  cases hentry : c.vecfile.header.entryPoint with
  | none =>
      rw [hentry] at hrun
      cases hrun
      exact ⟨⟨nofun, nofun, List.nodup_nil, Nat.zero_le k⟩, fun _ => List.Pairwise.nil⟩
  | some ep =>
      rw [hentry] at hrun
      obtain ⟨neighbors, hsearch, hfound⟩ := bind_eq_ok.mp hrun
      cases hfound
      obtain ⟨hlength, hmeasures⟩ := Hnsw.search_measures hsearch
      have hnamed : ∀ r ∈ neighbors.filterMap (fun n =>
          (c.nodeToRowid.lookup n.1).map fun rowid => (⟨rowid, n.2⟩ : VectorResult)),
          ∃ n ∈ neighbors, c.nodeToRowid.lookup n.1 = some r.rowid ∧ n.2 = r.distance := by
        intro r hr
        obtain ⟨n, hn, hsome⟩ := List.mem_filterMap.mp hr
        obtain ⟨rowid, hlookup, rfl⟩ := Option.map_eq_some_iff.mp hsome
        exact ⟨n, hn, hlookup, rfl⟩
      refine ⟨⟨fun r hr => ?_, fun r hr => ?_, ?_, ?_⟩, fun hnumbers => ?_⟩
      · obtain ⟨n, hn, hlookup, hdist⟩ := hnamed r hr
        obtain ⟨vector, hread, hd⟩ := (hmeasures.measured n hn).vector
        have hread : c.vecfile.readVector n.1 = .ok vector := (code_run _).symm.trans hread
        refine ⟨vector, contents_of_lookup ((hc.maps.inverse r.rowid n.1).mpr hlookup) hread, ?_⟩
        exact hdist.symm.trans hd
      · obtain ⟨n, hn, hlookup, -⟩ := hnamed r hr
        exact (allowed_eq hlookup).symm.trans (hmeasures.measured n hn).isAllowed
      · rw [List.Nodup, List.pairwise_map]
        have hnodes := List.pairwise_map.mp hmeasures.nodup
        refine hnodes.filterMap _ fun n n' hne r hr r' hr' heq => ?_
        obtain ⟨rowid, hlookup, rfl⟩ := Option.map_eq_some_iff.mp hr
        obtain ⟨rowid', hlookup', rfl⟩ := Option.map_eq_some_iff.mp hr'
        -- one row id has one node
        have heq : rowid = rowid' := heq
        have hnode := (hc.maps.inverse rowid n.1).mpr hlookup
        rw [heq, (hc.maps.inverse rowid' n'.1).mpr hlookup'] at hnode
        exact hne (Option.some.inj hnode).symm
      · exact (List.length_filterMap_le _ _).trans hlength
      · refine (hmeasures.ascending fun n d hn => ?_).filterMap _ fun n n' hle r hr r' hr' => ?_
        · obtain ⟨vector, hread, rfl⟩ := hn.vector
          exact hnumbers n vector ((code_run _).symm.trans hn.live) ((code_run _).symm.trans hread)
        · obtain ⟨rowid, -, rfl⟩ := Option.map_eq_some_iff.mp hr
          obtain ⟨rowid', -, rfl⟩ := Option.map_eq_some_iff.mp hr'
          exact hle

/-- A search is refused for the length of its query only. -/
theorem Holds.search_error (hc : Holds options c) {e : BoogyError}
    (hrun : search Access.code distanceFn order c query k efSearch rowLoader filter =
      .error (.error e)) : query.length ≠ options.dimensions ∧
        e = .vectorDimensionMismatch options.dimensions query.length := by
  unfold search at hrun
  dsimp only at hrun
  rw [hc.dims_eq] at hrun
  split at hrun
  · rename_i hlen
    cases hrun
    exact ⟨hlen, rfl⟩
  · cases hentry : c.vecfile.header.entryPoint with
    | none =>
        rw [hentry] at hrun
        cases hrun
    | some ep =>
        rw [hentry] at hrun
        have hreads := readsGood c.vecfile
        have hgood : Good NotError (fun _ => True) (Hnsw.search
            (distanceFn c.vecfile.header.metric) (Access.code.storage c.vecfile) order query k
              efSearch ep c.vecfile.header.maxLayer (allowed c rowLoader filter)) := by
          unfold Hnsw.search
          refine (Hnsw.descendTo_good hreads ep _ 0).bind fun start _ => ?_
          exact (Hnsw.searchLayer_good hreads _ _ _ [start]).bind fun _ _ => trivial
        have hnot := hgood.bind (R := fun _ => True) (f := fun neighbors => .ok
          (neighbors.filterMap fun n => (c.nodeToRowid.lookup n.1).map fun rowid =>
            (⟨rowid, n.2⟩ : VectorResult))) fun _ _ => trivial
        exact absurd rfl (hnot.error hrun e)

/-- A new collection is an empty map. -/
theorem create_holds {cipher : Option Aes256Gcm} {nonces : ℕ → Nonce}
    (h : create options cipher nonces = .ok c) :
    Holds options c ∧ c.contents = fun _ => none := by
  have hmaps := (create_inv h).maps
  unfold create at h
  split at h
  · cases h
  · split at h
    · cases h
    · cases h
      exact ⟨⟨hmaps, rfl, fun _ _ hn => nomatch hn⟩, rfl⟩

/-- **In every history of calls a collection serves a map.**  The replies are those of the map, and
a search returns rows of the map, or refuses a query of another length. -/
theorem serves {cipher : Option Aes256Gcm} {nonces : ℕ → Nonce}
    {calls : List (VectorOp × Except BoogyError PUnit)}
    (hcreate : create options cipher nonces = .ok c₀)
    (hrun : History (fun op : VectorOp => op.run Access.code distanceFn order) Fault.returned c₀
      calls c) :
    History (VectorOp.spec options.dimensions) some (fun _ => none) calls c.contents ∧
      ∀ query k efSearch rowLoader filter,
        (∀ found, search Access.code distanceFn order c query k efSearch rowLoader filter =
          .ok found → query.length = options.dimensions ∧
            Serves c.contents (distanceFn options.metric query) (rowAllowed rowLoader filter) k
              found ∧
            (c.Numbers (distanceFn options.metric query) → found.Pairwise fun r r' =>
              Binary32.orderKey r.distance ≤ Binary32.orderKey r'.distance)) ∧
        ∀ e, search Access.code distanceFn order c query k efSearch rowLoader filter =
          .error (.error e) → query.length ≠ options.dimensions ∧
            e = .vectorDimensionMismatch options.dimensions query.length := by
  obtain ⟨hc₀, hempty⟩ := create_holds hcreate
  obtain ⟨hc, hhistory⟩ := hrun.follows VectorOp.run_follows hc₀
  rw [hempty] at hhistory
  exact ⟨hhistory, fun _ _ _ _ _ =>
    ⟨fun _ hsearch => hc.search_ok hsearch, fun _ hsearch => hc.search_error hsearch⟩⟩

/-- A row id that is there is refused, and an update with a vector that is too short loses the old
one: the search finds the other row. -/
theorem serves_two :
    let calls : List (VectorOp × Except BoogyError PUnit) :=
      [(.insert 1 [0] 0, .ok ⟨⟩), (.insert 1 [0] 0, .error (.vectorError "duplicate rowid 1")),
        (.insert 2 [7] 0, .ok ⟨⟩), (.update 1 [] 0, .error (.vectorDimensionMismatch 1 0))]
    ∃ c, History (fun op : VectorOp => op.run Access.code noDistance .inOrder) Fault.returned
        (newVectors 16) calls c ∧
      History (VectorOp.spec 1) some (fun _ => none) calls c.contents ∧
      Serves c.contents (noDistance .euclidean [7]) (rowAllowed none none) 5 [⟨2, 0⟩] := by
  intro calls
  have hcreate : create ⟨1, .euclidean, 16, 10⟩ none VectorWal.zeroNonces = .ok (newVectors 16) := rfl
  have heval : (replies (fun op : VectorOp => op.run Access.code noDistance .inOrder)
      Fault.returned (calls.map Prod.fst) (newVectors 16)).any (fun r =>
        r.1 = calls.map Prod.snd ∧
        (search Access.code noDistance .inOrder r.2 [7] 5 10 none none).toOption.map
          (List.map fun r => (r.rowid, r.distance)) = some [(2, 0)]) = true := by
    decide +kernel
  obtain ⟨⟨replied, c⟩, hreplies, hcalls⟩ := (Option.any_eq_true _ _).mp heval
  obtain ⟨hreplied, hfound⟩ := of_decide_eq_true hcalls
  have hreplied : replied = calls.map Prod.snd := hreplied
  subst hreplied
  have hrun := History.of_replies History.start hreplies
  obtain ⟨hhistory, hsearch⟩ := serves hcreate hrun
  obtain ⟨found, hok, hmap⟩ := Option.map_eq_some_iff.mp hfound
  refine ⟨c, hrun, hhistory, ?_⟩
  cases hsearched : search Access.code noDistance .inOrder c [7] 5 10 none none with
  | error e =>
      rw [hsearched] at hok
      cases hok
  | ok found' =>
      rw [hsearched] at hok
      cases hok
      obtain ⟨-, hserves, -⟩ := (hsearch [7] 5 10 none none).1 found hsearched
      have hinj : Function.Injective fun r : VectorResult => (r.rowid, r.distance) := by
        intro r r' h
        cases r
        cases h
        rfl
      have heq : found = [⟨2, 0⟩] := List.map_injective_iff.mpr hinj hmap
      rwa [heq] at hserves

end VectorCollection

end BoogyDb
