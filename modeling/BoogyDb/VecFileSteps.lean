import BoogyDb.VecFileLayout

/-!
# What the operations do to a vector file

One lemma for each operation: under `Shape` it returns, and what becomes of the records,
vectors, flags and links of the nodes.  A node that the operation is not about keeps all
of them (`SameNode`).

`grow` moves the three regions behind the vectors, and nothing that a node has changes.
-/

namespace BoogyDb

open Bytes Memory

namespace VecFile

variable {f f' f'' : VecFile} {n n' layer : ℕ}

/-- The first four bytes of a slot: the link of a freed node. -/
def linkOf (f : VecFile) (n : ℕ) : ℕ := f.mem.word (f.slotOffset n) 4

/-- The node has the same record, vector, flag and link. -/
structure SameNode (f f' : VecFile) (n : ℕ) : Prop where
  record : SameRecord f f' n
  vector : f'.vectorOf n = f.vectorOf n
  deleted : f'.deletedOf n = f.deletedOf n
  link : f'.linkOf n = f.linkOf n

theorem SameNode.refl (f : VecFile) (n : ℕ) : SameNode f f n := ⟨.refl f n, rfl, rfl, rfl⟩

theorem SameNode.trans (h : SameNode f f' n) (h' : SameNode f' f'' n) : SameNode f f'' n :=
  ⟨h.record.trans h'.record, h'.vector.trans h.vector, h'.deleted.trans h.deleted,
    h'.link.trans h.link⟩

/-- Where the parts of a node are. -/
structure Places (f : VecFile) (n : ℕ) : Prop where
  header : vecHeaderSize ≤ f.slotOffset n
  slot : f.slotOffset n + f.header.dimensions * 4 ≤ f.indexStart
  indexEntry : f.nodeIndexEntryOffset n = f.indexStart + n * 8
  index : f.nodeIndexEntryOffset n + 8 ≤ f.graphStart
  record : f.recordStart n = f.graphStart + f.recordOf n
  graph : f.graphStart ≤ f.flagsStart
  flag : f.deletedFlagOffset n = f.flagsStart + n
  flagEnd : f.deletedFlagOffset n + 1 ≤ f.mem.size

theorem Shape.places (h : Shape f) (hn : n < f.header.nodeCapacity) : Places f n where
  header := vecHeaderSize_le_slot f n
  slot := slot_le hn
  indexEntry := rfl
  index := Shape.index_le hn
  record := rfl
  graph := Shape.graph_le_flags f
  flag := rfl
  flagEnd := by
    rw [h.size, deletedFlagOffset_eq]
    omega

section

variable {start stop : ℕ}

theorem WritesIn.linkOf (h : WritesIn f f' start stop)
    (hapart : f.slotOffset n + 4 ≤ start ∨ stop ≤ f.slotOffset n) : f'.linkOf n = f.linkOf n := by
  unfold VecFile.linkOf
  rw [h.shape.slotOffset]
  exact ((h.agree _ _ hapart).moved le_rfl le_rfl).word

/-- A write behind the vectors keeps vectors and links. -/
theorem WritesIn.behind (h : WritesIn f f' start stop) (hf : Shape f)
    (hn : n < f.header.nodeCapacity) (hstart : f.indexStart ≤ start) :
    f'.vectorOf n = f.vectorOf n ∧ f'.linkOf n = f.linkOf n := by
  have hp := hf.places hn
  have hslot := hp.slot
  have hdims := hf.dims_pos
  exact ⟨h.vectorOf (Or.inl (by omega)), h.linkOf (Or.inl (by omega))⟩

/-- A write before the node index keeps records and flags. -/
theorem WritesIn.before (h : WritesIn f f' start stop) (hf : Shape f)
    (hn : n < f.header.nodeCapacity) (hstop : stop ≤ f.indexStart) :
    SameRecord f f' n ∧ f'.deletedOf n = f.deletedOf n := by
  have hp := hf.places hn
  have hentry := hp.indexEntry
  have hindex := hp.index
  have hrecord := hp.record
  have hgraph := hp.graph
  have hflag := hp.flag
  exact ⟨h.sameRecord (Or.inr (by omega)) (Or.inr (by omega)), h.deletedOf (Or.inr (by omega))⟩

/-- A write into the header keeps all nodes. -/
theorem WritesIn.inHeader (h : WritesIn f f' start stop) (hf : Shape f)
    (hn : n < f.header.nodeCapacity) (hstop : stop ≤ vecHeaderSize) : SameNode f f' n := by
  have hp := hf.places hn
  have hheader := hp.header
  have hslot := hp.slot
  obtain ⟨hrecord, hdeleted⟩ := h.before hf hn (by omega)
  exact ⟨hrecord, h.vectorOf (Or.inr (by omega)), hdeleted, h.linkOf (Or.inr (by omega))⟩

/-- A write into the slot of a node keeps the other nodes. -/
theorem WritesIn.inSlot (h : WritesIn f f' start stop) (hf : Shape f)
    (hn : n < f.header.nodeCapacity) (hn' : n' < f.header.nodeCapacity) (hne : n' ≠ n)
    (hstart : f.slotOffset n ≤ start) (hstop : stop ≤ f.slotOffset n + f.header.dimensions * 4) :
    SameNode f f' n' := by
  have hdims := hf.dims_pos
  have hslot := (hf.places hn).slot
  obtain ⟨hrecord, hdeleted⟩ := h.before hf hn' (by omega)
  rcases Nat.lt_or_gt_of_ne hne with hlt | hlt
  · have hslots := @slots_apart f _ _ hlt
    exact ⟨hrecord, h.vectorOf (Or.inl (by omega)), hdeleted, h.linkOf (Or.inl (by omega))⟩
  · have hslots := @slots_apart f _ _ hlt
    exact ⟨hrecord, h.vectorOf (Or.inr (by omega)), hdeleted, h.linkOf (Or.inr (by omega))⟩

end

/-! ## Flags, index entries and vectors -/

theorem setDeleted_ok (hf : Shape f) (hn : n < f.header.nodeCapacity) (b : Bool) :
    ∃ f', f.setDeleted n b = .ok f' ∧ f'.header = f.header ∧ Shape f' ∧ f'.deletedOf n = b ∧
      (∀ n' < f.header.nodeCapacity, f.recordOf n' + f.recordSize n' ≤ f.header.graphDataLen →
        SameRecord f f' n') ∧
      ∀ n' < f.header.nodeCapacity, f'.vectorOf n' = f.vectorOf n' ∧ f'.linkOf n' = f.linkOf n' ∧
        f'.recordOf n' = f.recordOf n' ∧ (n' ≠ n → f'.deletedOf n' = f.deletedOf n') := by
  have hp := hf.places hn
  have hflag := hp.flag
  have hgraph := hp.graph
  have hindex := hp.index
  have hentry := hp.indexEntry
  have hgraphEnd := hf.graph_end_le
  obtain ⟨hrun, hw⟩ := @store_ok f (f.deletedFlagOffset n) [if b then 1 else 0] hp.flagEnd
  refine ⟨_, hrun, rfl, hf.of_writes hw, ?_, fun n' hn' hle => ?_, fun n' hn' => ?_⟩
  · change ((f.mem.write (f.deletedFlagOffset n) [if b then 1 else 0]).byte
      (f.deletedFlagOffset n) != 0) = b
    rw [write_byte le_rfl (by rw [Nat.sub_self]; exact Nat.one_pos)]
    simp only [Nat.sub_self, List.getElem_cons_zero]
    cases b <;> rfl
  · have hp' := hf.places hn'
    have hindex' := hp'.index
    have hrecord' := hp'.record
    exact hw.sameRecord (Or.inl (by omega)) (Or.inl (by omega))
  · have hp' := hf.places hn'
    have hindex' := hp'.index
    have hflag' := hp'.flag
    have hslot' := hp'.slot
    have hdims := hf.dims_pos
    obtain ⟨hvector, hlink⟩ := hw.behind hf hn' (by omega)
    refine ⟨hvector, hlink, hw.recordOf (Or.inl (by omega)), fun hne => hw.deletedOf ?_⟩
    rw [List.length_singleton]
    omega

theorem setGraphRecordOffset_ok (hf : Shape f) (hn : n < f.header.nodeCapacity) {r : ℕ}
    (hr : r < 2 ^ 64) :
    ∃ f', f.setGraphRecordOffset n r = .ok f' ∧ f'.header = f.header ∧ Shape f' ∧
      f'.recordOf n = r ∧ WritesIn f f' (f.nodeIndexEntryOffset n) (f.nodeIndexEntryOffset n + 8) ∧
      ∀ n' < f.header.nodeCapacity, f'.vectorOf n' = f.vectorOf n' ∧ f'.linkOf n' = f.linkOf n' ∧
        f'.deletedOf n' = f.deletedOf n' ∧ (n' ≠ n → SameRecord f f' n') := by
  have hp := hf.places hn
  have hindex := hp.index
  have hgraph := hp.graph
  have hentry := hp.indexEntry
  have hend := hf.flags_le
  have hrange : f.nodeIndexEntryOffset n + (leBytes 8 r).length ≤ f.mem.size := by
    rw [length_leBytes]
    omega
  obtain ⟨hrun, hw⟩ := store_ok hrange
  rw [length_leBytes] at hw
  refine ⟨_, hrun, rfl, hf.of_writes hw, ?_, hw, fun n' hn' => ?_⟩
  · exact word_write_self (by simpa using hr)
  · have hp' := hf.places hn'
    have hentry' := hp'.indexEntry
    have hrecord' := hp'.record
    have hflag' := hp'.flag
    obtain ⟨hvector, hlink⟩ := hw.behind hf hn' (by omega)
    refine ⟨hvector, hlink, hw.deletedOf (Or.inr (by omega)), fun hne => ?_⟩
    exact hw.sameRecord (by omega) (Or.inr (by omega))

theorem words_map_ofNat {words : List UInt32} :
    (words.map UInt32.toNat).map UInt32.ofNat = words := by
  rw [List.map_map]
  refine (List.map_congr_left fun w _ => ?_).trans (List.map_id _)
  exact UInt32.ofNat_toNat

theorem writeVector_ok (hf : Shape f) (hn : n < f.header.nodeCapacity) {vector : List UInt32}
    (hlen : vector.length = f.header.dimensions) :
    ∃ f', f.writeVector n vector = .ok f' ∧ f'.header = f.header ∧ Shape f' ∧
      f'.vectorOf n = vector ∧
      (∀ n' < f.header.nodeCapacity, n' ≠ n → SameNode f f' n') ∧
      SameRecord f f' n ∧ f'.deletedOf n = f.deletedOf n := by
  have hslot := (hf.places hn).slot
  have hend := hf.flags_le
  have hgraph := (hf.places hn).graph
  have hindex := (hf.places hn).index
  have hbytes : (wordsBytes (vector.map UInt32.toNat)).length = f.header.dimensions * 4 := by
    rw [length_wordsBytes, List.length_map, hlen]
  have hentry := (hf.places hn).indexEntry
  have hrange : f.slotOffset n + (wordsBytes (vector.map UInt32.toNat)).length ≤ f.mem.size := by
    rw [hbytes]
    omega
  obtain ⟨hrun, hw⟩ := store_ok hrange
  rw [hbytes] at hw
  obtain ⟨hrecord, hdeleted⟩ := hw.before hf hn hslot
  refine ⟨{ f with mem := f.mem.write (f.slotOffset n) (wordsBytes (vector.map UInt32.toNat)) },
    ?_, rfl, hf.of_writes hw, ?_, fun n' hn' hne => ?_, hrecord, hdeleted⟩
  · unfold writeVector
    rw [if_neg (not_not_intro hlen), hrun]
  · have hlt : ∀ w ∈ vector.map UInt32.toNat, w < 2 ^ 32 := by
      intro w hw
      obtain ⟨v, -, rfl⟩ := List.mem_map.mp hw
      exact v.toNat_lt
    have hwords := @words_write_words f.mem (f.slotOffset n) f.header.dimensions 0 _ hlt
      (by rw [List.length_map, hlen, Nat.zero_add])
    rw [Nat.zero_mul, Nat.add_zero, List.drop_zero,
      List.take_of_length_le (by rw [List.length_map, hlen])] at hwords
    change ((f.mem.write (f.slotOffset n) _).words (f.slotOffset n) f.header.dimensions).map _ = _
    rw [hwords, words_map_ofNat]
  · exact hw.inSlot hf hn hn' hne le_rfl le_rfl

/-! ## Graph records -/

@[simp] theorem length_neighborWords (layer m : ℕ) (neighbors : List ℕ) :
    (neighborWords layer m neighbors).length = 1 + layerCapacity layer m := by
  rw [neighborWords, List.length_cons, List.length_map, List.length_range, Nat.add_comm]

/-- The slots of a list hold it. -/
theorem listSlots_eq {neighbors : List ℕ} {cap : ℕ} (hlen : neighbors.length ≤ cap)
    (hlt : ∀ x ∈ neighbors, x < noneU32) :
    ((List.range cap).map fun i => (neighbors[i]?).getD noneU32).take neighbors.length =
        neighbors ∧
      ∀ w ∈ (List.range cap).map fun i => (neighbors[i]?).getD noneU32, w < 2 ^ 32 := by
  constructor
  · refine List.ext_getElem? fun i => ?_
    by_cases hi : i < neighbors.length
    · rw [List.getElem?_take_of_lt hi, List.getElem?_map,
        List.getElem?_range (hi.trans_le hlen), Option.map_some, List.getElem?_eq_getElem hi,
        Option.getD_some]
    · have hle := Nat.le_of_not_lt hi
      rw [List.getElem?_eq_none hle, List.getElem?_eq_none]
      rw [List.length_take]
      omega
  · intro w hw
    obtain ⟨i, -, rfl⟩ := List.mem_map.mp hw
    have hmax : noneU32 < 2 ^ 32 := by decide
    cases hget : neighbors[i]? with
    | none => exact hmax
    | some x => exact (hlt x (List.mem_of_getElem? hget)).trans hmax

theorem layerCapacity_le (layer m : ℕ) : layerCapacity layer m ≤ 2 * m := by
  unfold layerCapacity
  split <;> omega

theorem listOf_congr (h : SameShape f f') (hrecord : f'.recordOf n = f.recordOf n)
    (hagree : Agree f.mem f'.mem (f.listStart n layer)
      (f.listStart n layer + layerEntrySize layer f.header.m)) :
    f'.listOf n layer = f.listOf n layer := by
  have hstart : f'.listStart n layer = f.listStart n layer := by
    unfold listStart
    rw [recordStart_eq, recordStart_eq, hrecord, h.graphStart, h.m]
  have hlist := @Agree.moved _ _ _ _ _ (layerEntrySize layer f.header.m) hagree le_rfl le_rfl
  unfold layerEntrySize at hlist
  have hslots : Moved f.mem (f.listStart n layer + 4) f'.mem (f.listStart n layer + 4)
      (min (f.mem.word (f.listStart n layer) 4) (layerCapacity layer f.header.m) * 4) :=
    hlist.part (by omega)
  unfold listOf
  rw [hstart, (hlist.head (Nat.le_add_right _ _)).word, h.m, hslots.words]

/-- What becomes of the lists when one is written. -/
structure WritesList (f f' : VecFile) (n layer : ℕ) (neighbors : List ℕ) : Prop where
  header : f'.header = f.header
  layout : Layout f'
  parts : ∀ n' < f.header.nodeCapacity, f'.vectorOf n' = f.vectorOf n' ∧
    f'.linkOf n' = f.linkOf n' ∧ f'.deletedOf n' = f.deletedOf n' ∧ f'.recordOf n' = f.recordOf n'
  level : ∀ n' < f.header.nodeCount, f'.levelOf n' = f.levelOf n'
  listSelf : f'.listOf n layer = neighbors
  listOther : ∀ n' < f.header.nodeCount, ∀ layer' ≤ f.levelOf n', (n' = n → layer' ≠ layer) →
    f'.listOf n' layer' = f.listOf n' layer'

theorem writeNeighbors_ok (hf : Layout f) (hn : n < f.header.nodeCount)
    (hlayer : layer ≤ f.levelOf n) {neighbors : List ℕ}
    (hlen : neighbors.length ≤ layerCapacity layer f.header.m)
    (hlt : ∀ x ∈ neighbors, x < noneU32) :
    ∃ f', f.writeNeighbors n layer neighbors = .ok f' ∧ WritesList f f' n layer neighbors := by
  have hcap := hf.lt_cap hn
  have hlist := Layout.list_le hlayer
  have hrecord := hf.record_le hn
  have hend := hf.shape.graph_end_le
  have hflags := hf.shape.flags_le
  have hp := hf.shape.places hcap
  have hstart := hp.record
  have hindex := hp.index
  have hbytes : (wordsBytes (neighborWords layer f.header.m neighbors)).length =
      layerEntrySize layer f.header.m := by
    rw [length_wordsBytes, length_neighborWords]
    unfold layerEntrySize
    omega
  have hfour := four_le_layerOffset layer f.header.m
  have hliststart : f.listStart n layer =
    f.recordStart n + layerOffsetInRecord layer f.header.m := rfl
  have hrange : f.listStart n layer +
      (wordsBytes (neighborWords layer f.header.m neighbors)).length ≤ f.mem.size := by
    rw [hbytes]
    omega
  obtain ⟨hrun, hw⟩ := store_ok hrange
  rw [hbytes] at hw
  set f' : VecFile := { f with
    mem := f.mem.write (f.listStart n layer)
      (wordsBytes (neighborWords layer f.header.m neighbors)) } with hf'
  -- the write is inside one list of one record: the index lies in front of it, the other records
  -- beside it, and the flags behind it
  have hrecordOf : ∀ n' < f.header.nodeCapacity, f'.recordOf n' = f.recordOf n' := by
    intro n' hn'
    have hindex' := (hf.shape.places hn').index
    exact hw.recordOf (Or.inl (by omega))
  have hother : ∀ n' < f.header.nodeCount, n' ≠ n → SameRecord f f' n' := by
    intro n' hn' hne
    have hp' := hf.shape.places (hf.lt_cap hn')
    have hindex' := hp'.index
    have hrecord' := hp'.record
    have hapart := hf.records.apart hn' hn hne
    exact hw.sameRecord (Or.inl (by omega)) (by omega)
  have hlevelSelf : f'.levelOf n = f.levelOf n := by
    unfold levelOf
    have hsame : f'.recordStart n = f.recordStart n := by
      rw [recordStart_eq, recordStart_eq, hrecordOf n hcap, hw.shape.graphStart]
    rw [hsame]
    exact ((hw.agree _ _ (Or.inl (by omega))).moved le_rfl le_rfl).word
  have hlevel : ∀ n' < f.header.nodeCount, f'.levelOf n' = f.levelOf n' := by
    intro n' hn'
    by_cases hne : n' = n
    · rw [hne, hlevelSelf]
    · exact (hother n' hn' hne).level
  have hflag : ∀ n' < f.header.nodeCapacity, f'.deletedOf n' = f.deletedOf n' := by
    intro n' hn'
    have hflag' := (hf.shape.places hn').flag
    exact hw.deletedOf (Or.inr (by omega))
  refine ⟨f', ?_, rfl, ⟨hf.shape.of_writes hw, ?_, ?_⟩, fun n' hn' => ?_, hlevel, ?_,
    fun n' hn' layer' hlayer' hne => ?_⟩
  · unfold writeNeighbors
    rw [hf.graphRecordOffset hn, ok_bind]
    exact hrun
  · refine ⟨fun {n'} hn' => ?_, fun {n' n''} hn' hn'' hne => ?_⟩
    · rw [hrecordOf n' (hf.lt_cap hn'), recordSize, hlevel n' hn']
      exact hf.records.record hn'
    · rw [hrecordOf n' (hf.lt_cap hn'), recordSize, hlevel n' hn', hrecordOf n'' (hf.lt_cap hn''),
        recordSize, hlevel n'' hn'']
      exact hf.records.apart hn' hn'' hne
  · intro n' hcount hn'
    rw [hflag n' hn']
    exact hf.fresh hcount hn'
  · have hgraph := Shape.index_le_graph f
    obtain ⟨hvector, hlink⟩ := hw.behind hf.shape hn' (by omega)
    exact ⟨hvector, hlink, hflag n' hn', hrecordOf n' hn'⟩
  · have hsame : f'.listStart n layer = f.listStart n layer := by
      unfold listStart
      rw [recordStart_eq, recordStart_eq, hrecordOf n hcap, hw.shape.graphStart, hw.shape.m]
    have hshort := layerCapacity_le layer f.header.m
    have hm := hf.shape.m_le
    obtain ⟨htake, hwords⟩ := listSlots_eq hlen hlt
    have hcount : f'.mem.word (f.listStart n layer) 4 = neighbors.length :=
      word_write_cons (by omega)
    have hslots : f'.mem.words (f.listStart n layer + 4) neighbors.length = neighbors := by
      refine (words_write_cons (by omega) hwords ?_).trans htake
      rw [List.length_map, List.length_range]
      exact hlen
    unfold listOf
    rw [hsame, hcount, hw.shape.m, min_eq_left hlen, hslots]
    exact List.filter_eq_self.mpr fun x hx => bne_iff_ne.mpr (hlt x hx).ne
  · by_cases heq : n' = n
    · subst heq
      refine listOf_congr hw.shape (hrecordOf n' hcap) (hw.agree _ _ ?_)
      have hliststart' : f.listStart n' layer' =
        f.recordStart n' + layerOffsetInRecord layer' f.header.m := rfl
      -- the other layers of the same node lie in front of this layer, or behind it
      rcases Nat.lt_or_gt_of_ne (hne rfl) with hlt | hlt
      · have hentry := @layerEntry_le _ _ f.header.m hlt
        exact Or.inl (by omega)
      · have hentry := @layerEntry_le _ _ f.header.m hlt
        exact Or.inr (by omega)
    · exact (hother n' hn' heq).list layer' hlayer'

/-- The words of a new record up to a layer. -/
theorem length_layersWords (maxLayer m layer : ℕ) :
    (maxLayer :: (List.range layer).flatMap fun l => neighborWords l m []).length * 4 =
      layerOffsetInRecord layer m := by
  induction layer with
  | zero => rfl
  | succ l ih =>
      rw [List.range_succ, List.flatMap_append, List.flatMap_singleton, layerOffset_succ, ← ih]
      simp only [List.length_cons, List.length_append, length_neighborWords]
      unfold layerEntrySize
      omega

theorem length_recordWords (maxLayer m : ℕ) :
    (wordsBytes (recordWords maxLayer m)).length = graphRecordSize maxLayer m := by
  rw [length_wordsBytes]
  exact length_layersWords maxLayer m (maxLayer + 1)

/-- A new record has an empty list for each of its layers. -/
theorem recordWords_split {maxLayer m : ℕ} (h : layer ≤ maxLayer) :
    ∃ before after, recordWords maxLayer m = before ++ 0 :: after ∧
      before.length * 4 = layerOffsetInRecord layer m := by
  obtain ⟨k, hk⟩ := Nat.exists_eq_add_of_le h
  have hrange : List.range (maxLayer + 1) =
      List.range layer ++ layer :: (List.range k).map fun i => layer + 1 + i := by
    have hsum : maxLayer + 1 = layer + 1 + k := by omega
    rw [hsum, List.range_add, List.range_succ, List.append_assoc, List.singleton_append]
  set rest := ((List.range k).map fun i => layer + 1 + i).flatMap fun l => neighborWords l m []
    with hrest
  refine ⟨maxLayer :: (List.range layer).flatMap fun l => neighborWords l m [],
    (neighborWords layer m []).drop 1 ++ rest, ?_, length_layersWords maxLayer m layer⟩
  unfold recordWords
  rw [hrange, List.flatMap_append, List.flatMap_cons, List.cons_append, ← hrest]
  rfl

/-- What becomes of a file when a node gets a new record. -/
structure AddsRecord (f f' : VecFile) (n maxLayer : ℕ) : Prop where
  header : f'.header = { f.header with
    graphDataLen := f.header.graphDataLen + graphRecordSize maxLayer f.header.m }
  shape : Shape f'
  recordOf : f'.recordOf n = f.header.graphDataLen
  level : f'.levelOf n = maxLayer
  lists : ∀ layer ≤ maxLayer, f'.listOf n layer = []
  parts : ∀ n' < f.header.nodeCapacity, f'.vectorOf n' = f.vectorOf n' ∧
    f'.linkOf n' = f.linkOf n' ∧ f'.deletedOf n' = f.deletedOf n'
  others : ∀ n' < f.header.nodeCapacity, n' ≠ n →
    f.recordOf n' + f.recordSize n' ≤ f.header.graphDataLen → SameRecord f f' n'

theorem allocateGraphRecord_ok (hf : Shape f) (hn : n < f.header.nodeCapacity) {maxLayer : ℕ}
    (hlayer : maxLayer < 2 ^ 32)
    (hroom : f.header.graphDataLen + graphRecordSize maxLayer f.header.m ≤
      graphDataPreallocated f.header.nodeCapacity f.header.m) :
    ∃ f', f.allocateGraphRecord n maxLayer = .ok f' ∧ AddsRecord f f' n maxLayer := by
  have hflags := hf.flags_le
  have hflagsStart := flagsStart_eq f
  have hbytes := length_recordWords maxLayer f.header.m
  have habs : f.graphRecordAbsOffset f.header.graphDataLen =
    f.graphStart + f.header.graphDataLen := rfl
  have hrange : f.graphRecordAbsOffset f.header.graphDataLen +
      (wordsBytes (recordWords maxLayer f.header.m)).length ≤ f.mem.size := by
    rw [hbytes]
    omega
  obtain ⟨hrun, hw⟩ := store_ok hrange
  rw [hbytes] at hw
  set f₁ : VecFile := { f with
    mem := f.mem.write (f.graphRecordAbsOffset f.header.graphDataLen)
      (wordsBytes (recordWords maxLayer f.header.m)) } with hf₁
  have hshape₁ : Shape f₁ := hf.of_writes hw
  have hsmall := preallocated_lt hf.cap_lt hf.m_le
  -- the record is written first, at the end of the records, and then the index points to it
  obtain ⟨f₂, hrun₂, hheader₂, hshape₂, hrecord₂, hw₂, hparts₂⟩ :=
    @setGraphRecordOffset_ok f₁ n hshape₁ hn f.header.graphDataLen (by omega)
  set f₃ : VecFile := { f₂ with
    header.graphDataLen := f.header.graphDataLen + graphRecordSize maxLayer f₂.header.m } with hf₃
  have hheader : f₃.header = { f.header with
      graphDataLen := f.header.graphDataLen + graphRecordSize maxLayer f.header.m } := by
    rw [hf₃]
    dsimp only
    rw [hheader₂]
  have hstart₂ : f₂.graphStart = f.graphStart := by
    rw [(SameShape.of_header hheader₂).graphStart]
    rfl
  have hindex := (hshape₁.places hn).index
  -- the entry of the index lies in front of the records and leaves the written bytes alone
  have hkeep : ∀ off, f.graphStart ≤ off → f₂.mem.word off 4 = f₁.mem.word off 4 := by
    intro off hoff
    exact ((hw₂.agree off (off + 4) (Or.inr (hindex.trans hoff))).moved le_rfl le_rfl).word
  have hrecordStart : f₃.recordStart n = f.graphStart + f.header.graphDataLen := by
    change f₂.graphStart + f₂.recordOf n = _
    rw [hstart₂, hrecord₂]
  have hlevel : f₃.levelOf n = maxLayer := by
    change f₂.mem.word (f₃.recordStart n) 4 = maxLayer
    rw [hrecordStart, hkeep _ (Nat.le_add_right _ _)]
    exact word_write_cons hlayer
  refine ⟨f₃, ?_, hheader, ?_, hrecord₂, hlevel, fun l hl => ?_, fun n' hn' => ?_,
    fun n' hn' hne hle => ?_⟩
  · unfold allocateGraphRecord
    dsimp only
    rw [hrun, ok_bind, hrun₂, ok_bind]
    rfl
  · exact {
      dims_pos := by rw [hheader]; exact hf.dims_pos
      m_pos := by rw [hheader]; exact hf.m_pos
      m_le := by rw [hheader]; exact hf.m_le
      cap_pos := by rw [hheader]; exact hf.cap_pos
      cap_lt := by rw [hheader]; exact hf.cap_lt
      count_le := by rw [hheader]; exact hf.count_le
      size := by
        have hsize := hshape₂.size
        rw [hheader₂] at hsize
        rw [hheader]
        exact hsize
      graph_le := by rw [hheader]; exact hroom }
  · obtain ⟨before, after, hwords, hlen⟩ := @recordWords_split _ _ f.header.m hl
    have hoff : f₃.listStart n l =
        f.graphRecordAbsOffset f.header.graphDataLen + before.length * 4 := by
      unfold listStart
      rw [hrecordStart, hheader, hlen, habs]
    have hzero : f₃.mem.word (f₃.listStart n l) 4 = 0 := by
      change f₂.mem.word (f₃.listStart n l) 4 = 0
      rw [hkeep _ (by rw [hoff]; omega), hoff, hf₁]
      dsimp only
      rw [hwords]
      exact word_write_behind (by decide)
    unfold listOf
    rw [hzero, Nat.zero_min]
    rfl
  · have hp := hf.places hn'
    have hflag := hp.flag
    have hgraph := Shape.index_le_graph f
    obtain ⟨hvector, hlink⟩ := hw.behind hf hn' (by omega)
    obtain ⟨hvector₂, hlink₂, hdeleted₂, -⟩ := hparts₂ n' hn'
    refine ⟨hvector₂.trans hvector, hlink₂.trans hlink, hdeleted₂.trans ?_⟩
    exact hw.deletedOf (Or.inr (by omega))
  · have hp := hf.places hn'
    have hindex' := hp.index
    have hrecord' := hp.record
    have hsame := @WritesIn.sameRecord f f₁ n' _ _ hw (Or.inl (by omega)) (Or.inl (by omega))
    have hsame₂ := (hparts₂ n' hn').2.2.2 hne
    exact (hsame.trans hsame₂).trans ⟨rfl, rfl, fun _ _ => rfl⟩

/-! ## The header and freed nodes -/

theorem length_headerBytes (f : VecFile) : f.headerBytes.length = 45 := by
  unfold headerBytes
  simp only [List.length_append, length_leBytes, List.length_singleton]

theorem flush_ok (hf : Shape f) :
    ∃ f', f.flush = .ok f' ∧ f'.header = f.header ∧ Shape f' ∧
      ∀ n < f.header.nodeCapacity, SameNode f f' n := by
  have hflags := hf.flags_le
  have hgraph := Shape.graph_le_flags f
  have hindex := Shape.index_le_graph f
  have hheader : vecHeaderSize ≤ f.indexStart := Nat.le_add_right _ _
  have hrange : offDimensions + f.headerBytes.length ≤ vecHeaderSize := by
    rw [length_headerBytes]
    decide
  obtain ⟨hrun, hw⟩ := @store_ok f offDimensions f.headerBytes (by omega)
  exact ⟨_, hrun, rfl, hf.of_writes hw, fun n hn => hw.inHeader hf hn hrange⟩

/-- What becomes of a file when a node is freed. -/
structure Frees (f f' : VecFile) (n : ℕ) : Prop where
  header : f'.header = { f.header with
    freeListHead := some n
    freeListLen := f.header.freeListLen + 1 }
  shape : Shape f'
  deleted : f'.deletedOf n = true
  link : f'.linkOf n = f.header.freeListHead.getD noneU32
  record : ∀ n' < f.header.nodeCapacity,
    f.recordOf n' + f.recordSize n' ≤ f.header.graphDataLen → SameRecord f f' n'
  others : ∀ n' < f.header.nodeCapacity, n' ≠ n →
    f'.vectorOf n' = f.vectorOf n' ∧ f'.linkOf n' = f.linkOf n' ∧ f'.deletedOf n' = f.deletedOf n'

theorem freeNode_ok (hf : Shape f) (hn : n < f.header.nodeCapacity)
    (hhead : ∀ head, f.header.freeListHead = some head → head < 2 ^ 32)
    (hlen : f.header.freeListLen + 1 < 2 ^ 32) :
    ∃ f', f.freeNode n = .ok f' ∧ Frees f f' n := by
  have hslot := (hf.places hn).slot
  have hend := hf.flags_le
  have hgraph := Shape.graph_le_flags f
  have hindex := Shape.index_le_graph f
  have hdims := hf.dims_pos
  have hword : f.header.freeListHead.getD noneU32 < 256 ^ 4 := by
    cases hcase : f.header.freeListHead with
    | none => decide
    | some head => simpa using hhead head hcase
  have hrange : f.slotOffset n + (leBytes 4 (f.header.freeListHead.getD noneU32)).length ≤
      f.mem.size := by
    rw [length_leBytes]
    omega
  obtain ⟨hrun, hw⟩ := store_ok hrange
  rw [length_leBytes] at hw
  set f₁ : VecFile := { f with
    mem := f.mem.write (f.slotOffset n) (leBytes 4 (f.header.freeListHead.getD noneU32)) } with hf₁
  have hshape₁ : Shape f₁ := hf.of_writes hw
  have hlink₁ : f₁.linkOf n = f.header.freeListHead.getD noneU32 := word_write_self hword
  obtain ⟨f₂, hrun₂, hheader₂, hshape₂, hdeleted₂, hrecord₂, hparts₂⟩ :=
    setDeleted_ok hshape₁ hn true
  refine ⟨{ f₂ with
    header.freeListHead := some n
    header.freeListLen := f₂.header.freeListLen + 1 }, ?_, ?_, ?_, hdeleted₂, ?_, ?_, ?_⟩
  · unfold freeNode
    dsimp only
    rw [hrun, ok_bind, hrun₂, ok_bind, hheader₂, if_neg (Nat.not_le.mpr hlen)]
    rfl
  · dsimp only
    rw [hheader₂]
  · exact ⟨hshape₂.dims_pos, hshape₂.m_pos, hshape₂.m_le, hshape₂.cap_pos, hshape₂.cap_lt,
      hshape₂.count_le, hshape₂.size, hshape₂.graph_le⟩
  · exact (hparts₂ n hn).2.1.trans hlink₁
  · intro n' hn' hle
    have hsame₁ := (hw.before hf hn' (by omega)).1
    have hle₁ : f₁.recordOf n' + f₁.recordSize n' ≤ f₁.header.graphDataLen := by
      rw [hsame₁.record, hsame₁.recordSize rfl]
      exact hle
    exact (hsame₁.trans (hrecord₂ n' hn' hle₁)).trans ⟨rfl, rfl, fun _ _ => rfl⟩
  · intro n' hn' hne
    have hsame₁ := hw.inSlot hf hn hn' hne le_rfl (by omega)
    obtain ⟨hvector, hlink, -, hdeleted⟩ := hparts₂ n' hn'
    exact ⟨hvector.trans hsame₁.vector, hlink.trans hsame₁.link,
      (hdeleted hne).trans hsame₁.deleted⟩

/-! ## Growing -/

/-- Where the regions are after the capacity was doubled. -/
structure MovesRegions (f f' : VecFile) : Prop where
  header : f'.header = { f.header with nodeCapacity := f.header.nodeCapacity * 2 }
  size : f'.mem.size = f'.flagsStart + f'.header.nodeCapacity
  slots : Agree f.mem f'.mem vecHeaderSize f.indexStart
  index : Moved f.mem f.indexStart f'.mem f'.indexStart (f.header.nodeCapacity * 8)
  graph : Moved f.mem f.graphStart f'.mem f'.graphStart f.header.graphDataLen
  flags : Moved f.mem f.flagsStart f'.mem f'.flagsStart f.header.nodeCapacity
  noRecord : ∀ n, f.header.nodeCapacity ≤ n → n < f.header.nodeCapacity * 2 →
    f'.recordOf n = noneU64
  clear : ∀ n, f.header.nodeCapacity ≤ n → n < f.header.nodeCapacity * 2 →
    f'.mem.byte (f'.flagsStart + n) = 0

/-- A run of bytes `0xFF` is read as the sentinel. -/
theorem word_write_ones {mem : Memory} {off k i : ℕ} (hi : i + 8 ≤ k) :
    (mem.write off (List.replicate k 0xFF)).word (off + i) 8 = noneU64 := by
  have hread : (mem.write off (List.replicate k 0xFF)).read (off + i) 8 = List.replicate 8 0xFF := by
    rw [read_write_inside (by rw [List.length_replicate]; exact hi), slice, List.drop_replicate,
      List.take_replicate]
    congr 1
    omega
  unfold word
  rw [hread]
  decide

/-- **Growing moves the regions**: each is copied before the file gets its new size, and the copies
do not overlap. -/
theorem grow_moves (hsize : f.mem.size = f.flagsStart + f.header.nodeCapacity)
    (hgraphLe : f.header.graphDataLen ≤
      graphDataPreallocated f.header.nodeCapacity f.header.m)
    (hcap : f.header.nodeCapacity * 2 < 2 ^ 32) :
    ∃ f', f.grow = .ok f' ∧ MovesRegions f f' := by
  set cap := f.header.nodeCapacity with hcapdef
  set dims := f.header.dimensions with hdimsdef
  set m := f.header.m with hmdef
  have hflagsEq : f.flagsStart = f.graphStart + graphDataPreallocated cap m := rfl
  have hgraphEq : f.graphStart = f.indexStart + cap * 8 := rfl
  set f₀ : VecFile := { f.setLen (totalFileSize (cap * 2) dims m) with
    header := { f.header with nodeCapacity := cap * 2 } } with hf₀
  have hsize₀ : f₀.mem.size = f₀.flagsStart + cap * 2 := rfl
  have hflags₀ : f₀.flagsStart = f₀.graphStart + graphDataPreallocated (cap * 2) m := rfl
  have hgraph₀ : f₀.graphStart = f₀.indexStart + cap * 2 * 8 := rfl
  have hheaderLe : vecHeaderSize ≤ f₀.indexStart := Nat.le_add_right _ _
  have hindexLe : f.indexStart ≤ f₀.indexStart := by
    unfold indexStart nodeIndexOffset vectorRegionSize
    apply Nat.add_le_add_left
    apply Nat.mul_le_mul_right
    apply Nat.mul_le_mul_right
    exact Nat.le_mul_of_pos_right _ (by decide)
  have hpre : graphDataPreallocated cap m ≤ graphDataPreallocated (cap * 2) m :=
    Nat.mul_le_mul_left _ (Nat.le_mul_of_pos_right _ (by decide))
  have hagree₀ : Agree f.mem f₀.mem vecHeaderSize f.mem.size := fun a _ ha => if_pos ha
  -- the index
  obtain ⟨hrun₁, hw₁⟩ := @store_ok f₀ f₀.indexStart (f.mem.read f.indexStart (cap * 8))
    (by rw [length_read]; omega)
  rw [length_read] at hw₁
  set f₁ : VecFile := { f₀ with
    mem := f₀.mem.write f₀.indexStart (f.mem.read f.indexStart (cap * 8)) } with hf₁
  -- the entries of the new nodes
  obtain ⟨hrun₂, hw₂⟩ := @store_ok f₁ (f₀.indexStart + cap * 8)
    (List.replicate ((cap * 2 - cap) * 8) 0xFF)
    (by rw [List.length_replicate]; change _ ≤ f₀.mem.size; omega)
  rw [List.length_replicate] at hw₂
  set f₂ : VecFile := { f₁ with
    mem := f₁.mem.write (f₀.indexStart + cap * 8) (List.replicate ((cap * 2 - cap) * 8) 0xFF) }
    with hf₂
  -- the records
  obtain ⟨hrun₃, hw₃⟩ := @store_ok f₂ f₀.graphStart (f.mem.read f.graphStart f.header.graphDataLen)
    (by rw [length_read]; change _ ≤ f₀.mem.size; omega)
  rw [length_read] at hw₃
  set f₃ : VecFile := { f₂ with
    mem := f₂.mem.write f₀.graphStart (f.mem.read f.graphStart f.header.graphDataLen) } with hf₃
  -- the flags
  obtain ⟨hrun₄, hw₄⟩ := @store_ok f₃ f₀.flagsStart (f.mem.read f.flagsStart cap)
    (by rw [length_read]; change _ ≤ f₀.mem.size; omega)
  rw [length_read] at hw₄
  set f₄ : VecFile := { f₃ with
    mem := f₃.mem.write f₀.flagsStart (f.mem.read f.flagsStart cap) } with hf₄
  obtain ⟨hrun₅, hw₅⟩ := @store_ok f₄ (f₀.flagsStart + cap) (List.replicate (cap * 2 - cap) 0)
    (by rw [List.length_replicate]; change _ ≤ f₀.mem.size; omega)
  rw [List.length_replicate] at hw₅
  set f₅ : VecFile := { f₄ with
    mem := f₄.mem.write (f₀.flagsStart + cap) (List.replicate (cap * 2 - cap) 0) } with hf₅
  -- the header
  have hheaderEnd : offDimensions + f₅.headerBytes.length ≤ vecHeaderSize := by
    rw [length_headerBytes]
    decide
  obtain ⟨hrun₆, hw₆⟩ := @store_ok f₅ offDimensions f₅.headerBytes
    (by change _ ≤ f₀.mem.size; omega)
  set f₆ : VecFile := { f₅ with mem := f₅.mem.write offDimensions f₅.headerBytes } with hf₆
  have hafter : ∀ start stop, vecHeaderSize ≤ start → Agree f₅.mem f₆.mem start stop :=
    fun start stop hstart => hw₆.agree start stop (Or.inr (by omega))
  refine ⟨f₆, ?_, rfl, hsize₀, ?_, ?_, ?_, ?_, fun n hle hlt => ?_, fun n hle hlt => ?_⟩
  · have hcopy₁ : f.copyOut (nodeIndexOffset cap dims) (nodeIndexSize cap) =
        .ok (f.mem.read f.indexStart (cap * 8)) := if_pos (by change f.indexStart + cap * 8 ≤ _; omega)
    have hcopy₂ : f.copyOut (graphDataOffset cap dims) f.header.graphDataLen =
        .ok (f.mem.read f.graphStart f.header.graphDataLen) :=
      if_pos (by change f.graphStart + _ ≤ _; omega)
    have hcopy₃ : f.copyOut (deletedFlagsOffset cap dims m) cap =
        .ok (f.mem.read f.flagsStart cap) := if_pos (by change f.flagsStart + _ ≤ _; omega)
    unfold grow
    dsimp only
    rw [if_neg (Nat.not_le.mpr hcap), hcopy₁, ok_bind, hcopy₂, ok_bind, hcopy₃, ok_bind]
    change (do
      let g ← f₀.store f₀.indexStart (f.mem.read f.indexStart (cap * 8))
      let g ← g.store (f₀.indexStart + cap * 8) (List.replicate ((cap * 2 - cap) * 8) 0xFF)
      let g ← g.store f₀.graphStart (f.mem.read f.graphStart f.header.graphDataLen)
      let g ← g.store f₀.flagsStart (f.mem.read f.flagsStart cap)
      let g ← g.store (f₀.flagsStart + cap) (List.replicate (cap * 2 - cap) 0)
      g.flush) = .ok f₆
    rw [hrun₁, ok_bind, hrun₂, ok_bind, hrun₃, ok_bind, hrun₄, ok_bind, hrun₅, ok_bind]
    exact hrun₆
  · have h₀ := hagree₀.mono le_rfl (by omega : f.indexStart ≤ f.mem.size)
    have h₁ := h₀.trans (hw₁.agree vecHeaderSize f.indexStart (Or.inl hindexLe))
    have h₂ := h₁.trans (hw₂.agree vecHeaderSize f.indexStart (Or.inl (by omega)))
    have h₃ := h₂.trans (hw₃.agree vecHeaderSize f.indexStart (Or.inl (by omega)))
    have h₄ := h₃.trans (hw₄.agree vecHeaderSize f.indexStart (Or.inl (by omega)))
    have h₅ := h₄.trans (hw₅.agree vecHeaderSize f.indexStart (Or.inl (by omega)))
    exact h₅.trans (hafter _ _ le_rfl)
  · have h₁ : Moved f.mem f.indexStart f₁.mem f₀.indexStart (cap * 8) := moved_write _ _ _ _ _
    have h₂ := (hw₂.agree f₀.indexStart (f₀.indexStart + cap * 8) (Or.inl le_rfl)).moved
      le_rfl le_rfl
    have h₃ := (hw₃.agree f₀.indexStart (f₀.indexStart + cap * 8) (Or.inl (by omega))).moved
      le_rfl le_rfl
    have h₄ := (hw₄.agree f₀.indexStart (f₀.indexStart + cap * 8) (Or.inl (by omega))).moved
      le_rfl le_rfl
    have h₅ := (hw₅.agree f₀.indexStart (f₀.indexStart + cap * 8) (Or.inl (by omega))).moved
      le_rfl le_rfl
    have h₆ := (hafter f₀.indexStart (f₀.indexStart + cap * 8) hheaderLe).moved le_rfl le_rfl
    exact ((((h₁.trans h₂).trans h₃).trans h₄).trans h₅).trans h₆
  · have h₃ : Moved f.mem f.graphStart f₃.mem f₀.graphStart f.header.graphDataLen :=
      moved_write _ _ _ _ _
    have h₄ := (hw₄.agree f₀.graphStart (f₀.graphStart + f.header.graphDataLen)
      (Or.inl (by omega))).moved le_rfl le_rfl
    have h₅ := (hw₅.agree f₀.graphStart (f₀.graphStart + f.header.graphDataLen)
      (Or.inl (by omega))).moved le_rfl le_rfl
    have h₆ := (hafter f₀.graphStart (f₀.graphStart + f.header.graphDataLen) (by omega)).moved
      le_rfl le_rfl
    exact ((h₃.trans h₄).trans h₅).trans h₆
  · have h₄ : Moved f.mem f.flagsStart f₄.mem f₀.flagsStart cap := moved_write _ _ _ _ _
    have h₅ := (hw₅.agree f₀.flagsStart (f₀.flagsStart + cap) (Or.inl le_rfl)).moved le_rfl le_rfl
    have h₆ := (hafter f₀.flagsStart (f₀.flagsStart + cap) (by omega)).moved le_rfl le_rfl
    exact (h₄.trans h₅).trans h₆
  · have hentry : f₀.indexStart + n * 8 = f₀.indexStart + cap * 8 + (n - cap) * 8 := by omega
    have h₂ : f₂.mem.word (f₀.indexStart + n * 8) 8 = noneU64 := by
      rw [hentry]
      exact word_write_ones (by omega)
    have h₃ := (hw₃.agree (f₀.indexStart + n * 8) (f₀.indexStart + n * 8 + 8)
      (Or.inl (by omega))).moved le_rfl le_rfl
    have h₄ := (hw₄.agree (f₀.indexStart + n * 8) (f₀.indexStart + n * 8 + 8)
      (Or.inl (by omega))).moved le_rfl le_rfl
    have h₅ := (hw₅.agree (f₀.indexStart + n * 8) (f₀.indexStart + n * 8 + 8)
      (Or.inl (by omega))).moved le_rfl le_rfl
    have h₆ := (hafter (f₀.indexStart + n * 8) (f₀.indexStart + n * 8 + 8) (by omega)).moved
      le_rfl le_rfl
    exact (((h₃.trans h₄).trans h₅).trans h₆).word.trans h₂
  · have hwrite := @write_byte f₄.mem (f₀.flagsStart + cap) (f₀.flagsStart + n)
      (List.replicate (cap * 2 - cap) 0) (by omega) (by rw [List.length_replicate]; omega)
    rw [List.getElem_replicate] at hwrite
    have hkept := hafter (f₀.flagsStart + n) (f₀.flagsStart + n + 1) (by omega)
    exact (hkept _ le_rfl (Nat.lt_succ_self _)).trans hwrite

/-- What becomes of a file when it grows: nothing that a node has changes. -/
structure Grows (f f' : VecFile) : Prop where
  header : f'.header = { f.header with nodeCapacity := f.header.nodeCapacity * 2 }
  shape : Shape f'
  same : ∀ n < f.header.nodeCapacity,
    f.recordOf n + f.recordSize n ≤ f.header.graphDataLen → SameNode f f' n
  flags : ∀ n < f.header.nodeCapacity, f'.deletedOf n = f.deletedOf n
  clear : ∀ n, f.header.nodeCapacity ≤ n → n < f'.header.nodeCapacity → f'.deletedOf n = false

namespace MovesRegions

variable (h : MovesRegions f f') (hn : n < f.header.nodeCapacity)

include h

theorem slotOffset (n : ℕ) : f'.slotOffset n = f.slotOffset n := by
  unfold VecFile.slotOffset
  rw [h.header]

include hn

theorem recordOf : f'.recordOf n = f.recordOf n :=
  Moved.word (h.index.part (by omega : n * 8 + 8 ≤ f.header.nodeCapacity * 8))

theorem vectorOf : f'.vectorOf n = f.vectorOf n := by
  have hdims : f'.header.dimensions = f.header.dimensions := by rw [h.header]
  unfold VecFile.vectorOf
  rw [h.slotOffset, hdims,
    (h.slots.moved (vecHeaderSize_le_slot f n) (slot_le hn)).words]

theorem deletedOf : f'.deletedOf n = f.deletedOf n := by
  unfold VecFile.deletedOf
  rw [deletedFlagOffset_eq, deletedFlagOffset_eq]
  exact congrArg (fun b => b != 0) (h.flags n hn)

theorem linkOf (hpos : 0 < f.header.dimensions) : f'.linkOf n = f.linkOf n := by
  have hslot := slot_le hn
  unfold VecFile.linkOf
  rw [h.slotOffset]
  exact (h.slots.moved (vecHeaderSize_le_slot f n) (by omega)).word

/-- A record in the graph data. -/
theorem sameRecord (hrecord : f.recordOf n + f.recordSize n ≤ f.header.graphDataLen) :
    SameRecord f f' n := by
  have hm : f'.header.m = f.header.m := by rw [h.header]
  refine .of_moved hm (h.recordOf hn) ?_
  rw [recordStart_eq, recordStart_eq, h.recordOf hn]
  exact h.graph.part hrecord

end MovesRegions

theorem grow_ok (hf : Shape f) (hcap : f.header.nodeCapacity * 2 < 2 ^ 32) :
    ∃ f', f.grow = .ok f' ∧ Grows f f' ∧
      ∀ n < f.header.nodeCapacity, f'.recordOf n = f.recordOf n := by
  obtain ⟨f', hrun, h⟩ := grow_moves hf.size hf.graph_le hcap
  have hcap' : f'.header.nodeCapacity = f.header.nodeCapacity * 2 := by rw [h.header]
  have hpre : graphDataPreallocated f.header.nodeCapacity f.header.m ≤
      graphDataPreallocated (f.header.nodeCapacity * 2) f.header.m :=
    Nat.mul_le_mul_left _ (Nat.le_mul_of_pos_right _ (by decide))
  have hshape : Shape f' :=
    { dims_pos := h.header ▸ hf.dims_pos
      m_pos := h.header ▸ hf.m_pos
      m_le := h.header ▸ hf.m_le
      cap_pos := by
        have hpos := hf.cap_pos
        omega
      cap_lt := by rwa [hcap']
      count_le := by
        have hcount := hf.count_le
        rw [h.header]
        dsimp only
        omega
      size := h.size
      graph_le := by
        rw [h.header]
        exact hf.graph_le.trans hpre }
  refine ⟨f', hrun, ⟨h.header, hshape, fun n hn hrecord => ?_, fun n hn => h.deletedOf hn,
    fun n hle hlt => ?_⟩, fun n hn => h.recordOf hn⟩
  · exact ⟨h.sameRecord hn hrecord, h.vectorOf hn, h.deletedOf hn, h.linkOf hn hf.dims_pos⟩
  · rw [hcap'] at hlt
    unfold deletedOf
    rw [deletedFlagOffset_eq, h.clear n hle hlt]
    rfl

end VecFile

end BoogyDb
