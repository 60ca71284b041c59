import BoogyDb.VectorErrors

/-!
# The nodes and the maps of a collection

`MapsInv` says that the maps of a collection are inverse to each other and that no node with
a row id is on the free list.  It does not depend on the graph: the links of freed nodes lie
in front of the node index, and the lists of neighbors are written behind it, wherever a
damaged record puts them (`WritesIn.keepsLinks`).

`wp_insert` and `wp_delete` hold whatever the graph looks like: a call that returns an error
was refused and has changed nothing, and a call that returns has changed one pair of the maps.
-/

namespace BoogyDb

open Bytes Memory Wp Except

/-- A panic or an overflow: the call does not return an error. -/
def NotError (e : Fault) : Prop := ∀ error, e ≠ .error error

theorem notError_panic : NotError .panic := nofun

theorem notError_overflow : NotError .overflow := nofun

namespace VecFile

variable {f f' f'' : VecFile} {n v : ℕ} {used : ℕ → Prop} {free : List ℕ}

/-! ## Writes and links -/

/-- The sizes of a file. -/
structure Sized (f : VecFile) : Prop where
  dims_pos : 0 < f.header.dimensions
  dims_le : f.header.dimensions ≤ 4096
  m_le : f.header.m ≤ 128
  cap_pos : 0 < f.header.nodeCapacity
  cap_lt : f.header.nodeCapacity < 2 ^ 32
  count_le : f.header.nodeCount ≤ f.header.nodeCapacity
  size : f.mem.size = f.flagsStart + f.header.nodeCapacity

/-- Sizes and free list are the same, up to the slot of `v`. -/
structure KeepsLinks (f f' : VecFile) (v : ℕ) : Prop where
  dims : f'.header.dimensions = f.header.dimensions
  m : f'.header.m = f.header.m
  cap : f'.header.nodeCapacity = f.header.nodeCapacity
  count : f'.header.nodeCount = f.header.nodeCount
  head : f'.header.freeListHead = f.header.freeListHead
  len : f'.header.freeListLen = f.header.freeListLen
  size : f'.mem.size = f.mem.size
  link : ∀ n < f.header.nodeCapacity, n ≠ v → f'.linkOf n = f.linkOf n

theorem KeepsLinks.refl (f : VecFile) (v : ℕ) : KeepsLinks f f v :=
  ⟨rfl, rfl, rfl, rfl, rfl, rfl, rfl, fun _ _ _ => rfl⟩

theorem KeepsLinks.trans (h : KeepsLinks f f' v) (h' : KeepsLinks f' f'' v) :
    KeepsLinks f f'' v where
  dims := h'.dims.trans h.dims
  m := h'.m.trans h.m
  cap := h'.cap.trans h.cap
  count := h'.count.trans h.count
  head := h'.head.trans h.head
  len := h'.len.trans h.len
  size := h'.size.trans h.size
  link n hn hne := (h'.link n (h.cap ▸ hn) hne).trans (h.link n hn hne)

theorem KeepsLinks.sized (h : KeepsLinks f f' v) (hf : Sized f) : Sized f' where
  dims_pos := h.dims ▸ hf.dims_pos
  dims_le := h.dims ▸ hf.dims_le
  m_le := h.m ▸ hf.m_le
  cap_pos := h.cap ▸ hf.cap_pos
  cap_lt := h.cap ▸ hf.cap_lt
  count_le := by
    rw [h.count, h.cap]
    exact hf.count_le
  size := by
    rw [h.size, hf.size, flagsStart, flagsStart, h.cap, h.dims, h.m]

/-- **A write behind the slots, into the header or into the slot of `v` keeps the links of the
others.** -/
theorem WritesIn.keepsLinks {start stop : ℕ} (h : WritesIn f f' start stop) (hf : Sized f)
    (hwhere : f.indexStart ≤ start ∨ stop ≤ vecHeaderSize ∨
      f.slotOffset v ≤ start ∧ stop ≤ f.slotOffset v + f.header.dimensions * 4) :
    KeepsLinks f f' v := by
  have hdims := hf.dims_pos
  refine ⟨by rw [h.header], by rw [h.header], by rw [h.header], by rw [h.header],
    by rw [h.header], by rw [h.header], h.size, fun n hn hne => h.linkOf ?_⟩
  have hslot := slot_le hn
  have hheader := vecHeaderSize_le_slot f n
  rcases hwhere with hbehind | hbefore | ⟨hstart, hstop⟩
  · exact Or.inl (by omega)
  · exact Or.inr (by omega)
  · rcases Nat.lt_or_gt_of_ne hne with hlt | hlt
    · have hslots := @slots_apart f _ _ hlt
      exact Or.inl (by omega)
    · have hslots := @slots_apart f _ _ hlt
      exact Or.inr (by omega)

theorem store_good {Q : VecFile → Prop} {off : ℕ} {src : List UInt8}
    (h : ∀ g, WritesIn f g off (off + src.length) → Q g) :
    Good NotError Q (f.store off src) := by
  by_cases hrange : off + src.length ≤ f.mem.size
  · obtain ⟨hrun, hw⟩ := store_ok hrange
    rw [hrun]
    exact h _ hw
  · unfold store
    rw [if_neg hrange]
    exact notError_panic

section

variable (hf : Sized f)

include hf

theorem setDeleted_good (n v : ℕ) (b : Bool) :
    Good NotError (fun f' => KeepsLinks f f' v) (f.setDeleted n b) := by
  refine store_good fun _ hw => hw.keepsLinks hf (Or.inl ?_)
  have hindex := Shape.index_le_graph f
  have hgraph := Shape.graph_le_flags f
  rw [deletedFlagOffset_eq]
  omega

theorem setGraphRecordOffset_good (n r v : ℕ) :
    Good NotError (fun f' => KeepsLinks f f' v) (f.setGraphRecordOffset n r) :=
  store_good fun _ hw => hw.keepsLinks hf (Or.inl (Nat.le_add_right _ _))

theorem flush_good (v : ℕ) : Good NotError (fun f' => KeepsLinks f f' v) f.flush := by
  refine store_good fun _ hw => hw.keepsLinks hf (Or.inr (Or.inl ?_))
  rw [length_headerBytes]
  decide

theorem writeVector_good (v : ℕ) (vector : List UInt32) :
    Good NotError (fun f' => KeepsLinks f f' v) (f.writeVector v vector) := by
  unfold writeVector
  refine good_ite (fun _ => notError_panic) fun hlen => ?_
  rw [not_not] at hlen
  refine store_good fun _ hw => hw.keepsLinks hf (Or.inr (Or.inr ⟨le_rfl, le_of_eq ?_⟩))
  rw [length_wordsBytes, List.length_map, hlen]

theorem allocateGraphRecord_good (n layer v : ℕ) :
    Good NotError (fun f' => KeepsLinks f f' v) (f.allocateGraphRecord n layer) := by
  have hindex := Shape.index_le_graph f
  unfold allocateGraphRecord
  dsimp only
  refine (store_good (Q := fun f' => KeepsLinks f f' v) fun _ hw => hw.keepsLinks hf (Or.inl ?_)).bind
    fun f₁ h₁ => ?_
  · exact hindex.trans (Nat.le_add_right _ _)
  refine (setGraphRecordOffset_good (h₁.sized hf) n _ v).bind fun f₂ h₂ => ?_
  obtain ⟨hdims, hm, hcap, hcount, hhead, hlen, hsize, hlink⟩ := h₁.trans h₂
  exact ⟨hdims, hm, hcap, hcount, hhead, hlen, hsize, hlink⟩

theorem writeNeighbors_good (n layer : ℕ) (neighbors : List ℕ) (v : ℕ) :
    Good NotError (fun f' => KeepsLinks f f' v) (f.writeNeighbors n layer neighbors) := by
  have hindex := Shape.index_le_graph f
  have hentry : Good NotError (fun _ => True) (f.graphRecordOffset n) := by
    unfold graphRecordOffset readU64At
    split
    · trivial
    · exact notError_panic
  unfold writeNeighbors
  refine hentry.bind fun record _ => ?_
  cases record with
  | none => exact .refl f v
  | some recordOff =>
      refine store_good fun _ hw => hw.keepsLinks hf (Or.inl ?_)
      exact (hindex.trans (Nat.le_add_right _ recordOff)).trans (Nat.le_add_right _ _)

end

/-! ## Nodes -/

/-- There is only one chain from a head. -/
theorem Chain.unique {head : Option ℕ} {free' : List ℕ} (h : Chain f head free)
    (h' : Chain f head free') : free' = free := by
  induction h generalizing free' with
  | nil =>
      cases h'
      rfl
  | cons _ ih =>
      cases h' with
      | cons hrest => rw [ih hrest]

/-- No node in use is on the free list, which is as long as the header says. -/
structure NodesInv (f : VecFile) (used : ℕ → Prop) : Prop where
  sized : Sized f
  free : ∃ free, Chain f f.header.freeListHead free ∧ free.Nodup ∧
    ∀ n ∈ free, n < f.header.nodeCount ∧ ¬ used n
  counted : ∀ n, used n → n < f.header.nodeCount
  len : ∀ free, Chain f f.header.freeListHead free → f.header.freeListLen = free.length

theorem KeepsLinks.nodes (h : KeepsLinks f f' v) (hf : NodesInv f used)
    (hv : v < f.header.nodeCount → used v) : NodesInv f' used := by
  obtain ⟨hsized, ⟨free, hchain, hnodup, hfree⟩, hcounted, hlen⟩ := hf
  have hchain' : Chain f' f'.header.freeListHead free := by
    rw [h.head]
    refine hchain.congr fun n hn => h.link n ?_ ?_
    · exact (hfree n hn).1.trans_le hsized.count_le
    · rintro rfl
      exact (hfree n hn).2 (hv (hfree n hn).1)
  refine ⟨h.sized hsized, ⟨free, hchain', hnodup, fun n hn => ?_⟩, fun n hn => ?_, fun free' hfree' => ?_⟩
  · rw [h.count]
    exact hfree n hn
  · rw [h.count]
    exact hcounted n hn
  · rw [hchain'.unique hfree', h.len]
    exact hlen free hchain

theorem grow_good {Q : VecFile → Prop} (h : ∀ f', f'.header = { f.header with
    nodeCapacity := f.header.nodeCapacity * 2 } → f.header.nodeCapacity * 2 < 2 ^ 32 →
    f'.mem.size = f'.flagsStart + f'.header.nodeCapacity → Q f') :
    Good NotError Q f.grow := by
  have hcopy : ∀ off len, Good NotError (fun _ => True) (f.copyOut off len) := by
    intro off len
    unfold copyOut
    exact good_ite (fun _ => trivial) fun _ => notError_panic
  have hstore : ∀ (g : VecFile) (off : ℕ) (src : List UInt8),
      Good NotError (fun g' => g'.header = g.header ∧ g'.mem.size = g.mem.size)
        (g.store off src) := fun g off src =>
    store_good fun g' hw => ⟨hw.header, hw.size⟩
  unfold grow
  dsimp only
  refine good_ite (fun _ => notError_overflow) fun hlt => ?_
  refine (hcopy _ _).bind fun index _ => (hcopy _ _).bind fun graph _ =>
    (hcopy _ _).bind fun deleted _ => ?_
  refine (hstore _ _ _).bind fun f₁ h₁ => (hstore _ _ _).bind fun f₂ h₂ =>
    (hstore _ _ _).bind fun f₃ h₃ => (hstore _ _ _).bind fun f₄ h₄ =>
      (hstore _ _ _).bind fun f₅ h₅ => (hstore _ _ _).mono fun f₆ h₆ => ?_
  have hheader : f₆.header = { f.header with nodeCapacity := f.header.nodeCapacity * 2 } := by
    rw [h₆.1, h₅.1, h₄.1, h₃.1, h₂.1, h₁.1]
    rfl
  refine h f₆ hheader (Nat.lt_of_not_le hlt) ?_
  rw [h₆.2, h₅.2, h₄.2, h₃.2, h₂.2, h₁.2, flagsStart, hheader]
  rfl

/-- **The node that is allocated was not in use.** -/
theorem allocateNode_good (hf : NodesInv f used) :
    Good NotError (fun r => ¬ used r.1 ∧ NodesInv r.2 (fun n => n = r.1 ∨ used n) ∧
      r.2.header.dimensions = f.header.dimensions ∧ r.2.header.m = f.header.m ∧
      r.2.header.nodeCount ≤ f.header.nodeCount + 1) f.allocateNode := by
  obtain ⟨hsized, ⟨free, hchain, hnodup, hfree⟩, hcounted, hlen⟩ := hf
  have hlen := hlen free hchain
  unfold allocateNode
  cases hhead : f.header.freeListHead with
  | some v =>
      rw [hhead] at hchain
      cases hchain with
      | cons hrest =>
      rename_i rest
      rw [List.nodup_cons] at hnodup
      rw [List.forall_mem_cons] at hfree
      obtain ⟨⟨hlt, hv⟩, hfree⟩ := hfree
      dsimp only
      -- the head of the free list was not in use, and the rest keeps being the free list
      have hread : Good NotError (fun raw => raw = f.linkOf v) (f.readU32At (f.slotOffset v)) := by
        unfold readU32At
        exact good_ite (fun _ => rfl) fun _ => notError_panic
      refine hread.bind fun raw hraw => good_ite (fun _ => notError_overflow) fun _ => ?_
      set f₁ : VecFile := { f with
        header.freeListHead := optionU32 raw
        header.freeListLen := f.header.freeListLen - 1 } with hf₁
      have hsized₁ : Sized f₁ :=
        ⟨hsized.dims_pos, hsized.dims_le, hsized.m_le, hsized.cap_pos, hsized.cap_lt,
          hsized.count_le, hsized.size⟩
      have hchain₁ : Chain f₁ (optionU32 raw) rest := by
        rw [hraw]
        exact hrest.congr fun _ _ => rfl
      have hnodes₁ : NodesInv f₁ fun n => n = v ∨ used n := by
        refine ⟨hsized₁, ⟨rest, hchain₁, hnodup.2, fun n hn => ⟨(hfree n hn).1, ?_⟩⟩,
          fun n hn => ?_, fun free' hfree' => ?_⟩
        · rintro (rfl | hused)
          · exact hnodup.1 hn
          · exact (hfree n hn).2 hused
        · rcases hn with rfl | hused
          · exact hlt
          · exact hcounted n hused
        · rw [hchain₁.unique hfree']
          change f.header.freeListLen - 1 = rest.length
          rw [hlen, List.length_cons, Nat.add_sub_cancel]
      refine (setDeleted_good hsized₁ v v false).bind fun f₂ h₂ => ?_
      refine (setGraphRecordOffset_good (h₂.sized hsized₁) v _ v).bind fun f₃ h₃ => ?_
      have h := h₂.trans h₃
      exact ⟨hv, h.nodes hnodes₁ fun _ => Or.inl rfl, h.dims, h.m, h.count.le.trans (Nat.le_succ _)⟩
  | none =>
      rw [hhead] at hchain
      cases hchain
      dsimp only
      -- without a freed node the file grows when it is full, and the next number is taken
      have hroom : Good NotError (fun f' => f'.header.freeListHead = none ∧
          f'.header.dimensions = f.header.dimensions ∧ f'.header.m = f.header.m ∧
          f'.header.nodeCount = f.header.nodeCount ∧ f.header.nodeCount < f'.header.nodeCapacity ∧
          f'.header.nodeCapacity < 2 ^ 32 ∧ f'.header.freeListLen = f.header.freeListLen ∧
          f'.mem.size = f'.flagsStart + f'.header.nodeCapacity) f.makeRoom := by
        have hle := hsized.count_le
        have hpos := hsized.cap_pos
        unfold makeRoom
        refine good_ite (fun hfull => grow_good fun f' hheader hlt hsize => ?_) fun hfull => ?_
        · refine ⟨?_, ?_, ?_, ?_, ?_, ?_, ?_, hsize⟩ <;> rw [hheader]
          · exact hhead
          · dsimp only
            omega
          · exact hlt
        · exact ⟨hhead, rfl, rfl, rfl, Nat.lt_of_not_le hfull, hsized.cap_lt, rfl, hsized.size⟩
      refine hroom.bind fun f₁ ⟨hhead₁, hdims, hm, hcount, hroom, hcap, hlen₁, hsize⟩ => ?_
      refine good_ite (fun _ => notError_overflow) fun hlt => ?_
      refine ⟨fun hused => ?_, ⟨?_, ⟨[], ?_, List.nodup_nil, nofun⟩, fun n hn => ?_,
        fun free' hfree' => ?_⟩, hdims, hm, (congrArg (· + 1) hcount).le⟩
      · have hself := hcounted _ hused
        rw [hcount] at hself
        exact lt_irrefl _ hself
      · refine ⟨hdims ▸ hsized.dims_pos, hdims ▸ hsized.dims_le, hm ▸ hsized.m_le, ?_, hcap, ?_,
          hsize⟩
        · exact Nat.zero_lt_of_lt hroom
        · dsimp only
          rw [hcount]
          exact hroom
      · change Chain _ f₁.header.freeListHead []
        rw [hhead₁]
        exact .nil
      · dsimp only at hn ⊢
        rcases hn with rfl | hused
        · exact Nat.lt_succ_self _
        · rw [hcount]
          exact (hcounted n hused).trans (Nat.lt_succ_self _)
      · change Chain _ f₁.header.freeListHead free' at hfree'
        rw [hhead₁] at hfree'
        cases hfree'
        exact hlen₁.trans hlen

/-- The link to the head of the free list is read back. -/
theorem NodesInv.head_link (hf : NodesInv f used) :
    f.header.freeListHead.getD noneU32 < 256 ^ 4 ∧
      optionU32 (f.header.freeListHead.getD noneU32) = f.header.freeListHead := by
  obtain ⟨hsized, ⟨free, hchain, -, hfree⟩, -⟩ := hf
  cases hhead : f.header.freeListHead with
  | none => exact ⟨by decide, rfl⟩
  | some head =>
      rw [hhead] at hchain
      cases hchain with
      | cons _ =>
          have hcount := (hfree head List.mem_cons_self).1
          have hle := hsized.count_le
          have hlt := hsized.cap_lt
          have hne : head ≠ noneU32 := by
            unfold noneU32
            omega
          exact ⟨by rw [Option.getD_some]; omega, if_neg hne⟩

/-- The link of a freed node is written. -/
theorem writeLink_good (hf : NodesInv f used) (v : ℕ) :
    Good NotError (fun f' => KeepsLinks f f' v ∧ optionU32 (f'.linkOf v) = f.header.freeListHead)
      (f.store (f.slotOffset v) (leBytes 4 (f.header.freeListHead.getD noneU32))) := by
  have hdims := hf.sized.dims_pos
  obtain ⟨hlt, hback⟩ := hf.head_link
  set link := f.header.freeListHead.getD noneU32 with hlink
  by_cases hrange : f.slotOffset v + (leBytes 4 link).length ≤ f.mem.size
  · obtain ⟨hrun, hw⟩ := store_ok hrange
    rw [hrun]
    refine ⟨hw.keepsLinks hf.sized (Or.inr (Or.inr ⟨le_rfl, ?_⟩)), ?_⟩
    · rw [length_leBytes]
      omega
    · have hword : (f.mem.write (f.slotOffset v) (leBytes 4 link)).word (f.slotOffset v) 4 = link :=
        word_write_self hlt
      exact (congrArg optionU32 hword).trans hback
  · unfold store
    rw [if_neg hrange]
    exact notError_panic

/-- **A node that is freed is not in use any more.** -/
theorem freeNode_good (hf : NodesInv f used) (hv : used v) :
    Good NotError (fun f' => NodesInv f' (fun n => n ≠ v ∧ used n) ∧
      f'.header.dimensions = f.header.dimensions ∧ f'.header.nodeCount = f.header.nodeCount)
      (f.freeNode v) := by
  have hwrite := writeLink_good hf v
  obtain ⟨hsized, ⟨free, hchain, hnodup, hfree⟩, hcounted, hlen⟩ := hf
  have hlt := hcounted v hv
  have hcap := hlt.trans_le hsized.count_le
  have hnew : v ∉ free := fun hmem => (hfree v hmem).2 hv
  unfold freeNode
  dsimp only
  refine hwrite.bind fun f₁ ⟨h₁, hlink₁⟩ => ?_
  refine (setDeleted_good (h₁.sized hsized) v f.header.nodeCapacity true).bind fun f₂ h₂ => ?_
  refine good_ite (fun _ => notError_overflow) fun _ => ?_
  have hlinks : ∀ n < f.header.nodeCapacity, f₂.linkOf n = f₁.linkOf n := fun n hn =>
    h₂.link n (h₁.cap ▸ hn) hn.ne
  have hcount : f₂.header.nodeCount = f.header.nodeCount := h₂.count.trans h₁.count
  have hsized₂ := h₂.sized (h₁.sized hsized)
  set f₃ : VecFile := { f₂ with
    header.freeListHead := some v
    header.freeListLen := f₂.header.freeListLen + 1 } with hf₃
  have hchain₃ : Chain f₃ (some v) (v :: free) := by
    refine .cons ?_
    change Chain _ (optionU32 (f₂.linkOf v)) free
    rw [hlinks v hcap, hlink₁]
    refine hchain.congr fun n hn => ?_
    have hncap := (hfree n hn).1.trans_le hsized.count_le
    exact (hlinks n hncap).trans (h₁.link n hncap (ne_of_mem_of_not_mem hn hnew))
  refine ⟨⟨?_, ⟨v :: free, hchain₃, List.nodup_cons.mpr ⟨hnew, hnodup⟩, fun n hn => ?_⟩,
    fun n hn => ?_, fun free' hfree' => ?_⟩, h₂.dims.trans h₁.dims, hcount⟩
  · exact ⟨hsized₂.dims_pos, hsized₂.dims_le, hsized₂.m_le, hsized₂.cap_pos, hsized₂.cap_lt,
      hsized₂.count_le, hsized₂.size⟩
  · change n < f₂.header.nodeCount ∧ _
    rw [hcount]
    rcases List.mem_cons.mp hn with rfl | hn
    · exact ⟨hlt, fun hused => hused.1 rfl⟩
    · exact ⟨(hfree n hn).1, fun hused => (hfree n hn).2 hused.2⟩
  · change n < f₂.header.nodeCount
    rw [hcount]
    exact hcounted n hn.2
  · rw [hchain₃.unique hfree']
    change f₂.header.freeListLen + 1 = free.length + 1
    rw [h₂.len, h₁.len, hlen free hchain]

end VecFile

/-! ## The maps -/

/-- The maps are inverse to each other, and no mapped node is on the free list. -/
structure MapsInv (c : VectorCollection) : Prop where
  nodes : VecFile.NodesInv c.vecfile fun n => ∃ rowid, c.nodeToRowid.lookup n = some rowid
  inverse : ∀ rowid n, c.rowidToNode.lookup rowid = some n ↔ c.nodeToRowid.lookup n = some rowid

namespace VectorCollection

open VecFile

variable {c : VectorCollection} {rowid : UInt64} {vector : List UInt32} {layer : ℕ}
  {distanceFn : DistanceMetric → List UInt32 → List UInt32 → UInt32} {order : HeapOrder}

theorem code_run {α : Type} (x : Result α) : Access.code.run x = x := by
  cases x <;> rfl

/-- A step that does not return an error. -/
theorem wp_ofExcept_bind {α β : Type} {x : Result α} {f : α → EStateM Fault VectorCollection β}
    {Q : α → Prop} {R : β → VectorCollection → Prop} {E : Fault → VectorCollection → Prop}
    (h : Good NotError Q x) (hE : ∀ e, NotError e → E e c) (hf : ∀ a, Q a → wp (f a) R E c) :
    wp (ofExcept x >>= f) R E c := by
  rw [wp_bind]
  cases x with
  | ok a => exact hf a h
  | error e => exact hE e h

theorem readsGood (f : VecFile) : Hnsw.ReadsGood NotError (Access.code.storage f) := by
  have hread4 : ∀ off, Good NotError (fun _ => True) (f.readU32At off) := by
    intro off
    unfold readU32At
    exact good_ite (fun _ => trivial) fun _ => notError_panic
  have hread8 : ∀ off, Good NotError (fun _ => True) (f.readU64At off) := by
    intro off
    unfold readU64At
    exact good_ite (fun _ => trivial) fun _ => notError_panic
  refine ⟨fun n => ?_, fun n layer => ?_, fun n => ?_, notError_overflow⟩
  · change Good NotError _ (Access.code.run (f.readVector n))
    rw [code_run]
    unfold readVector
    exact good_ite (fun _ => trivial) fun _ => notError_panic
  · change Good NotError _ (f.readNeighbors n layer)
    unfold readNeighbors graphRecordOffset
    refine Good.bind (Q := fun _ => True) ((hread8 _).bind fun _ _ => trivial) fun record _ => ?_
    cases record with
    | none => trivial
    | some recordOff =>
        refine (hread4 _).bind fun count _ => ?_
        exact (good_mapM _ fun i _ => hread4 _).bind fun _ _ => trivial
  · change Good NotError _ (Access.code.run (f.isDeleted n))
    rw [code_run]
    unfold isDeleted
    exact good_ite (fun _ => trivial) fun _ => notError_panic

/-- Writing the lists of an insertion. -/
theorem applyConnections_good {f : VecFile} (hf : Sized f) (connections : List Hnsw.Connection)
    (v : ℕ) : Good NotError (fun f' => KeepsLinks f f' v)
      (applyConnections Access.code f connections) := by
  unfold applyConnections
  refine good_foldlM (I := fun f' => KeepsLinks f f' v) _ (.refl f v) fun f₁ c _ h₁ => ?_
  exact (writeNeighbors_good (h₁.sized hf) c.1 c.2.1 c.2.2 v).mono fun f₂ h₂ => h₁.trans h₂

theorem addNode_good {f : VecFile} {used : ℕ → Prop} (hf : NodesInv f used) (vector : List UInt32)
    (layer : ℕ) : Good NotError (fun r => ¬ used r.1 ∧ NodesInv r.2 (fun n => n = r.1 ∨ used n) ∧
      r.2.header.dimensions = f.header.dimensions ∧ r.2.header.m = f.header.m ∧
      r.2.header.nodeCount ≤ f.header.nodeCount + 1) (addNode f vector layer) := by
  unfold addNode
  refine (allocateNode_good hf).bind fun r ⟨hv, h₁, hdims, hm, hcount⟩ => ?_
  obtain ⟨v, f₁⟩ := r
  dsimp only at hv h₁ hdims hm hcount ⊢
  refine (writeVector_good h₁.sized v vector).bind fun f₂ h₂ => ?_
  refine (allocateGraphRecord_good (h₂.sized h₁.sized) v layer v).bind fun f₃ h₃ => ?_
  have h := h₂.trans h₃
  exact ⟨hv, h.nodes h₁ fun _ => Or.inl rfl, h.dims.trans hdims, h.m.trans hm,
    h.count.le.trans hcount⟩

/-- The log entries of an insertion are short. -/
theorem insertEntries_short {m nodeId newEp nodeCount newMax : ℕ}
    {connections : List Hnsw.Connection} (hvector : vector.length ≤ 2 ^ 16) (hm : m ≤ 128)
    (hshort : Hnsw.Short m connections) :
    ∀ entry ∈ insertEntries nodeId layer vector connections newEp nodeCount newMax,
      (payloadWords entry).length ≤ 2 ^ 16 := by
  intro entry hentry
  unfold insertEntries at hentry
  rw [List.cons_append, List.mem_cons, List.mem_append, List.mem_singleton] at hentry
  rcases hentry with rfl | hentry | rfl
  · exact hvector
  · obtain ⟨c, hc, rfl⟩ := List.mem_map.mp hentry
    have hlen := hshort c hc
    change (c.2.2.map UInt32.ofNat).length ≤ 2 ^ 16
    rw [List.length_map]
    omega
  · exact Nat.zero_le _

/-- The collection takes the vector. -/
def Accepts (c : VectorCollection) (rowid : UInt64) (vector : List UInt32) : Prop :=
  vector.length = c.vecfile.header.dimensions ∧ rowid ∉ c.rowidToNode

/-- **An insertion** is refused without a change, or maps the row id to a node. -/
theorem wp_insert (hc : MapsInv c) :
    wp (insert Access.code distanceFn order rowid vector layer)
      (fun v c' => c.Accepts rowid vector ∧ MapsInv c' ∧
        c'.rowidToNode = c.rowidToNode.insert rowid v ∧
        c'.vecfile.header.dimensions = c.vecfile.header.dimensions ∧
        c'.vecfile.header.nodeCount ≤ c.vecfile.header.nodeCount + 1)
      (fun e c' => ∀ error, e = .error error → ¬ c.Accepts rowid vector ∧ c' = c) c := by
  -- behind the two checks every fault is a panic or an overflow, which are no errors
  have hE : ∀ (c' : VectorCollection) (e : Fault), NotError e →
      ∀ error, e = .error error → ¬ c.Accepts rowid vector ∧ c' = c :=
    fun _ _ h error heq => absurd heq (h error)
  unfold insert
  refine wp_get_bind.mpr (wp_ite (fun hdims => ?_) fun hdims =>
    wp_ite (fun hmem => ?_) fun hmem => ?_)
  · exact fun _ _ => ⟨fun haccepts => hdims haccepts.1, rfl⟩
  · exact fun _ _ => ⟨fun haccepts => haccepts.2 hmem, rfl⟩
  rw [not_not] at hdims
  rw [code_run]
  refine wp_ofExcept_bind (addNode_good hc.nodes vector layer) (hE c) fun r hadded => ?_
  obtain ⟨v, f₁⟩ := r
  obtain ⟨hv, hnodes₁, hd₁, hm₁, hcount₁⟩ := hadded
  dsimp only at hv hnodes₁ hd₁ hm₁ hcount₁ ⊢
  rw [wp, run_set_bind, ← wp]
  refine wp_ofExcept_bind (Hnsw.insert_good (readsGood f₁) _ v layer _ _ _) (hE _)
    fun result hshort => ?_
  have hsized := hnodes₁.sized
  have hshort' : vector.length ≤ 2 ^ 16 := by
    have hle := hc.nodes.sized.dims_le
    omega
  obtain ⟨wal, hlog⟩ := @appendCommitted_ok _ Access.code _
    (@insertEntries_short vector layer _ v (result.newEntryPoint.getD (f₁.header.entryPoint.getD v))
      f₁.header.nodeCount (result.newMaxLayer.getD f₁.header.maxLayer) _ hshort' hsized.m_le hshort)
    { c with vecfile := f₁ }
  rw [wp_bind, wp_of_ok hlog]
  refine wp_ofExcept_bind (applyConnections_good hsized _ v) (hE _) fun f₂ h₂ => ?_
  rw [code_run]
  set f₃ : VecFile := { f₂ with
    header.entryPoint := some (result.newEntryPoint.getD (f₁.header.entryPoint.getD v))
    header.maxLayer := result.newMaxLayer.getD f₁.header.maxLayer } with hf₃
  have h₃ : KeepsLinks f₁ f₃ v :=
    ⟨h₂.dims, h₂.m, h₂.cap, h₂.count, h₂.head, h₂.len, h₂.size, h₂.link⟩
  refine wp_ofExcept_bind (flush_good (h₃.sized hsized) v) (hE _) fun f₄ h₄ => ?_
  have h := h₃.trans h₄
  have hnodes := h.nodes hnodes₁ fun _ => Or.inl rfl
  have hrowid : c.rowidToNode.lookup rowid = none := AList.lookup_eq_none.mpr hmem
  have hnode : c.nodeToRowid.lookup v = none := by
    cases hlookup : c.nodeToRowid.lookup v with
    | none => rfl
    | some r => exact absurd ⟨r, hlookup⟩ hv
  refine ⟨⟨hdims, hmem⟩, ⟨?_, ?_⟩, rfl, h.dims.trans hd₁, h.count.le.trans hcount₁⟩
  · have hused : ∀ n, (∃ r, (c.nodeToRowid.insert v rowid).lookup n = some r) ↔
        n = v ∨ ∃ r, c.nodeToRowid.lookup n = some r := by
      intro n
      by_cases hne : n = v
      · subst hne
        rw [AList.lookup_insert]
        exact ⟨fun _ => Or.inl rfl, fun _ => ⟨rowid, rfl⟩⟩
      · rw [AList.lookup_insert_ne hne, or_iff_right hne]
    change NodesInv f₄ fun n => ∃ r, (c.nodeToRowid.insert v rowid).lookup n = some r
    simp only [hused]
    exact hnodes
  · exact lookup_insert_pair hc.inverse hrowid hnode

/-- Reading the entry point after a deletion. -/
theorem entryAfterDelete_good (f : VecFile) (v : ℕ) :
    Good NotError (fun _ => True) (entryAfterDelete Access.code f v) := by
  have hreads := readsGood f
  have hlive : ∀ neighbors, Good NotError (fun _ => True) (firstLive f neighbors) := by
    intro neighbors
    induction neighbors with
    | nil => trivial
    | cons n neighbors ih =>
        have hdeleted := hreads.isDeleted n
        change Good NotError _ (Access.code.run (f.isDeleted n)) at hdeleted
        rw [code_run] at hdeleted
        unfold firstLive
        exact hdeleted.bind fun _ _ => good_ite (fun _ => ih) fun _ => trivial
  unfold entryAfterDelete
  refine good_ite (fun _ => (hreads.neighbors v 0).bind fun neighbors _ => ?_) fun _ => trivial
  rw [code_run]
  exact hlive neighbors

/-- **A deletion** is refused without a change, or takes the row id out. -/
theorem wp_delete (hc : MapsInv c) :
    wp (delete Access.code rowid)
      (fun _ c' => rowid ∈ c.rowidToNode ∧ MapsInv c' ∧
        c'.rowidToNode = c.rowidToNode.erase rowid ∧
        c'.vecfile.header.dimensions = c.vecfile.header.dimensions ∧
        c'.vecfile.header.nodeCount = c.vecfile.header.nodeCount)
      (fun e c' => ∀ error, e = .error error → rowid ∉ c.rowidToNode ∧ c' = c) c := by
  -- behind the lookup every fault is a panic or an overflow, which are no errors
  have hE : ∀ (c' : VectorCollection) (e : Fault), NotError e →
      ∀ error, e = .error error → rowid ∉ c.rowidToNode ∧ c' = c :=
    fun _ _ h error heq => absurd heq (h error)
  unfold delete
  refine wp_get_bind.mpr ?_
  cases hlookup : c.rowidToNode.lookup rowid with
  | none => exact fun _ _ => ⟨AList.lookup_eq_none.mp hlookup, rfl⟩
  | some v =>
      have hmem : rowid ∈ c.rowidToNode := by
        rw [← AList.lookup_isSome, hlookup]
        rfl
      have hnode := (hc.inverse rowid v).mp hlookup
      dsimp only
      rw [wp, run_set_bind, ← wp]
      refine wp_ofExcept_bind (entryAfterDelete_good c.vecfile v) (hE _) fun newEp _ => ?_
      obtain ⟨wal, hlog⟩ := @appendCommitted_ok _ Access.code [.deleteNode (UInt32.ofNat v),
          .updateHeader (UInt32.ofNat (newEp.getD noneU32))
            (UInt32.ofNat c.vecfile.header.nodeCount) (UInt32.ofNat c.vecfile.header.maxLayer)]
        (fun entry hentry => by
          rcases List.mem_pair.mp hentry with rfl | rfl <;> exact Nat.zero_le _)
        { c with rowidToNode := c.rowidToNode.erase rowid, nodeToRowid := c.nodeToRowid.erase v }
      rw [wp_bind, wp_of_ok hlog, code_run]
      refine wp_ofExcept_bind (freeNode_good hc.nodes ⟨rowid, hnode⟩) (hE _) fun f₁ hfreed => ?_
      obtain ⟨h₁, hd₁, hcount₁⟩ := hfreed
      rw [code_run]
      set f₂ : VecFile := { f₁ with header.entryPoint := newEp } with hf₂
      have h₂ : KeepsLinks f₁ f₂ f₁.header.nodeCapacity :=
        ⟨rfl, rfl, rfl, rfl, rfl, rfl, rfl, fun _ _ _ => rfl⟩
      refine wp_ofExcept_bind (flush_good (h₂.sized h₁.sized) f₁.header.nodeCapacity) (hE _)
        fun f₃ h₃ => ?_
      have h := h₂.trans h₃
      refine ⟨hmem, ⟨?_, lookup_erase_pair hc.inverse hlookup⟩, rfl, h.dims.trans hd₁,
        h.count.trans hcount₁⟩
      have hused : ∀ n, (∃ r, (c.nodeToRowid.erase v).lookup n = some r) ↔
          n ≠ v ∧ ∃ r, c.nodeToRowid.lookup n = some r := by
        intro n
        by_cases hne : n = v
        · subst hne
          rw [AList.lookup_erase]
          simp
        · rw [AList.lookup_erase_ne hne, and_iff_right hne]
      change NodesInv f₃ fun n => ∃ r, (c.nodeToRowid.erase v).lookup n = some r
      simp only [hused]
      exact h.nodes h₁ fun hlt => absurd hlt (Nat.not_lt.mpr h₁.sized.count_le)

end VectorCollection

end BoogyDb
