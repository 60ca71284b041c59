import BoogyDb.VecFileSteps

/-!
# Allocating and freeing nodes

The freed nodes form a list that is threaded through their slots (`Chain`).  `FreeList`
says that it lists the counted nodes whose flag is set, each once.  Allocating a node takes
the head of that list, or counts one node more; the other nodes keep what they have
(`Allocates`).  `addNode` then gives the node its vector and an empty record (`Adds`).
-/

namespace BoogyDb

open Bytes Memory

namespace VecFile

variable {f f' : VecFile} {n v layer : ℕ} {free rest : List ℕ}

/-- The list that is threaded from a node through the links. -/
inductive Chain (f : VecFile) : Option ℕ → List ℕ → Prop
  | nil : Chain f none []
  | cons {n : ℕ} {free : List ℕ} (h : Chain f (optionU32 (f.linkOf n)) free) :
      Chain f (some n) (n :: free)

/-- The free list. -/
structure FreeList (f : VecFile) (free : List ℕ) : Prop where
  chain : Chain f f.header.freeListHead free
  nodup : free.Nodup
  mem : ∀ n, n ∈ free ↔ n < f.header.nodeCount ∧ f.deletedOf n = true
  length : f.header.freeListLen = free.length

theorem Chain.congr {head : Option ℕ} (h : Chain f head free)
    (hlink : ∀ n ∈ free, f'.linkOf n = f.linkOf n) : Chain f' head free := by
  induction h with
  | nil => exact .nil
  | cons h ih =>
      rw [List.forall_mem_cons] at hlink
      obtain ⟨hn, hlink⟩ := hlink
      refine .cons ?_
      rw [hn]
      exact ih hlink

/-- A file with the same links and flags has the same free list. -/
theorem FreeList.congr (h : FreeList f free)
    (hhead : f'.header.freeListHead = f.header.freeListHead)
    (hlen : f'.header.freeListLen = f.header.freeListLen)
    (hcount : f'.header.nodeCount = f.header.nodeCount)
    (hlink : ∀ n ∈ free, f'.linkOf n = f.linkOf n)
    (hdeleted : ∀ n < f.header.nodeCount, f'.deletedOf n = f.deletedOf n) : FreeList f' free where
  chain := by
    rw [hhead]
    exact h.chain.congr hlink
  nodup := h.nodup
  mem n := by
    rw [h.mem n, hcount]
    exact and_congr_right fun hn => by rw [hdeleted n hn]
  length := hlen.trans h.length

theorem FreeList.length_le (h : FreeList f free) : free.length ≤ f.header.nodeCount := by
  have hsub : free ⊆ List.range f.header.nodeCount := fun n hn =>
    List.mem_range.mpr ((h.mem n).mp hn).1
  have hle := (h.nodup.subperm hsub).length_le
  rwa [List.length_range] at hle

/-- The capacity after room was made for one more node. -/
def nextCapacity (f : VecFile) : ℕ :=
  if f.header.freeListHead = none ∧ f.header.nodeCapacity ≤ f.header.nodeCount then
    f.header.nodeCapacity * 2
  else f.header.nodeCapacity

/-- What becomes of a file when a node is allocated. -/
structure Allocates (f f' : VecFile) (v : ℕ) : Prop where
  header : f'.header = { f.header with
    nodeCount := f'.header.nodeCount
    nodeCapacity := f.nextCapacity
    freeListHead := f'.header.freeListHead
    freeListLen := f'.header.freeListLen }
  shape : Shape f'
  lt : v < f'.header.nodeCount
  counted : ∀ n, n ≠ v → (n < f'.header.nodeCount ↔ n < f.header.nodeCount)
  same : ∀ n < f.header.nodeCount, n ≠ v → SameNode f f' n
  deleted : f'.deletedOf v = false
  fresh : ∀ n, f'.header.nodeCount ≤ n → n < f'.header.nodeCapacity → f'.deletedOf n = false
  was : f.header.freeListHead = some v ∧ v < f.header.nodeCount ∨
    f.header.freeListHead = none ∧ v = f.header.nodeCount
  free : ∃ rest, FreeList f' rest

/-- A freed node is taken. -/
theorem allocateNode_head (hf : Layout f) (hfree : FreeList f free)
    (hhead : f.header.freeListHead = some v) :
    ∃ f', f.allocateNode = .ok (v, f') ∧ Allocates f f' v := by
  obtain ⟨rest, rfl, hchain⟩ : ∃ rest, free = v :: rest ∧ Chain f (optionU32 (f.linkOf v)) rest := by
    have hchain := hfree.chain
    rw [hhead] at hchain
    cases hchain with
    | cons h => exact ⟨_, rfl, h⟩
  have hv : v < f.header.nodeCount := ((hfree.mem v).mp List.mem_cons_self).1
  have hcap := hf.lt_cap hv
  have hnodup := List.nodup_cons.mp hfree.nodup
  have hslot := slot_le hcap
  have hend := hf.shape.flags_le
  have hgraph := Shape.graph_le_flags f
  have hindex := Shape.index_le_graph f
  have hdims := hf.shape.dims_pos
  have hread : f.readU32At (f.slotOffset v) = .ok (f.linkOf v) := if_pos (by omega)
  have hlen : f.header.freeListLen = rest.length + 1 := hfree.length
  set f₁ : VecFile := { f with
    header.freeListHead := optionU32 (f.linkOf v)
    header.freeListLen := f.header.freeListLen - 1 } with hf₁
  have hshape₁ : Shape f₁ :=
    ⟨hf.shape.dims_pos, hf.shape.m_pos, hf.shape.m_le, hf.shape.cap_pos, hf.shape.cap_lt,
      hf.shape.count_le, hf.shape.size, hf.shape.graph_le⟩
  obtain ⟨f₂, hrun₂, hheader₂, hshape₂, hdeleted₂, hrecord₂, hparts₂⟩ :=
    setDeleted_ok hshape₁ hcap false
  have hcap₂ : v < f₂.header.nodeCapacity := by
    rw [hheader₂]
    exact hcap
  obtain ⟨f₃, hrun₃, hheader₃, hshape₃, -, -, hparts₃⟩ :=
    @setGraphRecordOffset_ok f₂ v hshape₂ hcap₂ noneU64 (by decide)
  have hheader : f₃.header = f₁.header := hheader₃.trans hheader₂
  -- clearing the flag and the index entry of `v` leaves the other nodes as they are
  have hsame : ∀ n < f.header.nodeCount, n ≠ v → SameNode f f₃ n := by
    intro n hn hne
    have hncap := hf.lt_cap hn
    obtain ⟨hvector, hlink, -, hdeleted⟩ := hparts₂ n hncap
    obtain ⟨hvector', hlink', hdeleted', hrecord'⟩ := hparts₃ n (by rw [hheader₂]; exact hncap)
    have hsame₁ : SameRecord f f₁ n := ⟨rfl, rfl, fun _ _ => rfl⟩
    have hrecord := hsame₁.trans (hrecord₂ n hncap (hf.records.record hn))
    exact ⟨hrecord.trans (hrecord' hne), hvector'.trans hvector,
      hdeleted'.trans (hdeleted hne), hlink'.trans hlink⟩
  have hdeleted : f₃.deletedOf v = false := (hparts₃ v hcap₂).2.2.1.trans hdeleted₂
  have hnext : f.nextCapacity = f.header.nodeCapacity := by
    unfold nextCapacity
    rw [hhead, if_neg (fun h => nomatch h.1)]
  refine ⟨f₃, ?_, ?_, hshape₃, ?_, fun n _ => ?_, hsame, hdeleted, fun n hle hlt => ?_,
    Or.inl ⟨hhead, hv⟩, rest, ?_⟩
  · unfold allocateNode
    rw [hhead]
    dsimp only
    rw [hread, ok_bind, if_neg (by omega), hrun₂, ok_bind, hrun₃, ok_bind]
    rfl
  · rw [hheader, hnext]
  · rw [hheader]
    exact hv
  · rw [hheader]
  · rw [hheader] at hle hlt
    obtain ⟨-, -, -, hflag⟩ := hparts₂ n hlt
    obtain ⟨-, -, hflag', -⟩ := hparts₃ n (by rw [hheader₂]; exact hlt)
    have hle : f.header.nodeCount ≤ n := hle
    exact hflag'.trans ((hflag (by omega)).trans (hf.fresh hle hlt))
  -- the rest of the list is what is flagged, now that `v` is not
  · refine ⟨?_, hnodup.2, fun n => ?_, ?_⟩
    · rw [hheader]
      refine hchain.congr fun n hn => ?_
      have hmem := (hfree.mem n).mp (List.mem_cons_of_mem _ hn)
      exact (hsame n hmem.1 (ne_of_mem_of_not_mem hn hnodup.1)).link
    · rw [hheader]
      change n ∈ rest ↔ n < f.header.nodeCount ∧ f₃.deletedOf n = true
      by_cases hne : n = v
      · rw [hne, hdeleted]
        exact ⟨fun h => absurd h hnodup.1, fun h => nomatch h.2⟩
      · have hold := hfree.mem n
        rw [List.mem_cons, or_iff_right hne] at hold
        rw [hold]
        exact and_congr_right fun hn => by rw [(hsame n hn hne).deleted]
    · rw [hheader]
      change f.header.freeListLen - 1 = rest.length
      omega

theorem makeRoom_ok (hf : Layout f) (hhead : f.header.freeListHead = none) :
    f.makeRoom = overflowed ∨ ∃ f', f.makeRoom = .ok f' ∧
      f'.header = { f.header with nodeCapacity := f.nextCapacity } ∧ Shape f' ∧
      f.header.nodeCount < f'.header.nodeCapacity ∧
      (∀ n < f.header.nodeCount, SameNode f f' n) ∧
      ∀ n, f.header.nodeCount ≤ n → n < f'.header.nodeCapacity → f'.deletedOf n = false := by
  unfold makeRoom
  by_cases hfull : f.header.nodeCapacity ≤ f.header.nodeCount
  · have hnext : f.nextCapacity = f.header.nodeCapacity * 2 := if_pos ⟨hhead, hfull⟩
    rw [if_pos hfull]
    by_cases hcap : f.header.nodeCapacity * 2 < 2 ^ 32
    · obtain ⟨f₁, hrun, hgrows, -⟩ := grow_ok hf.shape hcap
      have hpos := hf.shape.cap_pos
      have hle := hf.shape.count_le
      refine Or.inr ⟨f₁, hrun, ?_, hgrows.shape, ?_, fun n hn => ?_, fun n hle hlt => ?_⟩
      · rw [hnext]
        exact hgrows.header
      · rw [hgrows.header]
        change f.header.nodeCount < f.header.nodeCapacity * 2
        omega
      · exact hgrows.same n (hf.lt_cap hn) (hf.records.record hn)
      · exact hgrows.clear n (by omega) hlt
    · refine Or.inl ?_
      unfold grow
      dsimp only
      rw [if_pos (Nat.le_of_not_lt hcap)]
  · have hnext : f.nextCapacity = f.header.nodeCapacity := if_neg fun h => hfull h.2
    rw [if_neg hfull, hnext]
    exact Or.inr ⟨f, rfl, rfl, hf.shape, Nat.lt_of_not_le hfull, fun n _ => .refl f n,
      fun n hle hlt => hf.fresh hle hlt⟩

/-- A new node is counted. -/
theorem allocateNode_new (hf : Layout f) (hfree : FreeList f free)
    (hhead : f.header.freeListHead = none) :
    f.allocateNode = overflowed ∨
      ∃ f', f.allocateNode = .ok (f.header.nodeCount, f') ∧ Allocates f f' f.header.nodeCount := by
  obtain rfl : free = [] := by
    have hchain := hfree.chain
    rw [hhead] at hchain
    cases hchain
    rfl
  unfold allocateNode
  rw [hhead]
  dsimp only
  rcases makeRoom_ok hf hhead with hover | ⟨f₁, hrun, hheader, hshape, hlt, hsame, hclear⟩
  · refine Or.inl ?_
    rw [hover]
    rfl
  · have hcount : f₁.header.nodeCount = f.header.nodeCount := by rw [hheader]
    rw [hrun, ok_bind, hcount]
    split
    · exact Or.inl rfl
    · rename_i hsmall
      refine Or.inr ⟨_, rfl, ?_⟩
      refine ⟨?_, ?_, Nat.lt_succ_self _, fun n hne => ?_, fun n hn _ => ?_,
        hclear _ le_rfl hlt, fun n hle hlt => ?_, Or.inr ⟨hhead, rfl⟩, [], ?_⟩
      · dsimp only
        rw [hheader]
      · exact ⟨hshape.dims_pos, hshape.m_pos, hshape.m_le, hshape.cap_pos, hshape.cap_lt, hlt,
          hshape.size, hshape.graph_le⟩
      · change n < f.header.nodeCount + 1 ↔ n < f.header.nodeCount
        omega
      · exact (hsame n hn).trans ⟨⟨rfl, rfl, fun _ _ => rfl⟩, rfl, rfl, rfl⟩
      · exact hclear n (by change f.header.nodeCount + 1 ≤ n at hle; omega) hlt
      · refine ⟨?_, List.nodup_nil, fun n => ?_, ?_⟩
        · dsimp only
          rw [hheader]
          change Chain _ f.header.freeListHead []
          rw [hhead]
          exact .nil
        · refine ⟨fun h => absurd h List.not_mem_nil, fun ⟨hn, hdel⟩ => ?_⟩
          have hn : n < f.header.nodeCount + 1 := hn
          have hdel : f₁.deletedOf n = true := hdel
          by_cases heq : n = f.header.nodeCount
          · rw [heq, hclear _ le_rfl hlt] at hdel
            exact nomatch hdel
          · have hold : n < f.header.nodeCount := by omega
            rw [(hsame n hold).deleted] at hdel
            exact (hfree.mem n).mpr ⟨hold, hdel⟩
        · dsimp only
          rw [hheader]
          exact hfree.length

/-- **Allocating a node overflows, or it leaves the other nodes alone.** -/
theorem allocateNode_ok (hf : Layout f) (hfree : FreeList f free) :
    f.allocateNode = overflowed ∨ ∃ v f', f.allocateNode = .ok (v, f') ∧ Allocates f f' v := by
  cases hhead : f.header.freeListHead with
  | none => exact (allocateNode_new hf hfree hhead).imp_right fun ⟨f', h⟩ => ⟨_, f', h⟩
  | some v =>
      obtain ⟨f', h⟩ := allocateNode_head hf hfree hhead
      exact Or.inr ⟨v, f', h⟩

end VecFile

end BoogyDb
