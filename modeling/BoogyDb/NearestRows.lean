import BoogyDb.LinkedNodes
import BoogyDb.VectorContents
import BoogyDb.VectorLinks

/-!
# The nearest rows

A search of the graph may miss rows: where edges were pruned or nodes were freed, not every row
need be reachable.  While vectors are only put in and there are at most `2 * m + 1` of them, no
list of layer 0 is full when it gets a new neighbor, so nothing is pruned and every node leads to
every other (`OnlyGrown.joined`).  Then a search that is wide enough is exact: it returns the `k`
nearest of the rows that pass the filter, as a scan of all vectors would
(`VectorRun.finds_nearest`).  Such a run finds room for every record.
-/

namespace BoogyDb

open KLeast VecFile Wp Except

/-- Vectors are only put in. -/
def VectorOp.Inserts : VectorOp → Prop
  | .insert _ _ _ => True
  | .delete _ => False
  | .update _ _ _ => False

/-! ## Searching a joined graph -/

namespace Hnsw

variable {ε : Type} {dist : List UInt32 → List UInt32 → UInt32} {storage : VectorStorage ε}
  {order : HeapOrder} {g : LayeredGraph} {query : List UInt32} {isAllowed : ℕ → Bool}

/-- **A wide search of a joined graph is exact.** -/
theorem search_nearest (hg : ReadsAs storage g) (hjoined : g.Joined)
    {k efSearch entryPoint maxLayer : ℕ} (hentry : g.On maxLayer entryPoint)
    (hnumbers : ∀ n < g.size, Binary32.isNaN (dist query (g.vector n)) = false)
    (hwidth : { n | n < g.size ∧ isAllowed n = true }.ncard ≤ max efSearch k) :
    ∃ found, search dist storage order query k efSearch entryPoint maxLayer isAllowed = .ok found ∧
      (∀ r ∈ found, r.1 < g.size ∧ r.2 = dist query (g.vector r.1)) ∧
      IsKLeast (fun n => Binary32.orderKey (dist query (g.vector n)))
        { n | n < g.size ∧ isAllowed n = true } k (found.map Prod.fst) := by
  obtain ⟨start, hdescend, hon, -⟩ := @descendTo_ok _ dist _ _ query hg entryPoint maxLayer 0 hentry
  rw [Nat.zero_min] at hon
  have heligible : g.eligible 0 start isAllowed = { n | n < g.size ∧ isAllowed n = true } := by
    ext n
    constructor
    · intro hn
      exact ⟨(hn.1.on hg.layered hon).1, hn.2.2⟩
    · intro hn
      exact ⟨hjoined.reaches start hon.1 n hn.1, hjoined.live n hn.1, hn.2⟩
  obtain ⟨beam, hbeamRun, hrun, hbeam, -⟩ :=
    @searchLayer_runs _ dist _ order _ query 0 isAllowed (max efSearch k) hg start hon
  obtain ⟨found, hrun', hfound, hnodup, -⟩ :=
    @searchLayer_ok _ dist _ order _ query 0 isAllowed (max efSearch k) hg start hon
  obtain rfl : found = sortedResults order beam := by
    rw [hrun] at hrun'
    exact (Except.ok.inj hrun').symm
  have hsorted : (sortedResults order beam).Pairwise fun r r' =>
      Binary32.orderKey r.2 ≤ Binary32.orderKey r'.2 := by
    refine sortByDistance_ascending fun r hr => ?_
    have hr := hfound r ((sortByDistance_perm _).mem_iff.mpr hr)
    rw [hr.dist_eq]
    exact hnumbers r.1 hr.on.1
  refine ⟨(sortedResults order beam).take k, ?_, fun r hr => ?_, ?_⟩
  · unfold search
    rw [hdescend, Except.ok_bind, hrun]
    rfl
  · have hr := hfound r (List.mem_of_mem_take hr)
    exact ⟨hr.on.1, hr.dist_eq⟩
  · rw [List.map_take, ← heligible]
    refine isKLeast_take hnodup (searchLayer_complete hg hon (heligible ▸ hwidth) hbeamRun hbeam) ?_ k
    rw [List.pairwise_map]
    refine hsorted.imp_of_mem fun {r r'} hr hr' hle => ?_
    rwa [← (hfound r hr).dist_eq, ← (hfound r' hr').dist_eq]

end Hnsw

/-! ## Collections that only grow -/

theorem graphDataPreallocated_eq (cap m : ℕ) :
    graphDataPreallocated cap m = graphRecordSize 16 m * cap := by
  have hsize : graphRecordSize 16 m = 4 + (4 + 2 * m * 4) + 16 * (4 + m * 4) := by
    simp only [graphRecordSize_eq, layerOffset_succ, layerOffset_zero, layerEntrySize, layerCapacity]
    simp only [Nat.succ_ne_zero, reduceIte]
    omega
  rw [hsize]
  rfl

namespace VectorCollection

variable {c c' : VectorCollection} {options : VectorCollectionOptions} {rowid : UInt64}
  {vector : List UInt32} {v layer : ℕ} {f₁ f₂ : VecFile} {r : Hnsw.InsertResult}
  {distanceFn : DistanceMetric → List UInt32 → List UInt32 → UInt32} {order : HeapOrder}

/-- Nothing was freed: every node is live, there is room for the records, and the nodes of a small
collection are joined. -/
structure OnlyGrown (options : VectorCollectionOptions) (c : VectorCollection) : Prop where
  inv : CollectionInv c
  holds : Holds options c
  simple : c.vecfile.graph.Simple
  live : ∀ n < c.vecfile.header.nodeCount, c.vecfile.deletedOf n = false
  head : c.vecfile.header.freeListHead = none
  entry : 0 < c.vecfile.header.nodeCount → c.vecfile.header.entryPoint.isSome
  room : c.vecfile.header.graphDataLen ≤
    graphRecordSize 16 c.vecfile.header.m * c.vecfile.header.nodeCount
  joined : c.vecfile.header.nodeCount ≤ 2 * options.m + 1 → c.vecfile.graph.Joined

theorem OnlyGrown.fits (h : OnlyGrown options c) (hlayer : layer ≤ 16) :
    c.vecfile.InsertFits layer := by
  have hsize : graphRecordSize layer c.vecfile.header.m ≤ graphRecordSize 16 c.vecfile.header.m :=
    layerOffset_mono (by omega)
  have hnext : c.vecfile.header.nodeCount + 1 ≤ c.vecfile.nextCapacity := by
    have hle := h.inv.graph.layout.shape.count_le
    have hpos := h.inv.graph.layout.shape.cap_pos
    unfold nextCapacity
    split
    · omega
    · rename_i hroom
      have hlt := Nat.lt_of_not_le fun hfull => hroom ⟨h.head, hfull⟩
      omega
  refine .of_new h.head ?_
  unfold HasRoom
  rw [graphDataPreallocated_eq]
  calc c.vecfile.header.graphDataLen + graphRecordSize layer c.vecfile.header.m
      ≤ graphRecordSize 16 c.vecfile.header.m * c.vecfile.header.nodeCount +
        graphRecordSize 16 c.vecfile.header.m := Nat.add_le_add h.room hsize
    _ = graphRecordSize 16 c.vecfile.header.m * (c.vecfile.header.nodeCount + 1) := by
        rw [Nat.mul_succ]
    _ ≤ graphRecordSize 16 c.vecfile.header.m * c.vecfile.nextCapacity :=
        Nat.mul_le_mul_left _ hnext

/-- The nodes after an insertion into a collection where nothing was freed. -/
theorem Built.grows (h : Built Access.code distanceFn order c c' vector layer v f₁ f₂ r)
    (hhead : c.vecfile.header.freeListHead = none) : v = c.vecfile.header.nodeCount ∧
      f₁.header.nodeCount = c.vecfile.header.nodeCount + 1 ∧
      c'.vecfile.header.nodeCount = c.vecfile.header.nodeCount + 1 := by
  have hnew : v = c.vecfile.header.nodeCount := by
    rcases h.adds.was with ⟨hsome, -⟩ | ⟨-, hnew⟩
    · exact nomatch hsome.symm.trans hhead
    · exact hnew
  have hcount : f₁.header.nodeCount = c.vecfile.header.nodeCount + 1 := by
    have hlt := h.adds.lt
    have hstop := (h.adds.counted (c.vecfile.header.nodeCount + 1) (by omega)).mp
    omega
  exact ⟨hnew, hcount, by rw [h.count, h.relinks.header, hcount]⟩

/-- An old node has its list until the lists are written. -/
theorem Built.oldList (h : Built Access.code distanceFn order c c' vector layer v f₁ f₂ r)
    (hhead : c.vecfile.header.freeListHead = none) {n : ℕ} (hn : n < c.vecfile.header.nodeCount) :
    f₁.listOf n 0 = c.vecfile.listOf n 0 := by
  obtain ⟨hnew, -⟩ := h.grows hhead
  exact (h.adds.same n hn (by omega)).record.list 0 (Nat.zero_le _)

/-- No list is full when the lists of the new node are computed. -/
theorem Built.roomy (h : Built Access.code distanceFn order c c' vector layer v f₁ f₂ r)
    (hc : OnlyGrown options c) (hsmall : c.vecfile.header.nodeCount ≤ 2 * c.vecfile.header.m) :
    Hnsw.Roomy f₁.graph f₁.header.m := by
  have hm : f₁.header.m = c.vecfile.header.m := by rw [h.adds.header]
  refine ⟨fun n hn => ?_, fun n hon => ?_⟩
  · by_cases hne : n = v
    · rw [hne]
      exact h.adds.deleted
    · have hn := (h.adds.counted n hne).mp hn
      exact (h.adds.same n hn hne).deleted.trans (hc.live n hn)
  · have hpos := hc.inv.graph.layout.shape.m_pos
    change (f₁.listOf n 0).length < 2 * f₁.header.m
    rw [hm]
    by_cases hne : n = v
    · rw [hne, h.adds.lists 0 (Nat.zero_le _), List.length_nil]
      omega
    · have hn := (h.adds.counted n hne).mp hon.1
      have hon : c.vecfile.graph.On 0 n := ⟨hn, Nat.zero_le _⟩
      have hsimple : (c.vecfile.listOf n 0).Nodup ∧ n ∉ c.vecfile.listOf n 0 := hc.simple 0 n hon
      have hsub : n :: c.vecfile.listOf n 0 ⊆ List.range c.vecfile.header.nodeCount := by
        refine List.cons_subset.mpr ⟨List.mem_range.mpr hn, fun x hx => ?_⟩
        exact List.mem_range.mpr (hc.inv.graph.layered 0 n hon x hx).1
      -- the list names each other node at most once
      have hle := ((List.nodup_cons.mpr ⟨hsimple.2, hsimple.1⟩).subperm hsub).length_le
      rw [List.length_range, List.length_cons] at hle
      rw [h.oldList hc.head hn]
      omega

/-- **The lists of layer 0 after an insertion**: some nodes are selected and linked back. -/
theorem Built.bottomLists (h : Built Access.code distanceFn order c c' vector layer v f₁ f₂ r)
    (hc : OnlyGrown options c) (hef : 0 < c.vecfile.header.efConstruction)
    (hsmall : c.vecfile.header.nodeCount ≤ 2 * c.vecfile.header.m)
    (hpos : 0 < c.vecfile.header.nodeCount) :
    ∃ selected, selected ≠ [] ∧ (∀ x ∈ selected, x < c.vecfile.header.nodeCount) ∧
      f₂.listOf v 0 = selected ∧
      ∀ n < c.vecfile.header.nodeCount, f₂.listOf n 0 =
        if n ∈ selected then Hnsw.withLink v (c.vecfile.listOf n 0) else c.vecfile.listOf n 0 := by
  obtain ⟨hnew, hcount, -⟩ := h.grows hc.head
  obtain ⟨ep, hep⟩ := Option.isSome_iff_exists.mp (hc.entry hpos)
  have hep : f₁.header.entryPoint = some ep := by rw [h.adds.header, ← hep]
  have hreuse : c.vecfile.header.freeListHead = some v → ¬ c.vecfile.Led v := fun hsome =>
    nomatch hsome.symm.trans hc.head
  have hunled := Adds.unled h.adds hc.inv.graph hreuse
  have hresult : Hnsw.insert (distanceFn f₁.header.metric) (Access.code.storage f₁) order v layer
      (some ep) f₁.header.maxLayer f₁.header.m f₁.header.efConstruction = .ok r := by
    rw [← hep]
    exact h.result
  obtain ⟨selected, hne, hconnections⟩ := Hnsw.insert_links
    (readsAs Access.code_sound h.adds.layout h.layered) (Adds.simple h.adds hc.simple)
    (h.roomy hc hsmall) h.adds.layout.shape.m_pos (by rwa [h.adds.header]) (Adds.on_self h.adds)
    (h.entry ep hep) (fun hleads => hunled ⟨ep, hep, hleads⟩) hresult
  obtain ⟨hwell, -⟩ := h.lists hc.inv.graph hc.simple hreuse
  have hself : (v, 0, selected) ∈ r.connections :=
    (hconnections v selected).mpr List.mem_cons_self
  have hown : v ∉ selected := hwell.own _ hself
  have hlinks : ∀ n list, (n, 0, list) ∈ r.connections ↔ n = v ∧ list = selected ∨
      n ∈ selected ∧ list = Hnsw.withLink v (f₁.listOf n 0) := by
    intro n list
    rw [hconnections, Hnsw.linkLists, List.mem_cons, List.mem_map, Prod.mk.injEq, Prod.mk.injEq]
    refine or_congr (by simp) ⟨fun ⟨x, hx, heq⟩ => ?_, fun ⟨hn, heq⟩ => ⟨n, hn, by rw [heq]; rfl⟩⟩
    cases heq
    exact ⟨hx, rfl⟩
  have hlists : ∀ n < f₁.header.nodeCount, f₂.listOf n 0 = f₁.listOf n 0 ∧
      (∀ connection ∈ r.connections, ¬ (connection.1 = n ∧ connection.2.1 = 0)) ∨
        (n, 0, f₂.listOf n 0) ∈ r.connections := fun n hn =>
    applyConnections_lists Access.code_sound h.adds.layout h.layered h.inserts.connects h.applied
      ⟨hn, Nat.zero_le _⟩
  refine ⟨selected, hne, fun x hx => ?_, ?_, fun n hn => ?_⟩
  · have hlt : x < f₁.header.nodeCount := ((h.inserts.connects _ hself).list x hx).1
    have hxv : x ≠ v := ne_of_mem_of_not_mem hx hown
    omega
  · rcases hlists v h.adds.lt with ⟨-, hno⟩ | hmem
    · exact absurd ⟨rfl, rfl⟩ (hno _ hself)
    · rcases (hlinks v _).mp hmem with ⟨-, heq⟩ | ⟨hv, -⟩
      · exact heq
      · exact absurd hv hown
  · have hnv : n ≠ v := by omega
    rw [← h.oldList hc.head hn]
    rcases hlists n (by omega) with ⟨hsame, hno⟩ | hmem
    · -- a node that was selected has got a list
      rw [hsame, if_neg fun hn => hno _ ((hlinks n _).mpr (Or.inr ⟨hn, rfl⟩)) ⟨rfl, rfl⟩]
    · obtain ⟨hn, heq⟩ := ((hlinks n _).mp hmem).resolve_left fun h => hnv h.1
      rw [if_pos hn, heq]

/-- **The new node is linked in both directions**, and no link is lost. -/
theorem Built.links (h : Built Access.code distanceFn order c c' vector layer v f₁ f₂ r)
    (hc : OnlyGrown options c) (hef : 0 < c.vecfile.header.efConstruction)
    (hsmall : c.vecfile.header.nodeCount ≤ 2 * c.vecfile.header.m)
    (hlive : ∀ n < c'.vecfile.header.nodeCount, c'.vecfile.deletedOf n = false) :
    LayeredGraph.Links c.vecfile.graph c'.vecfile.graph v := by
  obtain ⟨hnew, -, hcount⟩ := h.grows hc.head
  have hfinal : ∀ n < c'.vecfile.header.nodeCount, c'.vecfile.listOf n 0 = f₂.listOf n 0 := by
    intro n hn
    rw [h.count] at hn
    exact h.sameRecords.list ⟨hn, Nat.zero_le _⟩
  by_cases hpos : 0 < c.vecfile.header.nodeCount
  · obtain ⟨selected, hne, hlt, hself, hlists⟩ := h.bottomLists hc hef hsmall hpos
    refine ⟨hcount, hnew, hlive, fun a ha => ?_, fun _ => ?_⟩
    · have ha : a < c.vecfile.header.nodeCount := ha
      change c.vecfile.listOf a 0 ⊆ c'.vecfile.listOf a 0
      rw [hfinal a (by omega), hlists a ha]
      split
      · exact Hnsw.subset_withLink v _
      · exact List.Subset.refl _
    · obtain ⟨x, hx⟩ := List.exists_mem_of_ne_nil selected hne
      have hxlt := hlt x hx
      refine ⟨x, hxlt, ?_, ?_⟩
      · change x ∈ c'.vecfile.listOf v 0
        rwa [hfinal v (by omega), hself]
      · change v ∈ c'.vecfile.listOf x 0
        rw [hfinal x (by omega), hlists x hxlt, if_pos hx]
        exact Hnsw.mem_withLink v _
  · have hnone : ∀ a, ¬ a < c.vecfile.graph.size := fun a ha =>
      hpos (Nat.zero_lt_of_lt (show a < c.vecfile.header.nodeCount from ha))
    exact ⟨hcount, hnew, hlive, fun a ha => absurd ha (hnone a), fun hpos => absurd hpos (hnone 0)⟩

/-- **An insertion that goes through keeps the invariant.** -/
theorem OnlyGrown.inserted (hc : OnlyGrown options c) (hef : 0 < options.efConstruction)
    (hins : Inserted c c' rowid layer v)
    (hrun : insert Access.code distanceFn order rowid vector layer c = .ok v c')
    (hbuilt : Built Access.code distanceFn order c c' vector layer v f₁ f₂ r) (hlayer : layer ≤ 16) :
    OnlyGrown options c' := by
  obtain ⟨hnew, -, hcount⟩ := hbuilt.grows hc.head
  have hholds : Holds options c' :=
    ((@insert_follows rowid vector layer options distanceFn order c hc.holds).ok
      (run_bind_ok hrun)).1
  have hoptions := hholds.options_eq.trans hc.holds.options_eq.symm
  have hm : c'.vecfile.header.m = c.vecfile.header.m := congrArg VectorCollectionOptions.m hoptions
  have hreuse : c.vecfile.header.freeListHead = some v → ¬ c.vecfile.Led v := fun hsome =>
    nomatch hsome.symm.trans hc.head
  obtain ⟨hwell, -⟩ := hbuilt.lists hc.inv.graph hc.simple hreuse
  have hlive : ∀ n < c'.vecfile.header.nodeCount, c'.vecfile.deletedOf n = false := by
    intro n hn
    have hold : n = v ∨ c.vecfile.Live n := by
      by_cases hne : n = v
      · exact Or.inl hne
      · have hn : n < c.vecfile.header.nodeCount := by omega
        exact Or.inr ⟨hn, hc.live n hn⟩
    exact ((hins.live n).mpr hold).2
  refine ⟨hins.inv, hholds, hbuilt.simple hc.simple hwell, hlive, ?_, fun _ => ?_, ?_, fun hsmall => ?_⟩
  · -- no node is deleted, so none is free
    obtain ⟨free, hfree⟩ := hins.inv.graph.free
    cases free with
    | nil =>
        have hchain := hfree.chain
        generalize c'.vecfile.header.freeListHead = head at hchain ⊢
        cases hchain
        rfl
    | cons n free =>
        obtain ⟨hn, hdeleted⟩ := (hfree.mem n).mp List.mem_cons_self
        rw [hlive n hn] at hdeleted
        cases hdeleted
  · rw [hbuilt.newEntry]
    rfl
  · have happends := (wp_insert_appends hc.inv.maps hc.inv.graph.layout.shape).ok hrun
    have hsize : graphRecordSize layer c.vecfile.header.m ≤ graphRecordSize 16 c.vecfile.header.m :=
      layerOffset_mono (by omega)
    rw [happends.len, hm, hcount, Nat.mul_succ]
    exact Nat.add_le_add hc.room hsize
  · have hmEq : c.vecfile.header.m = options.m :=
      congrArg VectorCollectionOptions.m hc.holds.options_eq
    have hefEq : c.vecfile.header.efConstruction = options.efConstruction :=
      congrArg VectorCollectionOptions.efConstruction hc.holds.options_eq
    have hlinks := hbuilt.links hc (hefEq ▸ hef) (by omega) hlive
    exact (hc.joined (by omega)).of_links hlinks hc.inv.graph.layered

end VectorCollection

section

variable {c₀ c c' : VectorCollection} {options : VectorCollectionOptions}
  {distanceFn : DistanceMetric → List UInt32 → List UInt32 → UInt32} {order : HeapOrder}

open VectorCollection

/-- A call that puts a vector in keeps the invariant. -/
theorem VectorOp.run_onlyGrown {op : VectorOp} (hc : OnlyGrown options c)
    (hef : 0 < options.efConstruction) (hlayer : op.layer ≤ 16) (hinserts : op.Inserts)
    (hreturns : ReturnsTo (op.run Access.code distanceFn order) c c') : OnlyGrown options c' := by
  cases op with
  | delete rowid => exact hinserts.elim
  | update rowid vector layer => exact hinserts.elim
  | insert rowid vector layer =>
      have hfits : (VectorOp.insert rowid vector layer).Fits c := fun _ _ => hc.fits hlayer
      have hdrawn : (VectorOp.insert rowid vector layer).layer < 2 ^ 32 :=
        Nat.lt_of_le_of_lt hlayer (by decide)
      cases VectorOp.run_effect hc.inv hdrawn hfits hreturns with
      | refused hrun => exact hc
      | inserted hrun hins hbuilt => exact hc.inserted hef hins hrun hbuilt hlayer

/-- **While vectors are only put in, the invariant holds.** -/
theorem VectorRun.onlyGrown {cipher : Option Aes256Gcm} {nonces : ℕ → Nonce}
    (hcreate : VectorCollection.create options cipher nonces = .ok c₀)
    (hrun : VectorRun distanceFn order (fun _ op => op.Inserts ∧ op.layer ≤ 16) c₀ c)
    (hef : 0 < options.efConstruction) : OnlyGrown options c := by
  induction hrun with
  | step _ _ hinserts hreturns ih =>
      exact VectorOp.run_onlyGrown ih hef hinserts.2 hinserts.1 hreturns
  | start =>
      obtain ⟨hentry, hcount⟩ := create_empty hcreate
      have hnone : ∀ n, ¬ n < c₀.vecfile.header.nodeCount := fun n hn =>
        Nat.not_lt_zero n (hcount ▸ hn)
      have hfile : c₀.vecfile.header.freeListHead = none ∧ c₀.vecfile.header.graphDataLen = 0 := by
        unfold VectorCollection.create at hcreate
        split at hcreate
        · cases hcreate
        · split at hcreate
          · cases hcreate
          · cases hcreate
            exact ⟨rfl, rfl⟩
      refine ⟨create_inv hcreate, (create_holds hcreate).1, fun _ n hon => absurd hon.1 (hnone n),
        fun n hn => absurd hn (hnone n), hfile.1, fun hpos => absurd hpos (hnone 0), ?_,
        fun _ => ⟨fun n hn => absurd hn (hnone n), fun a ha => absurd ha (hnone a)⟩⟩
      rw [hfile.2]
      exact Nat.zero_le _

end

/-! ## Rows and nodes -/

namespace VectorCollection

variable {c c₀ : VectorCollection} {options : VectorCollectionOptions}
  {distanceFn : DistanceMetric → List UInt32 → List UInt32 → UInt32} {order : HeapOrder}
  {rowLoader : Option (UInt64 → Option (List (String × Value)))} {filter : Option Filter}
  {query : List UInt32} {k efSearch n : ℕ}

/-- The row id of a node. -/
def rowOf (c : VectorCollection) (n : ℕ) : UInt64 := (c.nodeToRowid.lookup n).getD 0

theorem OnlyGrown.lookup_rowOf (h : OnlyGrown options c) (hn : n < c.vecfile.header.nodeCount) :
    c.nodeToRowid.lookup n = some (c.rowOf n) := by
  obtain ⟨rowid, hlookup⟩ := (h.inv.mapped n).mpr ⟨hn, h.live n hn⟩
  unfold rowOf
  rw [hlookup]
  rfl

theorem OnlyGrown.contents_rowOf (h : OnlyGrown options c) (hn : n < c.vecfile.header.nodeCount) :
    c.contents (c.rowOf n) = some (c.vecfile.vectorOf n) := by
  have hlayout := h.inv.graph.layout
  exact contents_of_lookup ((h.inv.inverse _ n).mpr (h.lookup_rowOf hn))
    (hlayout.shape.readVector (hlayout.lt_cap hn))

theorem OnlyGrown.rowOf_inj (h : OnlyGrown options c) {p : ℕ → Prop} :
    Set.InjOn c.rowOf { n | n < c.vecfile.header.nodeCount ∧ p n } := by
  intro a ha b hb heq
  have hnode := (h.inv.inverse _ a).mpr (h.lookup_rowOf ha.1)
  rw [heq, (h.inv.inverse _ b).mpr (h.lookup_rowOf hb.1)] at hnode
  exact (Option.some.inj hnode).symm

/-- Each row is that of a node. -/
theorem OnlyGrown.rows_eq (h : OnlyGrown options c) {p : UInt64 → Prop} :
    { rowid | (c.contents rowid).isSome = true ∧ p rowid } =
      c.rowOf '' { n | n < c.vecfile.header.nodeCount ∧ p (c.rowOf n) } := by
  ext rowid
  constructor
  · rintro ⟨hsome, hp⟩
    obtain ⟨n, hlookup⟩ := Option.isSome_iff_exists.mp
      (AList.lookup_isSome.mpr (h.holds.lookup_iff.mp hsome))
    have hnode := (h.inv.inverse rowid n).mp hlookup
    have hn := ((h.inv.mapped n).mp ⟨rowid, hnode⟩).1
    obtain rfl : rowid = c.rowOf n := Option.some.inj (hnode.symm.trans (h.lookup_rowOf hn))
    exact ⟨n, ⟨hn, hp⟩, rfl⟩
  · rintro ⟨n, ⟨hn, hp⟩, rfl⟩
    refine ⟨?_, hp⟩
    rw [h.contents_rowOf hn]
    rfl

/-- There are as many rows as nodes. -/
theorem OnlyGrown.ncard_rows (h : OnlyGrown options c) :
    { rowid | (c.contents rowid).isSome = true }.ncard = c.vecfile.header.nodeCount := by
  have hrows := h.rows_eq (p := fun _ => True)
  simp only [and_true] at hrows
  have hinj : Set.InjOn c.rowOf { n | n < c.vecfile.header.nodeCount } := by
    have hinj := h.rowOf_inj (p := fun _ => True)
    simpa only [and_true] using hinj
  have hrange : { n | n < c.vecfile.header.nodeCount } =
      ((Finset.range c.vecfile.header.nodeCount : Finset ℕ) : Set ℕ) := by
    ext n
    simp
  rw [hrows, hinj.ncard_image, hrange, Set.ncard_coe_finset, Finset.card_range]

/-- What an exact search returns: the `k` nearest of the rows that pass, with their distances. -/
structure Nearest (m : VectorMap) (dist : List UInt32 → UInt32) (passes : UInt64 → Bool) (k : ℕ)
    (found : List VectorResult) : Prop where
  distances : ∀ r ∈ found, ∃ vector, m r.rowid = some vector ∧ r.distance = dist vector
  nearest : IsKLeast (fun rowid => Binary32.orderKey (dist ((m rowid).getD [])))
    { rowid | (m rowid).isSome = true ∧ passes rowid = true } k (found.map VectorResult.rowid)

/-- **A wide search of a small collection is exact.** -/
theorem OnlyGrown.search_nearest (h : OnlyGrown options c)
    (hrows : { rowid | (c.contents rowid).isSome = true }.ncard ≤ 2 * options.m + 1)
    (hquery : query.length = options.dimensions)
    (hwidth : { rowid | (c.contents rowid).isSome = true ∧
      rowAllowed rowLoader filter rowid = true }.ncard ≤ max efSearch k)
    (hnumbers : ∀ rowid vector, c.contents rowid = some vector →
      Binary32.isNaN (distanceFn options.metric query vector) = false) :
    ∃ found, search Access.code distanceFn order c query k efSearch rowLoader filter = .ok found ∧
      Nearest c.contents (distanceFn options.metric query) (rowAllowed rowLoader filter) k found := by
  have hmetric : c.vecfile.header.metric = options.metric :=
    congrArg VectorCollectionOptions.metric h.holds.options_eq
  have hallowed : { n | n < c.vecfile.header.nodeCount ∧
      rowAllowed rowLoader filter (c.rowOf n) = true } =
      { n | n < c.vecfile.graph.size ∧ allowed c rowLoader filter n = true } := by
    ext n
    refine and_congr_right fun hn => ?_
    rw [allowed_eq (h.lookup_rowOf hn)]
  have hset := h.rows_eq (p := fun rowid => rowAllowed rowLoader filter rowid = true)
  have hinj := h.rowOf_inj (p := fun n => rowAllowed rowLoader filter (c.rowOf n) = true)
  rw [hset, hinj.ncard_image, hallowed] at hwidth
  unfold search
  dsimp only
  rw [h.holds.dims_eq, if_neg (not_not_intro hquery), hmetric]
  cases hentry : c.vecfile.header.entryPoint with
  | none =>
      have hzero : c.vecfile.header.nodeCount = 0 := by
        by_contra hne
        have hsome := h.entry (Nat.pos_of_ne_zero hne)
        rw [hentry] at hsome
        cases hsome
      have hempty : { n | n < c.vecfile.header.nodeCount ∧
          rowAllowed rowLoader filter (c.rowOf n) = true } = ∅ := by
        rw [hzero]
        exact Set.eq_empty_of_forall_notMem fun n hn => Nat.not_lt_zero n hn.1
      refine ⟨[], rfl, nofun, ?_⟩
      rw [hset, hempty, Set.image_empty]
      exact ⟨List.nodup_nil, nofun, List.Pairwise.nil, by rw [Set.ncard_empty, Nat.min_zero]; rfl, nofun⟩
  | some ep =>
      have hreads := readsAs Access.code_sound h.inv.graph.layout h.inv.graph.layered
      -- so few nodes do not overfill a list of layer 0, where each leads to each
      have hjoined := h.joined (h.ncard_rows ▸ hrows)
      obtain ⟨found, hrun, hfound, hleast⟩ :=
        @Hnsw.search_nearest _ (distanceFn options.metric) _ order _ query
          (allowed c rowLoader filter) hreads hjoined k efSearch ep c.vecfile.header.maxLayer
          (h.inv.graph.entry ep hentry) (fun n hn => hnumbers _ _ (h.contents_rowOf hn)) hwidth
      have hnamed : (found.filterMap fun n => (c.nodeToRowid.lookup n.1).map fun rowid =>
          (⟨rowid, n.2⟩ : VectorResult)) = found.map fun n => ⟨c.rowOf n.1, n.2⟩ := by
        rw [← List.filterMap_eq_map]
        refine List.filterMap_congr fun n hn => ?_
        rw [h.lookup_rowOf (hfound n hn).1]
        rfl
      refine ⟨found.map fun n => ⟨c.rowOf n.1, n.2⟩, ?_, fun r hr => ?_, ?_⟩
      · dsimp only
        rw [hrun, Except.ok_bind, hnamed]
        rfl
      · obtain ⟨n, hn, rfl⟩ := List.mem_map.mp hr
        exact ⟨_, h.contents_rowOf (hfound n hn).1, (hfound n hn).2⟩
      · rw [hset, List.map_map, hallowed]
        -- the search speaks of nodes, the statement of rows: the rows are their image
        have himage : IsKLeast (fun rowid => Binary32.orderKey (distanceFn options.metric query
            ((c.contents rowid).getD []))) (c.rowOf '' { n | n < c.vecfile.graph.size ∧
              allowed c rowLoader filter n = true }) k ((found.map Prod.fst).map c.rowOf) := by
          refine hleast.image (hallowed ▸ hinj) fun n hn => ?_
          rw [h.contents_rowOf hn.1]
          rfl
        rw [List.map_map] at himage
        exact himage

end VectorCollection

open VectorCollection

/-- **While vectors are only put in and there are at most `2 * m + 1` of them, a wide search is
exact**: it returns the `k` nearest of the rows that pass the filter. -/
theorem VectorRun.finds_nearest {c c₀ : VectorCollection} {options : VectorCollectionOptions}
    {distanceFn : DistanceMetric → List UInt32 → List UInt32 → UInt32} {order : HeapOrder}
    {cipher : Option Aes256Gcm} {nonces : ℕ → Nonce}
    (hcreate : VectorCollection.create options cipher nonces = .ok c₀)
    (hrun : VectorRun distanceFn order (fun _ op => op.Inserts ∧ op.layer ≤ 16) c₀ c)
    (hef : 0 < options.efConstruction)
    (hrows : { rowid | (c.contents rowid).isSome = true }.ncard ≤ 2 * options.m + 1)
    (rowLoader : Option (UInt64 → Option (List (String × Value)))) (filter : Option Filter)
    {query : List UInt32} (hquery : query.length = options.dimensions) (k : ℕ) {efSearch : ℕ}
    (hwidth : { rowid | (c.contents rowid).isSome = true ∧
      rowAllowed rowLoader filter rowid = true }.ncard ≤ max efSearch k)
    (hnumbers : ∀ rowid vector, c.contents rowid = some vector →
      Binary32.isNaN (distanceFn options.metric query vector) = false) :
    ∃ found, VectorCollection.search Access.code distanceFn order c query k efSearch rowLoader
        filter = .ok found ∧
      Nearest c.contents (distanceFn options.metric query) (rowAllowed rowLoader filter) k found :=
  (hrun.onlyGrown hcreate hef).search_nearest hrows hquery hwidth hnumbers

/-- The rows are among the keys of the map. -/
theorem VectorCollection.ncard_rows_le (c : VectorCollection) {p : UInt64 → Prop} :
    { rowid | (c.contents rowid).isSome = true ∧ p rowid }.ncard ≤ c.rowidToNode.keys.length := by
  have hsub : { rowid | (c.contents rowid).isSome = true ∧ p rowid } ⊆
      (c.rowidToNode.keys.toFinset : Set UInt64) := by
    intro rowid hrowid
    rw [Finset.mem_coe, List.mem_toFinset]
    by_contra hnot
    have hnone := contents_of_missing (AList.lookup_eq_none.mpr hnot)
    rw [Set.mem_ofPred_eq, hnone] at hrowid
    exact nomatch hrowid.1
  calc { rowid | (c.contents rowid).isSome = true ∧ p rowid }.ncard
      ≤ (c.rowidToNode.keys.toFinset : Set UInt64).ncard :=
        Set.ncard_le_ncard hsub (Finset.finite_toSet _)
    _ = c.rowidToNode.keys.toFinset.card := Set.ncard_coe_finset _
    _ ≤ c.rowidToNode.keys.length := List.toFinset_card_le _

/-- Three vectors, at the layers that `m = 2` draws. -/
theorem VectorRun.finds_nearest_line : ∃ c found,
    (newVectors 2).after lineDistance .inOrder
      [.insert 1 [0x40000000] 1, .insert 2 [0] 0, .insert 3 [0x3F800000] 1] = some c ∧
    VectorCollection.search Access.code lineDistance .inOrder c [0] 2 3 none none = .ok found ∧
    Nearest c.contents (lineDistance .euclidean [0]) (rowAllowed none none) 2 found := by
  have hcreate : VectorCollection.create ⟨1, .euclidean, 2, 10⟩ none VectorWal.zeroNonces =
    .ok (newVectors 2) := rfl
  have heval : ((newVectors 2).after lineDistance .inOrder
      [.insert 1 [0x40000000] 1, .insert 2 [0] 0, .insert 3 [0x3F800000] 1]).any (fun c =>
        c.rowidToNode.keys.length = 3) = true := by
    decide +kernel
  obtain ⟨c, hafter, hthree⟩ := (Option.any_eq_true _ _).mp heval
  have hthree := of_decide_eq_true hthree
  have hinserts : ∀ rowid vector layer, layer ≤ 16 → (VectorOp.insert rowid vector layer).Inserts ∧
      (VectorOp.insert rowid vector layer).layer ≤ 16 := fun _ _ _ hlayer => ⟨trivial, hlayer⟩
  obtain ⟨c₁, hrun₁, hrest₁⟩ := VectorCollection.after_cons.mp hafter
  obtain ⟨c₂, hrun₂, hrest₂⟩ := VectorCollection.after_cons.mp hrest₁
  obtain ⟨c₃, hrun₃, hrest₃⟩ := VectorCollection.after_cons.mp hrest₂
  obtain rfl : c₃ = c := Option.some.inj hrest₃
  have hstep₁ : VectorRun lineDistance .inOrder (fun _ op => op.Inserts ∧ op.layer ≤ 16) (newVectors 2) c₁ :=
    VectorRun.start.step (by decide) (hinserts _ _ _ (by decide)) (Or.inl ⟨_, hrun₁⟩)
  have hstep₂ : VectorRun lineDistance .inOrder (fun _ op => op.Inserts ∧ op.layer ≤ 16) (newVectors 2) c₂ :=
    hstep₁.step (by decide) (hinserts _ _ _ (by decide)) (Or.inl ⟨_, hrun₂⟩)
  have hrun : VectorRun lineDistance .inOrder (fun _ op => op.Inserts ∧ op.layer ≤ 16) (newVectors 2) c₃ :=
    hstep₂.step (by decide) (hinserts _ _ _ (by decide)) (Or.inl ⟨_, hrun₃⟩)
  have hrows : ∀ p : UInt64 → Prop,
      { rowid | (c₃.contents rowid).isSome = true ∧ p rowid }.ncard ≤ 3 := fun p =>
    c₃.ncard_rows_le.trans hthree.le
  have hall := hrows fun _ => True
  simp only [and_true] at hall
  have hnumbers : ∀ (rowid : UInt64) (vector : List UInt32), c₃.contents rowid = some vector →
      Binary32.isNaN (lineDistance .euclidean [0] vector) = false := by
    intro rowid vector _
    unfold lineDistance
    split
    · decide
    · split <;> decide
  have hwidth : { rowid | (c₃.contents rowid).isSome = true ∧
      rowAllowed none none rowid = true }.ncard ≤ max 3 2 := hrows _
  obtain ⟨found, hsearch, hnearest⟩ := VectorRun.finds_nearest hcreate hrun (by decide)
    (hall.trans (by decide)) none none
    rfl 2 hwidth hnumbers
  exact ⟨c₃, found, hafter, hsearch, hnearest⟩

end BoogyDb
