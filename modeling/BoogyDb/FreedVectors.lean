import BoogyDb.InsertedLists
import BoogyDb.RecordIndex

/-!
# The vectors of freed nodes

A search goes through deleted nodes, and orders them by their distance to the query.  But a node
that is freed gets the link of the free list in its slot, over the first component of its vector
(`freeNode`), so a deleted node that a list still leads to presents another vector.

`InsertRun` is a run with the vector that was inserted last for each node.  In a run where each
node that is freed is not led to any more, or its first component is the link by chance, every
node that the entry point leads to has the vector that was inserted for it
(`InsertRun.presents_inserted`).
-/

namespace BoogyDb

open Bytes Memory Wp Except VecFile

/-! ## Slots -/

namespace VecFile

variable {f f' f'' : VecFile} {n v : ℕ}

/-- The link that a node gets when it is freed. -/
def linkWritten (f : VecFile) : ℕ := f.header.freeListHead.getD noneU32

/-- The vectors are the same, up to that of `v`: it is the same if its first component is the link
that is written. -/
structure KeepsVectors (f f' : VecFile) (v : ℕ) : Prop where
  others : ∀ n < f.header.nodeCapacity, n ≠ v → f'.vectorOf n = f.vectorOf n
  self : f.linkOf v = f.linkWritten → f'.vectorOf v = f.vectorOf v

/-- **A node that is freed loses the first component of its vector to the link.** -/
theorem freeNode_vectors (hf : Shape f) (hv : v < f.header.nodeCapacity) :
    Good NotError (fun f' => SameShape f f' ∧ KeepsVectors f f' v) (f.freeNode v) := by
  have hdims := hf.dims_pos
  have hslot := slot_le hv
  have hend := hf.flags_le
  have hindex := Shape.index_le_graph f
  have hgraph := Shape.graph_le_flags f
  obtain ⟨hrun, hw⟩ := @store_ok f (f.slotOffset v) (leBytes 4 f.linkWritten)
    (by rw [length_leBytes]; omega)
  rw [length_leBytes] at hw
  set f₁ : VecFile := { f with mem := f.mem.write (f.slotOffset v) (leBytes 4 f.linkWritten) } with hf₁
  obtain ⟨f₂, hrun₂, hheader₂, -, -, -, hparts₂⟩ := setDeleted_ok (hf.of_writes hw) hv true
  have hself : f.linkOf v = f.linkWritten → f₁.vectorOf v = f.vectorOf v := by
    intro hlink
    refine vectorOf_congr hw.shape ?_
    rw [hf₁, ← hlink]
    exact agree_write_word
  unfold freeNode
  dsimp only
  change Good NotError _ (f.store (f.slotOffset v) (leBytes 4 f.linkWritten) >>= _)
  rw [hrun, ok_bind, hrun₂, ok_bind]
  have hdims₂ : f₂.header.dimensions = f.header.dimensions := by rw [hheader₂]
  have hm₂ : f₂.header.m = f.header.m := by rw [hheader₂]
  have hcap₂ : f₂.header.nodeCapacity = f.header.nodeCapacity := by rw [hheader₂]
  refine good_ite (fun _ => notError_overflow) fun _ =>
    ⟨⟨hdims₂, hm₂, hcap₂⟩, fun n hn hne => ?_, fun hlink => ?_⟩
  · exact (hparts₂ n hn).1.trans (hw.inSlot hf hv hn hne le_rfl (by omega)).vector
  · exact (hparts₂ v hv).1.trans (hself hlink)

theorem flush_vectors (f : VecFile) :
    Good NotError (fun f' => ∀ n, f'.vectorOf n = f.vectorOf n) f.flush := by
  refine store_good fun f' hw n => hw.vectorOf (Or.inr ?_)
  have hheader := vecHeaderSize_le_slot f n
  have hfits : offDimensions + f.headerBytes.length ≤ vecHeaderSize := by
    rw [length_headerBytes]
    decide
  omega

end VecFile

namespace VectorCollection

variable {c c' : VectorCollection} {f₁ f₂ : VecFile} {rowid : UInt64} {vector : List UInt32}
  {n v layer : ℕ} {r : Hnsw.InsertResult}
  {distanceFn : DistanceMetric → List UInt32 → List UInt32 → UInt32} {order : HeapOrder}

/-- A deletion keeps the vectors, up to that of its node. -/
theorem wp_delete_vectors (hc : MapsInv c) (hf : Shape c.vecfile) :
    wp (delete Access.code rowid) (fun _ c' => ∀ v, c.rowidToNode.lookup rowid = some v →
      KeepsVectors c.vecfile c'.vecfile v) (fun _ _ => True) c := by
  unfold delete
  refine wp_get_bind.mpr ?_
  cases hlookup : c.rowidToNode.lookup rowid with
  | none => trivial
  | some v =>
      have hv := (hc.nodes.counted v ⟨rowid, (hc.inverse rowid v).mp hlookup⟩).trans_le hf.count_le
      dsimp only
      rw [wp, run_set_bind, ← wp]
      refine wp_ofExcept_bind (entryAfterDelete_good c.vecfile v) (fun _ _ => trivial)
        fun newEp _ => ?_
      rw [wp_bind]
      refine wp_appendCommitted fun wal => ?_
      rw [code_run]
      refine wp_ofExcept_bind (freeNode_vectors hf hv) (fun _ _ => trivial) fun f₁ hfreed => ?_
      obtain ⟨-, h₁⟩ := hfreed
      rw [code_run]
      refine wp_ofExcept_bind (flush_vectors _) (fun _ _ => trivial) fun f₂ h₂ v' hv' => ?_
      cases hv'
      exact ⟨fun n hn hne => (h₂ n).trans (h₁.others n hn hne),
        fun hlink => (h₂ v).trans (h₁.self hlink)⟩

/-- An insertion writes the vector of its node. -/
theorem Built.vectors (h : Built Access.code distanceFn order c c' vector layer v f₁ f₂ r) :
    c'.vecfile.vectorOf v = vector ∧
      ∀ n < c.vecfile.header.nodeCount, n ≠ v → c'.vecfile.vectorOf n = c.vecfile.vectorOf n := by
  have hle := h.adds.layout.shape.count_le
  have hcap : ∀ n < f₁.header.nodeCapacity, c'.vecfile.vectorOf n = f₁.vectorOf n := fun n hn =>
    (h.same n (h.relinks.header ▸ hn)).vector.trans (h.relinks.parts n hn).1
  refine ⟨?_, fun n hn hne => ?_⟩
  · rw [hcap v (h.adds.lt.trans_le hle), h.adds.vector]
  · rw [hcap n (((h.adds.counted n hne).mpr hn).trans_le hle), (h.adds.same n hn hne).vector]

end VectorCollection

/-! ## Runs -/

section

variable (distanceFn : DistanceMetric → List UInt32 → List UInt32 → UInt32) (order : HeapOrder)

/-- The node and the vector that a call inserts. -/
def VectorOp.inserted (c : VectorCollection) : VectorOp → Option (ℕ × List UInt32)
  | insert rowid vector layer =>
      match VectorCollection.insert Access.code distanceFn order rowid vector layer c with
      | .ok v _ => some (v, vector)
      | .error _ _ => none
  | delete _ => none
  | update rowid vector layer =>
      match VectorCollection.update Access.code distanceFn order rowid vector layer c with
      | .ok v _ => some (v, vector)
      | .error _ _ => none

/-- The vectors that were inserted last, after one more insertion. -/
def lastInserted (last : ℕ → Option (List UInt32)) :
    Option (ℕ × List UInt32) → ℕ → Option (List UInt32)
  | none => last
  | some (v, vector) => Function.update last v (some vector)

variable (Fits : VectorCollection → VectorOp → Prop)

/-- Calls that fit, one after the other, with the vector that was inserted last for each node. -/
inductive InsertRun (c₀ : VectorCollection) :
    VectorCollection → (ℕ → Option (List UInt32)) → Prop
  | start : InsertRun c₀ c₀ fun _ => none
  | step {c c' : VectorCollection} {op : VectorOp} {last : ℕ → Option (List UInt32)}
      (h : InsertRun c₀ c last) (hlayer : op.layer < 2 ^ 32) (hfits : Fits c op)
      (hreturns : ReturnsTo (op.run Access.code distanceFn order) c c') :
      InsertRun c₀ c' (lastInserted last (op.inserted distanceFn order c))

end

/-- Every node that the entry point leads to, deleted or not, has the vector that was inserted
last for it. -/
def PresentsInserted (c : VectorCollection) (last : ℕ → Option (List UInt32)) : Prop :=
  ∀ n, c.vecfile.Led n → ∃ vector, last n = some vector ∧ c.vecfile.readVector n = .ok vector

/-- When the node is freed, the entry point that remains does not lead to it, or the link is its
first component. -/
def VecFile.KeepsVector (f : VecFile) (v : ℕ) : Prop :=
  ∀ ep, f.entryWithout v = some ep → f.graph.Leads ep v → f.linkOf v = f.linkWritten

/-- An update whose vector has the right length writes the slot again. -/
def VectorOp.KeepsVector (c : VectorCollection) : VectorOp → Prop
  | .insert _ _ _ => True
  | .delete rowid => ∀ v, c.rowidToNode.lookup rowid = some v → c.vecfile.KeepsVector v
  | .update rowid vector _ => vector.length ≠ c.vecfile.header.dimensions →
      ∀ v, c.rowidToNode.lookup rowid = some v → c.vecfile.KeepsVector v

namespace VectorCollection

variable {c c' : VectorCollection} {f₁ f₂ : VecFile} {rowid : UInt64} {vector : List UInt32}
  {n v layer : ℕ} {r : Hnsw.InsertResult} {last : ℕ → Option (List UInt32)}
  {distanceFn : DistanceMetric → List UInt32 → List UInt32 → UInt32} {order : HeapOrder}

/-- What `PresentsInserted` says of the slot. -/
def HasInserted (c : VectorCollection) (last : ℕ → Option (List UInt32)) (n : ℕ) : Prop :=
  c.vecfile.Led n → last n = some (c.vecfile.vectorOf n)

theorem presentsInserted_iff (hc : CollectionInv c) :
    PresentsInserted c last ↔ ∀ n, c.HasInserted last n := by
  refine forall_congr' fun n => imp_congr_right fun hled => ?_
  have hlayout := hc.graph.layout
  rw [hlayout.shape.readVector (hlayout.lt_cap (hled.lt hc.graph))]
  constructor
  · rintro ⟨vector, hlast, hread⟩
    rw [hlast, Except.ok.inj hread]
  · exact fun hlast => ⟨_, hlast, rfl⟩

/-- The new node has the new vector, and the others what they had: it does not matter what was in
the slot of the new node. -/
theorem Built.hasInserted (h : Built Access.code distanceFn order c c' vector layer v f₁ f₂ r)
    (hc : CollectionInv c) (hothers : ∀ n, n ≠ v → c.HasInserted last n) :
    ∀ n, c'.HasInserted (lastInserted last (some (v, vector))) n := by
  intro n hled
  obtain ⟨hself, hsame⟩ := h.vectors
  by_cases hne : n = v
  · subst hne
    rw [hself]
    exact Function.update_self _ _ _
  · have hledOld := (h.led hled).resolve_left hne
    calc lastInserted last (some (v, vector)) n = last n := Function.update_of_ne hne _ _
      _ = some (c.vecfile.vectorOf n) := hothers n hne hledOld
      _ = some (c'.vecfile.vectorOf n) := by rw [hsame n (hledOld.lt hc.graph) hne]

/-- **A freed node keeps its vector if the condition holds**, and the others keep theirs. -/
theorem Deleted.hasInserted (h : Deleted c c' rowid v) (hc : CollectionInv c)
    (hrun : delete Access.code rowid c = .ok () c') (hold : ∀ n, c.HasInserted last n) :
    (∀ n, n ≠ v → c'.HasInserted last n) ∧
      (c.vecfile.KeepsVector v → ∀ n, c'.HasInserted last n) := by
  have hlayout := hc.graph.layout
  have hv : v < c.vecfile.header.nodeCount :=
    ((hc.mapped v).mp ⟨rowid, (hc.inverse rowid v).mp h.was⟩).1
  have hkeeps := (wp_delete_vectors hc.maps hlayout.shape).ok hrun v h.was
  have hothers : ∀ n, n ≠ v → c'.HasInserted last n := by
    intro n hne hled
    have hledOld := h.led hv hled
    rw [hold n hledOld, hkeeps.others n (hlayout.lt_cap (hledOld.lt hc.graph)) hne]
  refine ⟨hothers, fun hkeep n hled => ?_⟩
  by_cases hne : n = v
  · subst hne
    obtain ⟨ep, hep, hleads⟩ := h.leads hled
    rw [hold n (h.led hv hled), hkeeps.self (hkeep ep hep hleads)]
  · exact hothers n hne hled

end VectorCollection

section

variable {distanceFn : DistanceMetric → List UInt32 → List UInt32 → UInt32} {order : HeapOrder}
  {Fits : VectorCollection → VectorOp → Prop} {c₀ c c' : VectorCollection} {op : VectorOp}
  {last : ℕ → Option (List UInt32)}

open VectorCollection

/-- A call that returns an error inserts nothing. -/
theorem VectorOp.inserted_of_error {e : Fault}
    (hrun : op.run Access.code distanceFn order c = .error e c') :
    op.inserted distanceFn order c = none := by
  cases op with
  | insert rowid vector layer =>
      unfold VectorOp.inserted
      dsimp only
      cases hinsert : VectorCollection.insert Access.code distanceFn order rowid vector layer c with
      | ok v c₁ => exact nomatch (VectorOp.run_discard_ok hinsert).symm.trans hrun
      | error e c₁ => rfl
  | delete rowid => rfl
  | update rowid vector layer =>
      unfold VectorOp.inserted
      dsimp only
      cases hupdate : VectorCollection.update Access.code distanceFn order rowid vector layer c with
      | ok v c₁ => exact nomatch (VectorOp.run_discard_ok hupdate).symm.trans hrun
      | error e c₁ => rfl

/-- **A call keeps the vectors of the nodes that the entry point leads to.** -/
theorem VectorOp.run_hasInserted (hc : CollectionInv c) (hkeep : op.KeepsVector c)
    (heffect : op.Effect distanceFn order c c') (hold : ∀ n, c.HasInserted last n) :
    ∀ n, c'.HasInserted (lastInserted last (op.inserted distanceFn order c)) n := by
  cases heffect with
  | refused hrun =>
      rw [VectorOp.inserted_of_error hrun]
      exact hold
  | inserted hrun hins hbuilt =>
      unfold VectorOp.inserted
      dsimp only
      rw [hrun]
      exact hbuilt.hasInserted hc fun n _ => hold n
  | deleted hrun hdel => exact (hdel.hasInserted hc hrun hold).2 (hkeep _ hdel.was)
  | halfUpdated hlen hdelete hdel hrun =>
      rw [VectorOp.inserted_of_error hrun]
      exact (hdel.hasInserted hc hdelete hold).2 (hkeep hlen _ hdel.was)
  | updated hlen hdelete hdel hins hbuilt hrun =>
      unfold VectorOp.inserted
      dsimp only
      rw [hrun]
      exact hbuilt.hasInserted hdel.inv (hdel.hasInserted hc hdelete hold).1

/-- A run is one without the vectors. -/
theorem InsertRun.vectorRun (h : InsertRun distanceFn order Fits c₀ c last) :
    VectorRun distanceFn order Fits c₀ c := by
  induction h with
  | start => exact .start
  | step _ hlayer hfits hreturns ih => exact ih.step hlayer hfits hreturns

/-- **In a run where no node that is freed loses a vector that can still be read**, every node that
the entry point leads to has the vector that was inserted last for it. -/
theorem InsertRun.presents_inserted {options : VectorCollectionOptions} {cipher : Option Aes256Gcm}
    {nonces : ℕ → Nonce} (hcreate : VectorCollection.create options cipher nonces = .ok c₀)
    (hrun : InsertRun distanceFn order (fun c op => op.Fits c ∧ op.KeepsVector c) c₀ c last) :
    PresentsInserted c last := by
  have hc₀ := VectorCollection.create_inv hcreate
  refine (presentsInserted_iff ((hrun.vectorRun.mono fun _ _ => And.left).inv hc₀)).mpr ?_
  induction hrun with
  | start =>
      rintro n ⟨ep, hep, -⟩
      exact nomatch (VectorCollection.create_empty hcreate).1.symm.trans hep
  | step hrun hlayer hfits hreturns ih =>
      have hc := (hrun.vectorRun.mono fun _ _ => And.left).inv hc₀
      exact VectorOp.run_hasInserted hc hfits.2 (VectorOp.run_effect hc hlayer hfits.1 hreturns) ih

end

/-- Two vectors. -/
theorem InsertRun.presents_inserted_two : ∃ c last,
    (newVectors 16).after noDistance .inOrder [.insert 1 [5] 0, .insert 2 [7] 0] = some c ∧
      last 1 = some [7] ∧ PresentsInserted c last := by
  have hcreate : VectorCollection.create ⟨1, .euclidean, 16, 10⟩ none VectorWal.zeroNonces =
    .ok (newVectors 16) := rfl
  have heval : ((newVectors 16).after noDistance .inOrder
        [.insert 1 [5] 0, .insert 2 [7] 0]).isSome = true ∧
      ((newVectors 16).after noDistance .inOrder [.insert 1 [5] 0]).any (fun c =>
        c.vecfile.header.freeListHead = none ∧ c.vecfile.HasRoom 0 ∧
          VectorOp.inserted noDistance .inOrder c (.insert 2 [7] 0) = some (1, [7])) = true := by
    decide +kernel
  obtain ⟨hsome, hafter₁⟩ := heval
  obtain ⟨c₂, hafter₂⟩ := Option.isSome_iff_exists.mp hsome
  obtain ⟨c₁, hrun₁, hrest⟩ := VectorCollection.after_cons.mp hafter₂
  obtain ⟨c₂', hrun₂, hnil⟩ := VectorCollection.after_cons.mp hrest
  obtain rfl : c₂' = c₂ := Option.some.inj hnil
  rw [VectorCollection.after_cons.mpr ⟨c₁, hrun₁, rfl⟩, Option.any_some, decide_eq_true_eq] at hafter₁
  have hfits₁ : VectorOp.Fits (newVectors 16) (.insert 1 [5] 0) := fun _ _ =>
    .of_new rfl (by decide)
  obtain ⟨hhead, hroom, hinserted⟩ := hafter₁
  have hfits₂ : VectorOp.Fits c₁ (.insert 2 [7] 0) := fun _ _ => .of_new hhead hroom
  have hfirst : InsertRun noDistance .inOrder (fun c op => op.Fits c ∧ op.KeepsVector c)
      (newVectors 16) c₁ _ := .step .start (by decide) ⟨hfits₁, trivial⟩ (Or.inl ⟨_, hrun₁⟩)
  have hsecond := hfirst.step (by decide) ⟨hfits₂, trivial⟩ (Or.inl ⟨_, hrun₂⟩)
  refine ⟨c₂', _, hafter₂, ?_, InsertRun.presents_inserted hcreate hsecond⟩
  rw [hinserted]
  rfl

/-- The second node is freed, and the list of the first one still leads to it: its vector is the
end of the free list now. -/
theorem not_presents_inserted_always : ¬ ∀ (options : VectorCollectionOptions)
    (cipher : Option Aes256Gcm) (nonces : ℕ → Nonce) (c₀ c : VectorCollection)
    (last : ℕ → Option (List UInt32)), VectorCollection.create options cipher nonces = .ok c₀ →
      InsertRun noDistance .inOrder (fun _ _ => True) c₀ c last → PresentsInserted c last := by
  intro h
  have hcreate : VectorCollection.create ⟨1, .euclidean, 16, 10⟩ none VectorWal.zeroNonces =
    .ok (newVectors 16) := rfl
  have heval : ((newVectors 16).after noDistance .inOrder
        [.insert 1 [5] 0, .insert 2 [7] 0, .delete 2]).any (fun c =>
          c.vecfile.header.entryPoint = some 0 ∧ 0 < c.vecfile.header.nodeCount ∧
            1 ∈ c.vecfile.listOf 0 0 ∧ c.vecfile.readVector 1 = .ok [0xFFFFFFFF]) = true ∧
      ((newVectors 16).after noDistance .inOrder [.insert 1 [5] 0]).any (fun c =>
        VectorOp.inserted noDistance .inOrder c (.insert 2 [7] 0) = some (1, [7])) = true := by
    decide +kernel
  obtain ⟨hread, hinserted⟩ := heval
  obtain ⟨c₃, hafter₃, hread⟩ := (Option.any_eq_true _ _).mp hread
  obtain ⟨c₁, hrun₁, hrest⟩ := VectorCollection.after_cons.mp hafter₃
  obtain ⟨c₂, hrun₂, hrest⟩ := VectorCollection.after_cons.mp hrest
  obtain ⟨c₃', hrun₃, hnil⟩ := VectorCollection.after_cons.mp hrest
  obtain rfl : c₃' = c₃ := Option.some.inj hnil
  rw [VectorCollection.after_cons.mpr ⟨c₁, hrun₁, rfl⟩, Option.any_some, decide_eq_true_eq] at hinserted
  obtain ⟨hentry, hcount, hedge, hread⟩ := of_decide_eq_true hread
  have hfirst : InsertRun noDistance .inOrder (fun _ _ => True) (newVectors 16) c₁ _ :=
    .step .start (by decide) trivial (Or.inl ⟨_, hrun₁⟩)
  have hsecond := hfirst.step (by decide) trivial (Or.inl ⟨_, hrun₂⟩)
  have hthird := hsecond.step (by decide) trivial (Or.inl ⟨_, hrun₃⟩)
  have hled : c₃'.vecfile.Led 1 := ⟨0, hentry, .single ⟨0, ⟨hcount, Nat.zero_le _⟩, hedge⟩⟩
  obtain ⟨vector, hlast, hvector⟩ := h _ _ _ _ _ _ hcreate hthird 1 hled
  rw [hinserted] at hlast
  cases hlast
  rw [hread] at hvector
  exact absurd (Except.ok.inj hvector) (by decide)

end BoogyDb
