import BoogyDb.VectorLayers
import BoogyDb.VectorNodes

/-!
# Updates, and the maps over a run

Every call that returns keeps the maps, whatever has become of the graph (`VectorRun.maps`).

An update is a deletion and then an insertion.  The insertion can only be refused for the length
of its vector, since the row id was just taken out; but then the deletion has been flushed
already.  A deletion of a row that is there only panics when the node is the entry point and the
search for a new one reads beyond the file (`delete_returns_iff`).  So an update that returns
an error has changed nothing exactly when the length was right, or the row was not there, or its
deletion panics (`VectorRun.update_atomic_iff`).
-/

namespace BoogyDb

open Bytes Memory Except VecFile Wp

variable {distanceFn : DistanceMetric → List UInt32 → List UInt32 → UInt32} {order : HeapOrder}
  {Fits : VectorCollection → VectorOp → Prop} {c₀ c c' : VectorCollection} {op : VectorOp}
  {rowid : UInt64} {vector : List UInt32} {layer : ℕ}

/-! ## The maps -/

theorem CollectionInv.maps (h : CollectionInv c) : MapsInv c := by
  obtain ⟨free, hfree⟩ := h.graph.free
  have hshape := h.graph.layout.shape
  refine ⟨⟨⟨hshape.dims_pos, h.dims_le, hshape.m_le, hshape.cap_pos, hshape.cap_lt, hshape.count_le,
    hshape.size⟩, ⟨free, hfree.chain, hfree.nodup, fun n hn => ?_⟩,
    fun n hn => ((h.mapped n).mp hn).1, fun free' hfree' => ?_⟩, h.inverse⟩
  on_goal 2 => rw [hfree.chain.unique hfree', hfree.length]
  obtain ⟨hlt, hdel⟩ := (hfree.mem n).mp hn
  refine ⟨hlt, fun hmapped => ?_⟩
  rw [((h.mapped n).mp hmapped).2] at hdel
  exact nomatch hdel

/-- An insertion that returns keeps the maps. -/
theorem VectorCollection.insert_maps (hc : MapsInv c)
    (hreturns : ReturnsTo (VectorCollection.insert Access.code distanceFn order rowid vector layer)
      c c') : MapsInv c' := by
  rcases hreturns.spec (VectorCollection.wp_insert hc) with
    ⟨v, -, -, hmaps, -⟩ | ⟨e, -, hrefused⟩
  · exact hmaps
  · obtain ⟨-, rfl⟩ := hrefused e rfl
    exact hc

/-- **A call that returns keeps the maps.** -/
theorem VectorOp.run_maps (hc : MapsInv c)
    (hreturns : ReturnsTo (op.run Access.code distanceFn order) c c') : MapsInv c' := by
  cases op with
  | insert rowid vector layer => exact VectorCollection.insert_maps hc hreturns.of_discard
  | delete rowid =>
      rcases hreturns.spec (VectorCollection.wp_delete hc) with ⟨-, -, -, hmaps, -⟩ | ⟨e, -, hrefused⟩
      · exact hmaps
      · obtain ⟨-, rfl⟩ := hrefused e rfl
        exact hc
  | update rowid vector layer =>
      rcases hreturns.of_discard.of_bind with ⟨e, herr⟩ | ⟨_, c₁, hok, hinsert⟩
      · obtain ⟨-, rfl⟩ := (VectorCollection.wp_delete hc).error herr e rfl
        exact hc
      · obtain ⟨-, hmaps₁, -⟩ := (VectorCollection.wp_delete hc).ok hok
        exact VectorCollection.insert_maps hmaps₁ hinsert

/-- **The maps are kept in every run.** -/
theorem VectorRun.maps (h : VectorRun distanceFn order Fits c₀ c) (hc₀ : MapsInv c₀) :
    MapsInv c := by
  induction h with
  | start => exact hc₀
  | step _ _ _ hreturns ih => exact VectorOp.run_maps ih hreturns

/-! ## Deletions that return -/

namespace VecFile

variable {f : VecFile} {v n : ℕ} {used : ℕ → Prop}

/-- Where a new entry point can be looked for when the node is freed: if it is the entry point,
its list on layer 0 can be read, and the nodes on it have a flag, up to the first that is not
deleted. -/
def EntryReadable (f : VecFile) (v : ℕ) : Prop :=
  f.header.entryPoint = some v → ∃ neighbors, f.readNeighbors v 0 = .ok neighbors ∧
    ∀ before n behind, neighbors = before ++ n :: behind → (∀ n' ∈ before, f.deletedOf n' = true) →
      n < f.header.nodeCapacity

/-- The flag of a node can be read when there is room for the node. -/
theorem Sized.isDeleted_eq (hf : Sized f) (n : ℕ) : f.isDeleted n =
    if n < f.header.nodeCapacity then .ok (f.deletedOf n) else panic := by
  unfold isDeleted
  rw [deletedFlagOffset_eq, hf.size]
  refine if_congr ⟨fun h => ?_, fun h => ?_⟩ rfl rfl
  · exact Nat.lt_of_add_lt_add_left h
  · exact Nat.add_lt_add_left h _

/-- The search for a live node ends there, or at the first node that has no flag. -/
theorem firstLive_returns_iff (hf : Sized f) (neighbors : List ℕ) :
    (∃ ep, VectorCollection.firstLive f neighbors = .ok ep) ↔
      ∀ before n behind, neighbors = before ++ n :: behind →
        (∀ n' ∈ before, f.deletedOf n' = true) → n < f.header.nodeCapacity := by
  induction neighbors with
  | nil => exact ⟨fun _ before n behind h => absurd h (by simp), fun _ => ⟨none, rfl⟩⟩
  | cons n neighbors ih =>
      unfold VectorCollection.firstLive
      rw [hf.isDeleted_eq]
      by_cases hlt : n < f.header.nodeCapacity
      · rw [if_pos hlt, ok_bind]
        cases hdeleted : f.deletedOf n with
        | false =>
            refine ⟨fun _ before x behind h hbefore => ?_, fun _ => ⟨some n, rfl⟩⟩
            cases before with
            | nil => exact (List.cons.inj h).1 ▸ hlt
            | cons y before =>
                have hy := hbefore y List.mem_cons_self
                rw [← (List.cons.inj h).1, hdeleted] at hy
                exact absurd hy Bool.false_ne_true
        | true =>
            rw [if_pos rfl, ih]
            constructor
            · intro hrest before x behind h hbefore
              cases before with
              | nil => exact (List.cons.inj h).1 ▸ hlt
              | cons y before =>
                  exact hrest before x behind (List.cons.inj h).2 fun n' hn' =>
                    hbefore n' (List.mem_cons_of_mem y hn')
            · intro hall before x behind h hbefore
              refine hall (n :: before) x behind (by rw [h]; rfl) ?_
              rw [List.forall_mem_cons]
              exact ⟨hdeleted, hbefore⟩
      · rw [if_neg hlt]
        refine ⟨fun h => ?_, fun h => absurd (h [] n neighbors rfl fun _ hmem => ?_) hlt⟩
        · obtain ⟨_, h⟩ := h
          cases h
        · cases hmem

/-- **A new entry point is found**, or there is none to look for. -/
theorem entryAfterDelete_returns_iff (hf : Sized f) (v : ℕ) :
    (∃ ep, VectorCollection.entryAfterDelete Access.code f v = .ok ep) ↔ f.EntryReadable v := by
  unfold VectorCollection.entryAfterDelete EntryReadable
  by_cases hentry : f.header.entryPoint = some v
  · rw [if_pos hentry]
    simp only [VectorCollection.code_run]
    change (∃ ep, (f.readNeighbors v 0 >>= fun neighbors =>
      VectorCollection.firstLive f neighbors) = .ok ep) ↔ _
    constructor
    · rintro ⟨ep, hep⟩ -
      obtain ⟨neighbors, hread, hlive⟩ := bind_eq_ok.mp hep
      exact ⟨neighbors, hread, (firstLive_returns_iff hf neighbors).mp ⟨ep, hlive⟩⟩
    · intro hreadable
      obtain ⟨neighbors, hread, hflags⟩ := hreadable hentry
      rw [hread, ok_bind]
      exact (firstLive_returns_iff hf neighbors).mpr hflags
  · rw [if_neg hentry]
    exact ⟨fun _ heq => absurd heq hentry, fun _ => ⟨_, rfl⟩⟩

/-- There is room for the header. -/
theorem Sized.flush_runs (hf : Sized f) : ∃ f', f.flush = .ok f' := by
  have hindex := Shape.index_le_graph f
  have hgraph := Shape.graph_le_flags f
  have hheader : vecHeaderSize ≤ f.indexStart := Nat.le_add_right _ _
  have hrange : offDimensions + f.headerBytes.length ≤ vecHeaderSize := by
    rw [length_headerBytes]
    decide
  obtain ⟨hrun, -⟩ := @store_ok f offDimensions f.headerBytes (by rw [hf.size]; omega)
  exact ⟨_, hrun⟩

/-- **A node in use can be freed**: there are fewer freed nodes than nodes. -/
theorem NodesInv.freeNode_runs (hf : NodesInv f used) (hv : used v) :
    ∃ f', f.freeNode v = .ok f' := by
  have hsized := hf.sized
  obtain ⟨free, hchain, hnodup, hfree⟩ := hf.free
  have hlt := hf.counted v hv
  have hcap := hlt.trans_le hsized.count_le
  have hslot := slot_le hcap
  have hindex := Shape.index_le_graph f
  have hgraph := Shape.graph_le_flags f
  have hdims := hsized.dims_pos
  have hlen : f.header.freeListLen + 1 < 2 ^ 32 := by
    have hnew : v ∉ free := fun hmem => (hfree v hmem).2 hv
    have hsub : v :: free ⊆ List.range f.header.nodeCount := by
      refine List.cons_subset.mpr ⟨List.mem_range.mpr hlt, fun n hn => ?_⟩
      exact List.mem_range.mpr (hfree n hn).1
    have hle := ((List.nodup_cons.mpr ⟨hnew, hnodup⟩).subperm hsub).length_le
    rw [List.length_range, List.length_cons] at hle
    have hcount := hsized.count_le
    have hcapLt := hsized.cap_lt
    rw [hf.len free hchain]
    omega
  have hrange : f.slotOffset v + (leBytes 4 (f.header.freeListHead.getD noneU32)).length ≤
      f.mem.size := by
    rw [length_leBytes, hsized.size]
    omega
  obtain ⟨hrun, hw⟩ := store_ok hrange
  set f₁ : VecFile := { f with
    mem := f.mem.write (f.slotOffset v) (leBytes 4 (f.header.freeListHead.getD noneU32)) } with hf₁
  have hflag : f₁.deletedFlagOffset v + [(1 : UInt8)].length ≤ f₁.mem.size := by
    rw [hw.size, hsized.size, deletedFlagOffset_eq, List.length_singleton]
    change f.flagsStart + v + 1 ≤ _
    omega
  obtain ⟨hrun₂, -⟩ := store_ok hflag
  refine ⟨{ f₁ with
    mem := f₁.mem.write (f₁.deletedFlagOffset v) [1]
    header.freeListHead := some v
    header.freeListLen := f.header.freeListLen + 1 }, ?_⟩
  unfold freeNode setDeleted
  dsimp only
  rw [hrun, ok_bind, if_pos rfl, hrun₂, ok_bind]
  dsimp only
  rw [if_neg (Nat.not_le.mpr hlen)]
  rfl

end VecFile

/-- **A deletion of a row that is there returns exactly when a new entry point can be looked
for.** -/
theorem VectorCollection.delete_returns_iff (hc : MapsInv c) {v : ℕ}
    (hlookup : c.rowidToNode.lookup rowid = some v) :
    (∃ c₁, VectorCollection.delete Access.code rowid c = .ok () c₁) ↔ c.vecfile.EntryReadable v := by
  rw [← entryAfterDelete_returns_iff hc.nodes.sized]
  have hnode := (hc.inverse rowid v).mp hlookup
  set c₀ : VectorCollection := { c with
    rowidToNode := c.rowidToNode.erase rowid
    nodeToRowid := c.nodeToRowid.erase v } with hc₀
  have hstart : VectorCollection.delete Access.code rowid c =
      ((ofExcept (VectorCollection.entryAfterDelete Access.code c.vecfile v) : EStateM _ _ _) >>=
        fun newEp => do
          VectorCollection.appendCommitted Access.code [.deleteNode (UInt32.ofNat v),
            .updateHeader (UInt32.ofNat (newEp.getD noneU32))
              (UInt32.ofNat c.vecfile.header.nodeCount) (UInt32.ofNat c.vecfile.header.maxLayer)]
          let f ← ofExcept (Access.code.run (c.vecfile.freeNode v))
          let f : VecFile := { f with header.entryPoint := newEp }
          let f ← ofExcept (Access.code.run f.flush)
          modify fun c => { c with vecfile := f, wal := c.wal.truncate }) c₀ := by
    unfold VectorCollection.delete
    rw [run_bind_ok (rfl : (get : EStateM Fault VectorCollection VectorCollection) c = .ok c c),
      hlookup]
    dsimp only
    rw [run_set_bind]
  rw [hstart]
  cases hentry : VectorCollection.entryAfterDelete Access.code c.vecfile v with
  | error e =>
      refine ⟨fun ⟨c₁, h⟩ => ?_, fun ⟨ep, h⟩ => (nomatch h)⟩
      rw [run_bind_error (rfl : ofExcept (.error e) c₀ = .error e c₀)] at h
      exact nomatch h
  | ok newEp =>
      refine ⟨fun _ => ⟨newEp, rfl⟩, fun _ => ?_⟩
      obtain ⟨wal, hlog⟩ := @VectorCollection.appendCommitted_ok _ Access.code
        [.deleteNode (UInt32.ofNat v), .updateHeader (UInt32.ofNat (newEp.getD noneU32))
          (UInt32.ofNat c.vecfile.header.nodeCount) (UInt32.ofNat c.vecfile.header.maxLayer)]
        (fun entry hentry => by
          rcases List.mem_pair.mp hentry with rfl | rfl <;> exact Nat.zero_le _) c₀
      obtain ⟨f₁, hfree⟩ := hc.nodes.freeNode_runs ⟨rowid, hnode⟩
      have hsized₁ := ((freeNode_good hc.nodes ⟨rowid, hnode⟩).ok hfree).1.sized
      have hsized₂ : Sized { f₁ with header.entryPoint := newEp } :=
        ⟨hsized₁.dims_pos, hsized₁.dims_le, hsized₁.m_le, hsized₁.cap_pos, hsized₁.cap_lt,
          hsized₁.count_le, hsized₁.size⟩
      obtain ⟨f₂, hflush⟩ := hsized₂.flush_runs
      refine ⟨{ c₀ with vecfile := f₂, wal := wal.truncate }, ?_⟩
      rw [run_bind_ok (run_ofExcept rfl _), run_bind_ok hlog,
        run_bind_ok (run_ofExcept (run_code hfree) _)]
      dsimp only
      rw [run_bind_ok (run_ofExcept (run_code hflush) _)]
      rfl

/-! ## Updates -/

/-- The collections are the same, as far as can be told from them. -/
structure SameContents (c c' : VectorCollection) : Prop where
  rowids : ∀ rowid, c'.rowidToNode.lookup rowid = c.rowidToNode.lookup rowid
  nodes : ∀ n, c'.nodeToRowid.lookup n = c.nodeToRowid.lookup n
  vectors : ∀ n, c'.vecfile.readVector n = c.vecfile.readVector n
  deleted : ∀ n, c'.vecfile.isDeleted n = c.vecfile.isDeleted n
  neighbors : ∀ n layer, c'.vecfile.readNeighbors n layer = c.vecfile.readNeighbors n layer
  header : c'.vecfile.header = c.vecfile.header
  free : ∀ free, Chain c'.vecfile c'.vecfile.header.freeListHead free ↔
    Chain c.vecfile c.vecfile.header.freeListHead free

theorem SameContents.refl (c : VectorCollection) : SameContents c c :=
  ⟨fun _ => rfl, fun _ => rfl, fun _ => rfl, fun _ => rfl, fun _ _ => rfl, rfl, fun _ => Iff.rfl⟩

section

variable (distanceFn : DistanceMetric → List UInt32 → List UInt32 → UInt32) (order : HeapOrder)

/-- An update that returns an error leaves the collection as it was. -/
def UpdateAtomic (c : VectorCollection) (rowid : UInt64) (vector : List UInt32) : Prop :=
  ∀ layer error c', VectorCollection.update Access.code distanceFn order rowid vector layer c =
    .error (.error error) c' → SameContents c c'

end

/-- **An update is atomic exactly when its vector has the right length**, or there is no error to
return: the row id is not there, or the search for a new entry point panics. -/
theorem VectorRun.update_atomic_iff {options : VectorCollectionOptions}
    {cipher : Option Aes256Gcm} {nonces : ℕ → Nonce}
    (hcreate : VectorCollection.create options cipher nonces = .ok c₀)
    (hrun : VectorRun distanceFn order (fun _ _ => True) c₀ c) (rowid : UInt64)
    (vector : List UInt32) :
    UpdateAtomic distanceFn order c rowid vector ↔
      ∀ v, c.rowidToNode.lookup rowid = some v → c.vecfile.EntryReadable v →
        vector.length = c.vecfile.header.dimensions := by
  have hc := hrun.maps (VectorCollection.create_inv hcreate).maps
  constructor
  · intro hatomic v hlookup hreadable
    obtain ⟨c₁, hdelete⟩ := (VectorCollection.delete_returns_iff hc hlookup).mpr hreadable
    by_contra hlen
    obtain ⟨-, -, hrowids, hdims, -⟩ := (VectorCollection.wp_delete hc).ok hdelete
    have hinsert : VectorCollection.insert Access.code distanceFn order rowid vector 0 c₁ =
        .error (.error (.vectorDimensionMismatch c₁.vecfile.header.dimensions vector.length)) c₁ :=
      VectorCollection.insert_wrongLength (by rwa [hdims])
    have hupdate : VectorCollection.update Access.code distanceFn order rowid vector 0 c =
        .error (.error (.vectorDimensionMismatch c₁.vecfile.header.dimensions vector.length)) c₁ :=
      (run_bind_ok hdelete).trans hinsert
    -- the row id is gone
    have hsame := (hatomic 0 _ c₁ hupdate).rowids rowid
    rw [hrowids, AList.lookup_erase] at hsame
    rw [hlookup] at hsame
    cases hsame
  · intro hfits layer error c' hupdate
    rcases ReturnsTo.of_bind (Or.inr ⟨error, hupdate⟩) with ⟨e, herr⟩ | ⟨_, c₁, hdelete, hinsert⟩
    · obtain ⟨-, rfl⟩ := (VectorCollection.wp_delete hc).error herr e rfl
      exact .refl c'
    · obtain ⟨hmem, hmaps₁, hrowids, hdims, -⟩ := (VectorCollection.wp_delete hc).ok hdelete
      have hrefused : VectorCollection.insert Access.code distanceFn order rowid vector layer c₁ =
          .error (.error error) c' := (run_bind_ok hdelete).symm.trans hupdate
      obtain ⟨hno, -⟩ := (VectorCollection.wp_insert hmaps₁).error hrefused error rfl
      obtain ⟨v, hlookup⟩ := Option.isSome_iff_exists.mp (AList.lookup_isSome.mpr hmem)
      have hreadable := (VectorCollection.delete_returns_iff hc hlookup).mp ⟨c₁, hdelete⟩
      refine absurd ⟨(hfits v hlookup hreadable).trans hdims.symm, ?_⟩ hno
      rw [hrowids]
      exact AList.lookup_eq_none.mp (AList.lookup_erase _ _)

/-- After two insertions, the row of the entry point can be updated with a vector of the right
length, and not with one that is too short. -/
theorem VectorRun.update_atomic_iff_two : ∃ c,
    (newVectors 16).after noDistance .inOrder [.insert 1 [5] 0, .insert 2 [7] 0] = some c ∧
      UpdateAtomic noDistance .inOrder c 1 [0] ∧ ¬ UpdateAtomic noDistance .inOrder c 1 [] := by
  have hcreate : VectorCollection.create ⟨1, .euclidean, 16, 10⟩ none VectorWal.zeroNonces =
    .ok (newVectors 16) := rfl
  have heval : ((newVectors 16).after noDistance .inOrder
      [.insert 1 [5] 0, .insert 2 [7] 0]).any (fun c =>
        c.rowidToNode.lookup 1 = some 0 ∧ c.vecfile.readNeighbors 0 0 = .ok [1] ∧
          c.vecfile.header.nodeCapacity = 1024 ∧ c.vecfile.header.dimensions = 1) = true := by
    decide +kernel
  obtain ⟨c, hafter, hstate⟩ := (Option.any_eq_true _ _).mp heval
  obtain ⟨hlookup, hread, hcap, hdims⟩ := of_decide_eq_true hstate
  have hrun := VectorRun.of_after VectorRun.start (by decide) hafter
  have hreadable : c.vecfile.EntryReadable 0 := by
    refine fun _ => ⟨[1], hread, fun before n behind hlist _ => ?_⟩
    have hn : n ∈ [1] := by
      rw [hlist]
      exact List.mem_append_right _ List.mem_cons_self
    rw [List.mem_singleton.mp hn, hcap]
    decide
  refine ⟨c, hafter, ?_, fun hatomic => ?_⟩
  · exact (VectorRun.update_atomic_iff hcreate hrun 1 [0]).mpr fun _ _ _ => hdims.symm
  · have hlen := (VectorRun.update_atomic_iff hcreate hrun 1 []).mp hatomic 0 hlookup hreadable
    rw [hdims] at hlen
    exact nomatch hlen

/-- The call fails, and a row that the collection had is gone. -/
def losesRow {α : Type} (call : EStateM Fault VectorCollection α) (rowid : UInt64)
    (c : VectorCollection) : Bool :=
  match call c with
  | .error (.error _) c' =>
      (c.rowidToNode.lookup rowid).isSome && (c'.rowidToNode.lookup rowid).isNone
  | _ => false

/-- The vector of the update is too short: the old one is gone. -/
theorem not_update_atomic_always : ¬ ∀ (options : VectorCollectionOptions)
    (cipher : Option Aes256Gcm) (nonces : ℕ → Nonce) (c₀ c : VectorCollection) (rowid : UInt64)
    (vector : List UInt32), VectorCollection.create options cipher nonces = .ok c₀ →
      VectorRun noDistance .inOrder (fun _ _ => True) c₀ c →
        UpdateAtomic noDistance .inOrder c rowid vector := by
  intro h
  have heval : ((newVectors 16).after noDistance .inOrder [.insert 1 [0] 0]).any
      (losesRow (VectorCollection.update Access.code noDistance .inOrder 1 [] 0) 1) = true := by
    decide +kernel
  cases hafter : (newVectors 16).after noDistance .inOrder [.insert 1 [0] 0] with
  | none =>
      rw [hafter] at heval
      cases heval
  | some c =>
      rw [hafter, Option.any_some, losesRow] at heval
      have hrun := VectorRun.of_after VectorRun.start (by decide) hafter
      have hatomic := h ⟨1, .euclidean, 16, 10⟩ none VectorWal.zeroNonces _ c 1 [] rfl hrun
      cases hupdate : VectorCollection.update Access.code noDistance .inOrder 1 [] 0 c with
      | ok v c' =>
          rw [hupdate] at heval
          cases heval
      | error e c' =>
          rw [hupdate] at heval
          cases e with
          | error error =>
              have hsame := (hatomic 0 error c' hupdate).rowids 1
              dsimp only at heval
              rw [hsame] at heval
              cases hlookup : c.rowidToNode.lookup 1 with
              | none =>
                  rw [hlookup] at heval
                  cases heval
              | some v =>
                  rw [hlookup] at heval
                  cases heval
          | panic => cases heval
          | overflow => cases heval
          | unspecified => cases heval

end BoogyDb
