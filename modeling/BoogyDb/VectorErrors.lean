import BoogyDb.VectorCalls

/-!
# How vector operations fail

The algorithms on the graph fail only where a read fails (`Hnsw.insert_good`), and the reads
and writes of a file do not fail otherwise than by a panic.  So an operation that returns an
error has refused what it was given, and has left the collection alone: `wp_insert` and
`wp_delete` hold for every collection with sound dimensions, whatever its graph looks like.
-/

namespace BoogyDb

open Except

/-! ## The graph -/

namespace Hnsw

variable {ε : Type} {E : ε → Prop} {dist : List UInt32 → List UInt32 → UInt32}
  {storage : VectorStorage ε} {query : List UInt32} {order : HeapOrder}

/-- The errors that reads end with satisfy `E`. -/
structure ReadsGood (E : ε → Prop) (storage : VectorStorage ε) : Prop where
  vector : ∀ n, Good E (fun _ => True) (storage.vector n)
  neighbors : ∀ n layer, Good E (fun _ => True) (storage.neighbors n layer)
  isDeleted : ∀ n, Good E (fun _ => True) (storage.isDeleted n)
  stuck : E storage.stuck

section

variable (h : ReadsGood E storage)

include h

theorem distanceTo_good (id : ℕ) : Good E (fun _ => True) (distanceTo dist storage query id) := by
  unfold distanceTo
  exact (h.vector id).bind fun _ _ => trivial

theorem scanNeighbors_good (neighbors : List ℕ) (walk : ℕ × UInt32 × Bool) :
    Good E (fun _ => True) (scanNeighbors dist storage query neighbors walk) := by
  induction neighbors generalizing walk with
  | nil => trivial
  | cons n neighbors ih =>
      obtain ⟨current, currentDist, improved⟩ := walk
      unfold scanNeighbors
      refine (h.isDeleted n).bind fun deleted _ => good_ite (fun _ => ih _) fun _ => ?_
      refine (distanceTo_good h n).bind fun d _ => ?_
      exact good_ite (fun _ => ih _) fun _ => ih _

theorem walkLayer_good (layer fuel : ℕ) (walk : ℕ × UInt32) :
    Good E (fun _ => True) (walkLayer dist storage query layer fuel walk) := by
  induction fuel generalizing walk with
  | zero => exact h.stuck
  | succ fuel ih =>
      unfold walkLayer
      refine (h.neighbors _ _).bind fun neighbors _ => ?_
      refine (scanNeighbors_good h neighbors _).bind fun walk _ => ?_
      exact good_ite (fun _ => ih _) fun _ => trivial

theorem descendTo_good (entryPoint currentMaxLayer targetLayer : ℕ) : Good E (fun _ => True)
    (descendTo dist storage entryPoint query currentMaxLayer targetLayer) := by
  unfold descendTo
  refine good_ite (fun _ => ?_) fun _ => trivial
  unfold searchUpperLayers
  refine (distanceTo_good h entryPoint).bind fun d _ => ?_
  refine (good_foldlM (I := fun _ => True) _ trivial fun walk layer _ _ => ?_).bind
    fun _ _ => trivial
  exact walkLayer_good h layer loopFuel walk

/-! ### The beam -/

variable (isAllowed : ℕ → Bool) (ef layer : ℕ)

theorem enterBeam_good (eps : List ℕ) (beam : Beam) :
    Good E (fun _ => True) (enterBeam dist storage query isAllowed eps beam) := by
  induction eps generalizing beam with
  | nil => trivial
  | cons ep eps ih =>
      unfold enterBeam
      refine good_ite (fun _ => ih _) fun _ => ?_
      exact (distanceTo_good h ep).bind fun d _ => (h.isDeleted ep).bind fun _ _ => ih _

theorem expandBeam_good (neighbors : List ℕ) (beam : Beam) :
    Good E (fun _ => True) (expandBeam dist storage query ef isAllowed neighbors beam) := by
  induction neighbors generalizing beam with
  | nil => trivial
  | cons n neighbors ih =>
      unfold expandBeam
      refine good_ite (fun _ => ih _) fun _ => (distanceTo_good h n).bind fun d _ => ?_
      dsimp only
      refine good_ite (fun _ => ?_) fun _ => ih _
      exact (h.isDeleted n).bind fun _ _ => ih _

theorem runBeam_good (fuel : ℕ) (beam : Beam) :
    Good E (fun _ => True) (runBeam dist storage query ef layer isAllowed fuel beam) := by
  induction fuel generalizing beam with
  | zero => exact h.stuck
  | succ fuel ih =>
      unfold runBeam
      split
      · trivial
      · dsimp only
        refine good_ite (fun _ => trivial) fun _ => (h.neighbors _ _).bind fun neighbors _ => ?_
        exact (expandBeam_good h isAllowed ef neighbors _).bind fun _ _ => ih _

theorem searchLayer_good (eps : List ℕ) :
    Good E (fun _ => True) (searchLayer dist storage order eps query ef layer isAllowed) := by
  unfold searchLayer
  refine (enterBeam_good h isAllowed eps _).bind fun beam _ => ?_
  exact (runBeam_good h isAllowed ef layer _ beam).bind fun _ _ => trivial

/-! ### Selecting neighbors -/

theorem selectDiverse_good {m : ℕ} (sorted : List (ℕ × UInt32)) {selected : List ℕ}
    (hlen : selected.length ≤ m) :
    Good E (fun out => out.length ≤ m) (selectDiverse dist storage m sorted selected) := by
  induction sorted generalizing selected with
  | nil => exact hlen
  | cons c sorted ih =>
      obtain ⟨candId, candDist⟩ := c
      unfold selectDiverse
      refine good_ite (fun _ => hlen) fun hfull => (h.vector candId).bind fun candVec _ => ?_
      have hdominated : ∀ x ∈ selected, Good E (fun _ => True) (do
          let selVec ← storage.vector x
          pure (Binary32.lt (dist candVec selVec) candDist)) := fun x _ =>
        (h.vector x).bind fun _ _ => trivial
      refine (good_anyM selected hdominated).bind fun dominated _ => ?_
      refine good_ite (fun _ => ih hlen) fun _ => ih ?_
      rw [List.length_append, List.length_singleton]
      omega

theorem selectNeighbors_good (candidates : List (ℕ × UInt32)) (m : ℕ) :
    Good E (fun out => out.length ≤ m) (selectNeighbors dist storage candidates m) := by
  unfold selectNeighbors
  refine (selectDiverse_good h _ (Nat.zero_le m)).bind fun selected hlen => ?_
  exact (fillClosest_selects m (sortByDistance candidates) selected).length_le hlen

theorem scoreLive_good (neighbors : List ℕ) :
    Good E (fun _ => True) (scoreLive dist storage query neighbors) := by
  induction neighbors with
  | nil => trivial
  | cons n neighbors ih =>
      unfold scoreLive
      refine (h.isDeleted n).bind fun _ _ => good_ite (fun _ => ih) fun _ => ?_
      exact (distanceTo_good h n).bind fun d _ => ih.bind fun _ _ => trivial

theorem pruneNeighbors_good (nodeId : ℕ) (neighbors : List ℕ) (m : ℕ) :
    Good E (fun out => out.length ≤ m) (pruneNeighbors dist storage nodeId neighbors m) := by
  unfold pruneNeighbors
  refine (h.vector nodeId).bind fun nodeVec _ => ?_
  exact (scoreLive_good h neighbors).bind fun scored _ => selectNeighbors_good h scored m

/-! ### Insertion -/

theorem linkBack_good (nodeId maxNeighbors neighbor : ℕ) :
    Good E (fun c : Connection => c.2.2.length ≤ maxNeighbors)
      (linkBack dist storage nodeId layer maxNeighbors neighbor) := by
  unfold linkBack
  refine (h.neighbors neighbor layer).bind fun neighborList _ => ?_
  dsimp only
  refine good_ite (fun _ => ?_) fun hle => Nat.le_of_not_lt hle
  exact (pruneNeighbors_good h neighbor _ maxNeighbors).bind fun pruned hlen => hlen

/-- The lists that an insertion brings about are short. -/
def Short (m : ℕ) (connections : List Connection) : Prop :=
  ∀ c ∈ connections, c.2.2.length ≤ 2 * m

theorem insertLayer_good {m : ℕ} (nodeId : ℕ) (state : List Connection × ℕ)
    (hshort : Short m state.1) : Good E (fun state' => Short m state'.1)
      (insertLayer dist storage order nodeId query m ef state layer) := by
  unfold insertLayer
  dsimp only
  refine (searchLayer_good h _ ef layer _).bind fun candidates _ => ?_
  have hmax : (if layer = 0 then 2 * m else m) ≤ 2 * m := by split <;> omega
  refine (selectNeighbors_good h candidates _).bind fun selected hselected => ?_
  refine (good_mapM selected fun n _ => linkBack_good h layer nodeId _ n).bind fun links hlinks => ?_
  intro c hc
  rcases List.mem_append.mp hc with hc | hc
  · exact hshort c hc
  · rcases List.mem_cons.mp hc with rfl | hc
    · exact hselected.trans ((min_le_left _ _).trans hmax)
    · exact (hlinks c hc).trans hmax

/-- **The computation of an insertion fails only where a read fails.** -/
theorem insert_good (nodeId level : ℕ) (entryPoint : Option ℕ) (currentMaxLayer m : ℕ) :
    Good E (fun r => Short m r.connections)
      (insert dist storage order nodeId level entryPoint currentMaxLayer m ef) := by
  unfold insert
  cases entryPoint with
  | none =>
      intro c hc
      obtain ⟨l, -, rfl⟩ := List.mem_map.mp hc
      exact Nat.zero_le _
  | some ep =>
      refine (h.vector nodeId).bind fun query _ => ?_
      refine (descendTo_good h ep currentMaxLayer level).bind fun currentEp _ => ?_
      dsimp only
      have hnone : Short m [] := nofun
      refine (good_foldlM (I := fun state => Short m state.1) _ hnone fun state l _ hstate =>
        insertLayer_good h ef l nodeId state hstate).bind fun state hstate => ?_
      exact good_ite (fun _ => hstate) fun _ => hstate

end

end Hnsw

end BoogyDb
