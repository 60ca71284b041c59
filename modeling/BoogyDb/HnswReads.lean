import BoogyDb.VectorErrors

/-!
# Where the searches of an insertion stay

The algorithms on a graph only go where the lists lead.  `StaysIn` says that a set of nodes on
each layer is closed under reading: what a list of a node names is in it, and what is in it on
a layer is in it on the layers below.  A search that starts in such a set stays in it, whatever
the graph looks like (`searchLayer_stays`), and what it returns was read as not deleted.

So an insertion writes lists of the new node, and of nodes that were read as not deleted, on
layers of the new node (`insert_writes`).
-/

namespace BoogyDb

open Except

namespace Hnsw

variable {ε : Type} {E : ε → Prop} {dist : List UInt32 → List UInt32 → UInt32}
  {storage : VectorStorage ε} {query : List UInt32} {order : HeapOrder} {R : ℕ → ℕ → Prop}
  {layer n : ℕ}

/-- `R layer n`: the set is closed under reading lists and under going down. -/
structure StaysIn (storage : VectorStorage ε) (R : ℕ → ℕ → Prop) : Prop where
  neighbors : ∀ layer n list, R layer n → storage.neighbors n layer = .ok list →
    ∀ x ∈ list, R layer x
  below : ∀ layer n, R (layer + 1) n → R layer n

theorem StaysIn.mono (hR : StaysIn storage R) {layer' : ℕ} (h : R layer n) (hle : layer' ≤ layer) :
    R layer' n := by
  induction layer with
  | zero => rwa [Nat.le_zero.mp hle]
  | succ layer ih =>
      rcases Nat.le_succ_iff.mp hle with hle | rfl
      · exact ih (hR.below layer n h) hle
      · exact h

/-- Every set of nodes that is not restricted. -/
theorem StaysIn.everywhere : StaysIn storage fun _ _ => True :=
  ⟨fun _ _ _ _ _ _ _ => trivial, fun _ _ _ => trivial⟩

/-- A node that a search on the layer may return. -/
def Returned (storage : VectorStorage ε) (R : ℕ → ℕ → Prop) (layer n : ℕ) : Prop :=
  R layer n ∧ storage.isDeleted n = .ok false

section

variable (h : ReadsGood E storage) (hR : StaysIn storage R)

include h

/-! ## The upper layers -/

theorem scanNeighbors_stays {neighbors : List ℕ} (hin : ∀ x ∈ neighbors, R layer x)
    {walk : ℕ × UInt32 × Bool} (hwalk : R layer walk.1) :
    Good E (fun walk' => R layer walk'.1) (scanNeighbors dist storage query neighbors walk) := by
  induction neighbors generalizing walk with
  | nil => exact hwalk
  | cons x neighbors ih =>
      rw [List.forall_mem_cons] at hin
      obtain ⟨hx, hin⟩ := hin
      obtain ⟨current, currentDist, improved⟩ := walk
      unfold scanNeighbors
      refine (h.isDeleted x).bind fun deleted _ => good_ite (fun _ => ih hin hwalk) fun _ => ?_
      refine (distanceTo_good h x).bind fun d _ => ?_
      exact good_ite (fun _ => ih hin hx) fun _ => ih hin hwalk

include hR

theorem walkLayer_stays (fuel : ℕ) {walk : ℕ × UInt32} (hwalk : R layer walk.1) :
    Good E (fun walk' => R layer walk'.1) (walkLayer dist storage query layer fuel walk) := by
  induction fuel generalizing walk with
  | zero => exact h.stuck
  | succ fuel ih =>
      unfold walkLayer
      refine (h.neighbors _ _).with_eq.bind fun neighbors hread => ?_
      have hin := hR.neighbors layer walk.1 neighbors hwalk hread.2
      refine (scanNeighbors_stays h hin hwalk).bind fun walk' hwalk' => ?_
      exact good_ite (fun _ => ih hwalk') fun _ => hwalk'

/-- **The descent stays in the set.** -/
theorem descendTo_stays {entryPoint top target : ℕ} (hentry : R top entryPoint) :
    Good E (fun n => R (min target top) n)
      (descendTo dist storage entryPoint query top target) := by
  -- the layers that are left, from the top down
  have hdescend : ∀ (k : ℕ) (walk : ℕ × UInt32), R (target + k) walk.1 →
      Good E (fun walk' => R target walk'.1) ((List.range' (target + 1) k).reverse.foldlM
        (fun walk layer => walkLayer dist storage query layer loopFuel walk) walk) := by
    intro k
    induction k with
    | zero => exact fun walk hwalk => hwalk
    | succ k ih =>
        intro walk hwalk
        have hlayer : target + 1 + k = target + (k + 1) := by omega
        rw [List.range'_1_concat, List.reverse_append, List.reverse_singleton,
          List.singleton_append, List.foldlM_cons, hlayer]
        refine (walkLayer_stays h hR loopFuel hwalk).bind fun walk' hwalk' => ih walk' ?_
        exact hR.below (target + k) walk'.1 hwalk'
  unfold descendTo
  refine good_ite (fun hlt => ?_) fun hle => ?_
  · have htop : R (target + (top - target)) entryPoint := hR.mono hentry (by omega)
    unfold searchUpperLayers
    refine (distanceTo_good h entryPoint).bind fun d _ => ?_
    refine (hdescend (top - target) (entryPoint, d) htop).bind fun walk hwalk => ?_
    rw [min_eq_left hlt.le]
    exact hwalk
  · rw [min_eq_right (Nat.le_of_not_lt hle)]
    exact hentry

/-! ## The beam -/

omit h hR in
/-- What a beam holds. -/
structure BeamIn (storage : VectorStorage ε) (R : ℕ → ℕ → Prop) (layer : ℕ) (beam : Beam) :
    Prop where
  candidates : ∀ c ∈ beam.candidates, R layer c.nodeId
  results : ∀ r ∈ beam.results, Returned storage R layer r.nodeId

omit h hR in
/-- A node that was read is put into the beam; it is a result when it is not deleted. -/
theorem BeamIn.push {beam : Beam} {visited : List ℕ} {d : UInt32} {deleted allowed : Bool}
    {kept : List Candidate} (hbeam : BeamIn storage R layer beam) (hn : R layer n)
    (hread : storage.isDeleted n = .ok deleted)
    (hkept : ∀ r ∈ kept, r = ⟨d, n⟩ ∨ r ∈ beam.results) :
    BeamIn storage R layer
      { visited
        candidates := ⟨d, n⟩ :: beam.candidates
        results := if !deleted && allowed then kept else beam.results } := by
  refine ⟨List.forall_mem_cons.mpr ⟨hn, hbeam.candidates⟩, fun r hr => ?_⟩
  dsimp only at hr
  split at hr
  · rename_i hresult
    have hlive : deleted = false := by
      cases deleted with
      | false => rfl
      | true => cases hresult
    rcases hkept r hr with rfl | hold
    · exact ⟨hn, hlive ▸ hread⟩
    · exact hbeam.results r hold
  · exact hbeam.results r hr

omit h hR in
theorem mem_of_mem_evict {ef : ℕ} {results : List Candidate} {r : Candidate}
    (hr : r ∈ evict ef results) : r ∈ results := by
  obtain ⟨dropped, hperm, -⟩ := evict_sublist ef results
  exact hperm.mem_iff.mpr (List.mem_append_right _ hr)

variable (isAllowed : ℕ → Bool) (ef : ℕ)

omit hR in
theorem enterBeam_stays {eps : List ℕ} (hin : ∀ ep ∈ eps, R layer ep) {beam : Beam}
    (hbeam : BeamIn storage R layer beam) :
    Good E (BeamIn storage R layer) (enterBeam dist storage query isAllowed eps beam) := by
  induction eps generalizing beam with
  | nil => exact hbeam
  | cons ep eps ih =>
      rw [List.forall_mem_cons] at hin
      obtain ⟨hep, hin⟩ := hin
      unfold enterBeam
      refine good_ite (fun _ => ih hin hbeam) fun _ => (distanceTo_good h ep).bind fun d _ => ?_
      refine (h.isDeleted ep).with_eq.bind fun deleted hread => ih hin ?_
      exact hbeam.push hep hread.2 fun r hr => List.mem_cons.mp hr

omit hR in
theorem expandBeam_stays {neighbors : List ℕ} (hin : ∀ x ∈ neighbors, R layer x) {beam : Beam}
    (hbeam : BeamIn storage R layer beam) :
    Good E (BeamIn storage R layer)
      (expandBeam dist storage query ef isAllowed neighbors beam) := by
  induction neighbors generalizing beam with
  | nil => exact hbeam
  | cons x neighbors ih =>
      rw [List.forall_mem_cons] at hin
      obtain ⟨hx, hin⟩ := hin
      unfold expandBeam
      refine good_ite (fun _ => ih hin hbeam) fun _ => (distanceTo_good h x).bind fun d _ => ?_
      dsimp only
      refine good_ite (fun _ => ?_) fun _ => ih hin ⟨hbeam.candidates, hbeam.results⟩
      refine (h.isDeleted x).with_eq.bind fun deleted hread => ih hin ?_
      exact hbeam.push hx hread.2 fun r hr => List.mem_cons.mp (mem_of_mem_evict hr)

theorem runBeam_stays (fuel : ℕ) {beam : Beam} (hbeam : BeamIn storage R layer beam) :
    Good E (BeamIn storage R layer)
      (runBeam dist storage query ef layer isAllowed fuel beam) := by
  induction fuel generalizing beam with
  | zero => exact h.stuck
  | succ fuel ih =>
      unfold runBeam
      cases hpop : popMax Candidate.closeCmp beam.candidates with
      | none => exact hbeam
      | some popped =>
          obtain ⟨closest, candidates⟩ := popped
          have hperm := popMax_perm hpop
          have hclosest := hbeam.candidates closest (hperm.mem_iff.mpr List.mem_cons_self)
          have hrest : BeamIn storage R layer { beam with candidates } :=
            ⟨fun c hc => hbeam.candidates c (hperm.mem_iff.mpr (List.mem_cons_of_mem _ hc)),
              hbeam.results⟩
          dsimp only
          refine good_ite (fun _ => hrest) fun _ => ?_
          refine (h.neighbors _ _).with_eq.bind fun neighbors hread => ?_
          have hin := hR.neighbors layer closest.nodeId neighbors hclosest hread.2
          exact (expandBeam_stays h isAllowed ef hin hrest).bind fun beam' hbeam' => ih hbeam'

/-- **A search of a layer stays in the set**, and returns what was read as not deleted. -/
theorem searchLayer_stays {eps : List ℕ} (hin : ∀ ep ∈ eps, R layer ep) :
    Good E (fun found => ∀ c ∈ found, Returned storage R layer c.1)
      (searchLayer dist storage order eps query ef layer isAllowed) := by
  unfold searchLayer
  have hempty : BeamIn storage R layer ⟨[], [], []⟩ := ⟨nofun, nofun⟩
  refine (enterBeam_stays h isAllowed hin hempty).bind fun beam hbeam => ?_
  refine (runBeam_stays h hR isAllowed ef loopFuel hbeam).bind fun beam' hbeam' => ?_
  intro c hc
  have hmem := (sortedResults_perm order beam').mem_iff.mp hc
  obtain ⟨r, hr, rfl⟩ := List.mem_map.mp hmem
  exact hbeam'.results r hr

/-! ## Insertion -/

omit hR

theorem selectDiverse_mem (m : ℕ) (sorted : List (ℕ × UInt32)) (selected : List ℕ) :
    Good E (fun out => ∀ x ∈ out, x ∈ selected ∨ x ∈ sorted.map Prod.fst)
      (selectDiverse dist storage m sorted selected) := by
  induction sorted generalizing selected with
  | nil => exact fun x hx => Or.inl hx
  | cons c sorted ih =>
      obtain ⟨candId, candDist⟩ := c
      have hnone : ∀ x ∈ selected, x ∈ selected ∨
          x ∈ ((candId, candDist) :: sorted).map Prod.fst := fun x hx => Or.inl hx
      unfold selectDiverse
      refine good_ite (fun _ => hnone) fun _ => (h.vector candId).bind fun candVec _ => ?_
      have hdominated : ∀ x ∈ selected, Good E (fun _ => True) (do
          let selVec ← storage.vector x
          pure (Binary32.lt (dist candVec selVec) candDist)) := fun x _ =>
        (h.vector x).bind fun _ _ => trivial
      refine (good_anyM selected hdominated).bind fun dominated _ => ?_
      refine good_ite (fun _ => (ih selected).mono fun out hout x hx => ?_)
        fun _ => (ih (selected ++ [candId])).mono fun out hout x hx => ?_
      · exact (hout x hx).imp_right (List.mem_cons_of_mem _)
      · rcases hout x hx with hx | hx
        · rcases List.mem_append.mp hx with hx | hx
          · exact Or.inl hx
          · exact Or.inr (List.mem_singleton.mp hx ▸ List.mem_cons_self)
        · exact Or.inr (List.mem_cons_of_mem _ hx)

/-- What is selected is a candidate. -/
theorem selectNeighbors_mem (candidates : List (ℕ × UInt32)) (m : ℕ) :
    Good E (fun out => ∀ x ∈ out, x ∈ candidates.map Prod.fst)
      (selectNeighbors dist storage candidates m) := by
  have hsorted : ∀ x, x ∈ (sortByDistance candidates).map Prod.fst → x ∈ candidates.map Prod.fst :=
    fun x hx => ((sortByDistance_perm candidates).map Prod.fst).mem_iff.mp hx
  unfold selectNeighbors
  refine (selectDiverse_mem h m (sortByDistance candidates) []).bind fun selected hselected => ?_
  intro x hx
  rcases (fillClosest_selects m (sortByDistance candidates) selected).mem x hx with hx | hx
  · exact hsorted x ((hselected x hx).resolve_left List.not_mem_nil)
  · exact hsorted x hx

omit h in
/-- A list of the new node, or of a node that was read as not deleted, on a layer of the new
node. -/
def Writes (storage : VectorStorage ε) (nodeId level : ℕ) (c : Connection) : Prop :=
  c.2.1 ≤ level ∧ (c.1 = nodeId ∨ storage.isDeleted c.1 = .ok false)

theorem linkBack_writes (nodeId maxNeighbors neighbor : ℕ) :
    Good E (fun c : Connection => c.1 = neighbor ∧ c.2.1 = layer)
      (linkBack dist storage nodeId layer maxNeighbors neighbor) := by
  unfold linkBack
  refine (h.neighbors neighbor layer).bind fun neighborList _ => ?_
  dsimp only
  refine good_ite (fun _ => ?_) fun _ => ⟨rfl, rfl⟩
  exact (pruneNeighbors_good h neighbor _ maxNeighbors).bind fun pruned _ => ⟨rfl, rfl⟩

theorem insertLayer_writes {m level nodeId : ℕ} {state : List Connection × ℕ}
    (hlayer : layer ≤ level) (hstate : ∀ c ∈ state.1, Writes storage nodeId level c) :
    Good E (fun state' => ∀ c ∈ state'.1, Writes storage nodeId level c)
      (insertLayer dist storage order nodeId query m ef state layer) := by
  unfold insertLayer
  dsimp only
  refine (searchLayer_stays h StaysIn.everywhere _ ef (fun _ _ => trivial)).bind
    fun candidates hcandidates => ?_
  refine (selectNeighbors_mem h candidates _).bind fun selected hselected => ?_
  have hlink : ∀ x ∈ selected, Good E (Writes storage nodeId level)
      (linkBack dist storage nodeId layer (if layer = 0 then 2 * m else m) x) := by
    intro x hx
    obtain ⟨c, hc, hcx⟩ := List.mem_map.mp (hselected x hx)
    refine (linkBack_writes h nodeId _ x).mono fun link ⟨hnode, hlink⟩ => ?_
    refine ⟨hlink.trans_le hlayer, Or.inr ?_⟩
    rw [hnode, ← hcx]
    exact (hcandidates c hc).2
  refine (good_mapM selected hlink).bind fun links hlinks => ?_
  intro c hc
  rcases List.mem_append.mp hc with hc | hc
  · exact hstate c hc
  · rcases List.mem_cons.mp hc with rfl | hc
    · exact ⟨hlayer, Or.inl rfl⟩
    · exact hlinks c hc

/-- **Which lists an insertion writes**, whatever the graph looks like. -/
theorem insert_writes (nodeId level : ℕ) (entryPoint : Option ℕ) (currentMaxLayer m : ℕ) :
    Good E (fun r => ∀ c ∈ r.connections, Writes storage nodeId level c)
      (insert dist storage order nodeId level entryPoint currentMaxLayer m ef) := by
  unfold insert
  cases entryPoint with
  | none =>
      intro c hc
      obtain ⟨l, hl, rfl⟩ := List.mem_map.mp hc
      exact ⟨Nat.lt_succ_iff.mp (List.mem_range.mp hl), Or.inl rfl⟩
  | some ep =>
      refine (h.vector nodeId).bind fun query _ => ?_
      refine (descendTo_good h ep currentMaxLayer level).bind fun currentEp _ => ?_
      dsimp only
      have hnone : ∀ c ∈ ([] : List Connection), Writes storage nodeId level c := nofun
      refine (good_foldlM (I := fun state => ∀ c ∈ state.1, Writes storage nodeId level c) _ hnone
        fun state l hl hstate => insertLayer_writes h ef ?_ hstate).bind fun state hstate => ?_
      · have hmem := List.mem_range.mp (List.mem_reverse.mp hl)
        omega
      · exact good_ite (fun _ => hstate) fun _ => hstate

end

end Hnsw

end BoogyDb
