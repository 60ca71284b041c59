import BoogyDb.SearchExact

/-!
# What a search finds in any graph

A search reads a graph that may be damaged: lists may lead to nodes that were freed, or to the same
node again.  A result of a search that returns was measured all the same.  Its vector was read and
the distance is that of the vector, it is not marked as deleted, and no node is found twice
(`search_measures`).  Nothing is asked of the reads.
-/

namespace BoogyDb

open Except

namespace Hnsw

variable {ε : Type} {dist : List UInt32 → List UInt32 → UInt32} {storage : VectorStorage ε}
  {query : List UInt32} {isAllowed : ℕ → Bool} {order : HeapOrder}

/-- A node that was measured: its vector is read, it is live and allowed. -/
structure Measured (dist : List UInt32 → List UInt32 → UInt32) (storage : VectorStorage ε)
    (query : List UInt32) (isAllowed : ℕ → Bool) (n : ℕ) (d : UInt32) : Prop where
  vector : ∃ v, storage.vector n = .ok v ∧ d = dist query v
  live : storage.isDeleted n = .ok false
  isAllowed : isAllowed n = true

/-- The results of a beam were measured and visited, each once. -/
structure BeamMeasured (dist : List UInt32 → List UInt32 → UInt32) (storage : VectorStorage ε)
    (query : List UInt32) (isAllowed : ℕ → Bool) (beam : Beam) : Prop where
  visited : ∀ r ∈ beam.results, r.nodeId ∈ beam.visited
  measured : ∀ r ∈ beam.results, Measured dist storage query isAllowed r.nodeId r.distance
  nodup : (beam.results.map Candidate.nodeId).Nodup

variable {beam : Beam} {n ef layer : ℕ} {d : UInt32}

/-- What a read returns. -/
theorem good_self {α : Type} (x : Except ε α) : Good (fun _ => True) (fun a => x = .ok a) x := by
  cases x with
  | ok a => exact rfl
  | error e => trivial

theorem distanceTo_measures (n : ℕ) :
    Good (fun _ => True) (fun d => ∃ v, storage.vector n = .ok v ∧ d = dist query v)
      (distanceTo dist storage query n) := by
  unfold distanceTo
  exact (good_self _).bind fun v hv => ⟨v, hv, rfl⟩

/-- A new node is visited. -/
theorem BeamMeasured.visit (h : BeamMeasured dist storage query isAllowed beam)
    (candidates : List Candidate) :
    BeamMeasured dist storage query isAllowed
      { beam with visited := n :: beam.visited, candidates } :=
  ⟨fun r hr => List.mem_cons_of_mem _ (h.visited r hr), h.measured, h.nodup⟩

/-- A new node is put to the results, and some may be dropped. -/
theorem BeamMeasured.push (h : BeamMeasured dist storage query isAllowed beam)
    (hnew : n ∉ beam.visited) (hn : Measured dist storage query isAllowed n d)
    (candidates : List Candidate) {results dropped : List Candidate}
    (hperm : (⟨d, n⟩ :: beam.results).Perm (dropped ++ results)) :
    BeamMeasured dist storage query isAllowed ⟨n :: beam.visited, candidates, results⟩ := by
  have hmem : ∀ r ∈ results, r = ⟨d, n⟩ ∨ r ∈ beam.results := fun r hr =>
    List.mem_cons.mp (hperm.mem_iff.mpr (List.mem_append_right _ hr))
  refine ⟨fun r hr => ?_, fun r hr => ?_, ?_⟩
  · rcases hmem r hr with rfl | hr
    · exact List.mem_cons_self
    · exact List.mem_cons_of_mem _ (h.visited r hr)
  · rcases hmem r hr with rfl | hr
    · exact hn
    · exact h.measured r hr
  · have hnodup : ((⟨d, n⟩ :: beam.results).map Candidate.nodeId).Nodup := by
      rw [List.map_cons, List.nodup_cons]
      refine ⟨fun hn => ?_, h.nodup⟩
      obtain ⟨r, hr, heq⟩ := List.mem_map.mp hn
      have heq : r.nodeId = n := heq
      exact hnew (heq ▸ h.visited r hr)
    have hall := (hperm.map Candidate.nodeId).nodup_iff.mp hnodup
    rw [List.map_append] at hall
    exact hall.of_append_right

/-- The results after a node was read: it is put to them if it is live and allowed. -/
theorem BeamMeasured.meet (h : BeamMeasured dist storage query isAllowed beam)
    (hnew : n ∉ beam.visited) (hd : ∃ v, storage.vector n = .ok v ∧ d = dist query v)
    {deleted : Bool} (hdeleted : storage.isDeleted n = .ok deleted) (candidates : List Candidate)
    {results dropped : List Candidate}
    (hperm : (⟨d, n⟩ :: beam.results).Perm (dropped ++ results)) :
    BeamMeasured dist storage query isAllowed ⟨n :: beam.visited, candidates,
      if !deleted && isAllowed n then results else beam.results⟩ := by
  split
  · rename_i hcounts
    rw [Bool.and_eq_true, Bool.not_eq_true'] at hcounts
    obtain ⟨rfl, hallowed⟩ := hcounts
    exact h.push hnew ⟨hd, hdeleted, hallowed⟩ candidates hperm
  · exact h.visit candidates

theorem enterBeam_measures (eps : List ℕ) (h : BeamMeasured dist storage query isAllowed beam) :
    Good (fun _ => True) (BeamMeasured dist storage query isAllowed)
      (enterBeam dist storage query isAllowed eps beam) := by
  induction eps generalizing beam with
  | nil => exact h
  | cons ep eps ih =>
      unfold enterBeam
      refine good_ite (fun _ => ih h) fun hnew => (distanceTo_measures ep).bind fun d hd => ?_
      refine (good_self _).bind fun deleted hdeleted => ih ?_
      exact h.meet hnew hd hdeleted _ (.refl ([] ++ ⟨d, ep⟩ :: beam.results))

theorem expandBeam_measures (neighbors : List ℕ)
    (h : BeamMeasured dist storage query isAllowed beam) :
    Good (fun _ => True) (BeamMeasured dist storage query isAllowed)
      (expandBeam dist storage query ef isAllowed neighbors beam) := by
  induction neighbors generalizing beam with
  | nil => exact h
  | cons n neighbors ih =>
      unfold expandBeam
      refine good_ite (fun _ => ih h) fun hnew => (distanceTo_measures n).bind fun d hd => ?_
      dsimp only
      refine good_ite (fun _ => ?_) fun _ => ih (h.visit _)
      refine (good_self _).bind fun deleted hdeleted => ih ?_
      obtain ⟨dropped, hperm, -⟩ := evict_sublist ef (⟨d, n⟩ :: beam.results)
      exact h.meet hnew hd hdeleted _ hperm

theorem runBeam_measures (fuel : ℕ) (h : BeamMeasured dist storage query isAllowed beam) :
    Good (fun _ => True) (BeamMeasured dist storage query isAllowed)
      (runBeam dist storage query ef layer isAllowed fuel beam) := by
  induction fuel generalizing beam with
  | zero => trivial
  | succ fuel ih =>
      unfold runBeam
      split
      · exact h
      · rename_i closest rest _
        have hrest : BeamMeasured dist storage query isAllowed { beam with candidates := rest } :=
          ⟨h.visited, h.measured, h.nodup⟩
        refine good_ite (fun _ => hrest) fun _ => (good_self _).bind fun neighbors _ => ?_
        exact (expandBeam_measures neighbors hrest).bind fun beam' h' => ih h'

/-- What a search is sure of, whatever it reads. -/
structure Measures (dist : List UInt32 → List UInt32 → UInt32) (storage : VectorStorage ε)
    (query : List UInt32) (isAllowed : ℕ → Bool) (found : List (ℕ × UInt32)) : Prop where
  measured : ∀ r ∈ found, Measured dist storage query isAllowed r.1 r.2
  nodup : (found.map Prod.fst).Nodup
  ascending : (∀ n d, Measured dist storage query isAllowed n d → Binary32.isNaN d = false) →
    found.Pairwise fun r r' => Binary32.orderKey r.2 ≤ Binary32.orderKey r'.2

theorem searchLayer_measures (eps : List ℕ) :
    Good (fun _ => True) (Measures dist storage query isAllowed)
      (searchLayer dist storage order eps query ef layer isAllowed) := by
  unfold searchLayer
  have hnone : BeamMeasured dist storage query isAllowed ⟨[], [], []⟩ :=
    ⟨nofun, nofun, List.nodup_nil⟩
  refine (enterBeam_measures eps hnone).bind fun beam hentered => ?_
  refine (runBeam_measures loopFuel hentered).bind fun beam h => ?_
  have hperm := sortedResults_perm order beam
  have hmeasured : ∀ r ∈ sortedResults order beam,
      Measured dist storage query isAllowed r.1 r.2 := by
    intro r hr
    obtain ⟨c, hc, rfl⟩ := List.mem_map.mp (hperm.mem_iff.mp hr)
    exact h.measured c hc
  refine ⟨hmeasured, ?_, fun hnumbers => sortByDistance_ascending fun r hr => ?_⟩
  · apply (hperm.map Prod.fst).nodup_iff.mpr
    rw [List.map_map]
    exact h.nodup
  · have hr : r ∈ sortedResults order beam := (sortByDistance_perm _).mem_iff.mpr hr
    exact hnumbers r.1 r.2 (hmeasured r hr)

/-- **A search that returns has measured what it found**, in whatever graph it went through. -/
theorem search_measures {k efSearch entryPoint maxLayer : ℕ} {found : List (ℕ × UInt32)}
    (hrun : search dist storage order query k efSearch entryPoint maxLayer isAllowed = .ok found) :
    found.length ≤ k ∧ Measures dist storage query isAllowed found := by
  have hgood : Good (fun _ => True)
      (fun found => found.length ≤ k ∧ Measures dist storage query isAllowed found)
      (search dist storage order query k efSearch entryPoint maxLayer isAllowed) := by
    unfold search
    refine (good_self _).bind fun ep _ => (searchLayer_measures [ep]).bind fun all hall => ?_
    refine ⟨List.length_take_le _ _, fun r hr => hall.measured r (List.mem_of_mem_take hr), ?_,
      fun hnumbers => (hall.ascending hnumbers).sublist (List.take_sublist k all)⟩
    exact hall.nodup.sublist ((List.take_sublist k all).map Prod.fst)
  exact hgood.ok hrun

end Hnsw

end BoogyDb
