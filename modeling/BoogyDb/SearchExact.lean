import BoogyDb.VectorEntry
import BoogyDb.Lib.KLeast

/-!
# What a search finds

A search starts on layer 0 where the descent through the upper layers ends.  The nodes that it
can find are those that are live and allowed and that edges of layer 0 lead to (`eligible`);
edges out of deleted nodes and of nodes that are not allowed count as well.

When the beam is wide enough for all of them it finds all of them: nothing is evicted, and
neither a candidate nor a neighbor is passed over before the results are complete
(`Explores`).  So the first `k` of the results are the `k` nearest (`Hnsw.search_answers`).
-/

namespace BoogyDb

open KLeast

/-! ## Reachable nodes -/

namespace LayeredGraph

variable {g : LayeredGraph} {layer start n x : ℕ} {isAllowed : ℕ → Bool}

/-- Edges of the layer lead from the start to the node. -/
def Reaches (g : LayeredGraph) (layer start n : ℕ) : Prop :=
  Relation.ReflTransGen (fun a b => b ∈ g.neighbors a layer) start n

/-- The nodes that a search of the layer can find. -/
def eligible (g : LayeredGraph) (layer start : ℕ) (isAllowed : ℕ → Bool) : Set ℕ :=
  { n | g.Reaches layer start n ∧ g.deleted n = false ∧ isAllowed n = true }

theorem Reaches.on (h : g.Reaches layer start n) (hg : g.Layered) (hstart : g.On layer start) :
    g.On layer n := by
  induction h with
  | refl => exact hstart
  | tail _ hedge ih => exact hg layer _ ih _ hedge

theorem eligible_finite (hg : g.Layered) (hstart : g.On layer start) :
    (g.eligible layer start isAllowed).Finite := by
  refine (Finset.range g.size).finite_toSet.subset fun n hn => ?_
  exact Finset.mem_coe.mpr (Finset.mem_range.mpr (hn.1.on hg hstart).1)

/-- What contains the start and is closed under edges contains all that is reachable. -/
theorem Reaches.mem_of_closed {visited : List ℕ} (h : g.Reaches layer start n)
    (hstart : start ∈ visited)
    (hclosed : ∀ a ∈ visited, ∀ b ∈ g.neighbors a layer, b ∈ visited) : n ∈ visited := by
  induction h with
  | refl => exact hstart
  | tail _ hedge ih => exact hclosed _ ih _ hedge

end LayeredGraph

/-- A storage of finitely many nodes that has a list of each node on every layer. -/
theorem ReadsAs.of_finite {ε : Type} {storage : VectorStorage ε} {size : ℕ}
    {vector : ℕ → List UInt32} {deleted : ℕ → Bool} {neighbors : ℕ → ℕ → List ℕ}
    (hsize : size ≤ 2 ^ 32) (hvector : ∀ n < size, storage.vector n = .ok (vector n))
    (hdeleted : ∀ n < size, storage.isDeleted n = .ok (deleted n))
    (hneighbors : ∀ n < size, ∀ layer, storage.neighbors n layer = .ok (neighbors n layer))
    (hclosed : ∀ n < size, ∀ layer, ∀ x ∈ neighbors n layer, x < size) (top : ℕ) :
    ReadsAs storage ⟨size, fun _ => top, vector, deleted, neighbors⟩ where
  size_le := hsize
  layered layer n hn x hx := ⟨hclosed n hn.1 layer x hx, hn.2⟩
  vector hn := hvector _ hn
  isDeleted hn := hdeleted _ hn
  neighbors hon := hneighbors _ hon.1 _

namespace Hnsw

open LayeredGraph

variable {ε : Type} {dist : List UInt32 → List UInt32 → UInt32} {storage : VectorStorage ε}
  {order : HeapOrder} {g : LayeredGraph} {query : List UInt32} {layer start n x : ℕ}
  {isAllowed : ℕ → Bool} {beam beam' : Beam} {ef : ℕ}

/-! ## The beam -/

/-- All that can be found is in the results. -/
def Beam.Complete (g : LayeredGraph) (layer start : ℕ) (isAllowed : ℕ → Bool) (beam : Beam) :
    Prop := ∀ n ∈ g.eligible layer start isAllowed, n ∈ beam.results.map Candidate.nodeId

/-- What has been visited is reachable, and what counts of it is in the results.  As long as the
results are not complete, each visited node still `waits` or its neighbors have been visited. -/
structure Explores (g : LayeredGraph) (layer start : ℕ) (isAllowed : ℕ → Bool) (waits : ℕ → Prop)
    (beam : Beam) : Prop where
  entered : start ∈ beam.visited
  reach : ∀ n ∈ beam.visited, g.Reaches layer start n
  collected : ∀ n ∈ beam.visited, n ∈ g.eligible layer start isAllowed →
    n ∈ beam.results.map Candidate.nodeId
  expanded : beam.Complete g layer start isAllowed ∨
    ∀ n ∈ beam.visited, waits n ∨ ∀ x ∈ g.neighbors n layer, x ∈ beam.visited

section

variable {waits : ℕ → Prop} (hg : g.Layered) (hstart : g.On layer start)
  (hbeam : BeamInv dist g query layer isAllowed beam)

include hbeam

theorem BeamInv.eligible (hreach : ∀ n ∈ beam.visited, g.Reaches layer start n) {r : Candidate}
    (hr : r ∈ beam.results) : r.nodeId ∈ g.eligible layer start isAllowed := by
  obtain ⟨hvisited, -, hlive, hallowed⟩ := hbeam.results r hr
  exact ⟨hreach _ hvisited, hlive, hallowed⟩

include hg hstart

/-- The results are no more than what can be found. -/
theorem BeamInv.length_le (hreach : ∀ n ∈ beam.visited, g.Reaches layer start n) :
    beam.results.length ≤ (g.eligible layer start isAllowed).ncard := by
  have hsub : (↑(beam.results.map Candidate.nodeId).toFinset : Set ℕ) ⊆
      g.eligible layer start isAllowed := by
    intro n hn
    obtain ⟨r, hr, rfl⟩ := List.mem_map.mp (List.mem_toFinset.mp (Finset.mem_coe.mp hn))
    exact hbeam.eligible hreach hr
  have hcard := Set.ncard_le_ncard hsub (eligible_finite hg hstart)
  rwa [Set.ncard_coe_finset, List.toFinset_card_of_nodup hbeam.resultsNodup,
    List.length_map] at hcard

/-- **As many results as can be found are all of them.** -/
theorem BeamInv.complete (hreach : ∀ n ∈ beam.visited, g.Reaches layer start n)
    (hlen : (g.eligible layer start isAllowed).ncard ≤ beam.results.length) :
    Beam.Complete g layer start isAllowed beam := by
  have hsub : (↑(beam.results.map Candidate.nodeId).toFinset : Set ℕ) ⊆
      g.eligible layer start isAllowed := by
    intro n hn
    obtain ⟨r, hr, rfl⟩ := List.mem_map.mp (List.mem_toFinset.mp (Finset.mem_coe.mp hn))
    exact hbeam.eligible hreach hr
  have heq := Set.eq_of_subset_of_ncard_le hsub
    (by rwa [Set.ncard_coe_finset, List.toFinset_card_of_nodup hbeam.resultsNodup,
      List.length_map]) (eligible_finite hg hstart)
  intro n hn
  rw [← heq] at hn
  exact List.mem_toFinset.mp (Finset.mem_coe.mp hn)

/-- **A node that is visited joins the candidates**, and the results if it counts: none of them
is evicted. -/
theorem Explores.push (h : Explores g layer start isAllowed waits beam)
    (hcount : (g.eligible layer start isAllowed).ncard ≤ ef) (hx : g.Reaches layer start x)
    (hnew : x ∉ beam.visited) :
    Explores g layer start isAllowed (fun n => n = x ∨ waits n)
      { visited := x :: beam.visited
        candidates := ⟨dist query (g.vector x), x⟩ :: beam.candidates
        results := if !g.deleted x && isAllowed x then
          evict ef (⟨dist query (g.vector x), x⟩ :: beam.results) else beam.results } := by
  have hreach : ∀ n ∈ x :: beam.visited, g.Reaches layer start n :=
    List.forall_mem_cons.mpr ⟨hx, h.reach⟩
  have hkeep : (if !g.deleted x && isAllowed x then
      evict ef (⟨dist query (g.vector x), x⟩ :: beam.results) else beam.results) =
        if !g.deleted x && isAllowed x then
          ⟨dist query (g.vector x), x⟩ :: beam.results else beam.results := by
    split
    · rename_i hcounts
      have hpushed : BeamInv dist g query layer isAllowed
          { visited := x :: beam.visited
            candidates := ⟨dist query (g.vector x), x⟩ :: beam.candidates
            results := ⟨dist query (g.vector x), x⟩ :: beam.results } :=
        hbeam.pushResult (hx.on hg hstart) hnew ⟨[], by rw [if_pos hcounts]; rfl⟩
      have hlen := hpushed.length_le hg hstart hreach
      unfold evict
      rw [if_neg (Nat.not_lt.mpr (hlen.trans hcount))]
    · rfl
  rw [hkeep]
  have hold : ∀ n ∈ beam.results.map Candidate.nodeId,
      n ∈ (if !g.deleted x && isAllowed x then
        ⟨dist query (g.vector x), x⟩ :: beam.results else beam.results).map Candidate.nodeId := by
    intro n hn
    split
    · exact List.mem_cons_of_mem _ hn
    · exact hn
  refine ⟨List.mem_cons_of_mem _ h.entered, hreach, fun n hn hcounts => ?_, ?_⟩
  · rcases List.mem_cons.mp hn with rfl | hn
    · rw [if_pos (by rw [hcounts.2.1, hcounts.2.2]; rfl)]
      exact List.mem_cons_self
    · exact hold n (h.collected n hn hcounts)
  · rcases h.expanded with hcomplete | hexpanded
    · exact Or.inl fun n hn => hold n (hcomplete n hn)
    · refine Or.inr (List.forall_mem_cons.mpr ⟨Or.inl (Or.inl rfl), fun n hn => ?_⟩)
      rcases hexpanded n hn with hwaits | hall
      · exact Or.inl (Or.inr hwaits)
      · exact Or.inr fun y hy => List.mem_cons_of_mem _ (hall y hy)

/-- A node that is passed over comes too late: the results are complete. -/
theorem Explores.skip (h : Explores g layer start isAllowed waits beam)
    (hcount : (g.eligible layer start isAllowed).ncard ≤ beam.results.length)
    (hx : g.Reaches layer start x) :
    Explores g layer start isAllowed waits { beam with visited := x :: beam.visited } := by
  have hcomplete := hbeam.complete hg hstart h.reach hcount
  refine ⟨List.mem_cons_of_mem _ h.entered, List.forall_mem_cons.mpr ⟨hx, h.reach⟩,
    fun n _ hcounts => hcomplete n hcounts, Or.inl hcomplete⟩

end

theorem Explores.mono {waits waits' : ℕ → Prop} (h : Explores g layer start isAllowed waits beam)
    (hwaits : ∀ n ∈ beam.visited, waits n → waits' n ∨ ∀ x ∈ g.neighbors n layer, x ∈ beam.visited) :
    Explores g layer start isAllowed waits' beam := by
  refine ⟨h.entered, h.reach, h.collected, h.expanded.imp_right fun hexpanded n hn => ?_⟩
  rcases hexpanded n hn with hn' | hall
  · exact hwaits n hn hn'
  · exact Or.inr hall

/-- **The loop over the neighbors of a node expands it.** -/
theorem expandBeam_explores (hg : ReadsAs storage g) (hstart : g.On layer start)
    (hcount : (g.eligible layer start isAllowed).ncard ≤ ef) {closest : ℕ} {neighbors : List ℕ}
    (hreach : ∀ x ∈ neighbors, g.Reaches layer start x)
    (hbeam : BeamInv dist g query layer isAllowed beam)
    (h : Explores g layer start isAllowed
      (fun n => n ∈ beam.candidates.map Candidate.nodeId ∨ n = closest) beam)
    (hrun : expandBeam dist storage query ef isAllowed neighbors beam = .ok beam') :
    Explores g layer start isAllowed
        (fun n => n ∈ beam'.candidates.map Candidate.nodeId ∨ n = closest) beam' ∧
      (∀ x ∈ neighbors, x ∈ beam'.visited) ∧ ∀ x ∈ beam.visited, x ∈ beam'.visited := by
  induction neighbors generalizing beam with
  | nil =>
      cases hrun
      exact ⟨h, nofun, fun _ => id⟩
  | cons x neighbors ih =>
      rw [List.forall_mem_cons] at hreach
      obtain ⟨hx, hreach⟩ := hreach
      have hon := hx.on hg.layered hstart
      unfold expandBeam at hrun
      by_cases hvisited : x ∈ beam.visited
      · rw [if_pos hvisited] at hrun
        obtain ⟨hex, hall, hkeep⟩ := ih hreach hbeam h hrun
        exact ⟨hex, List.forall_mem_cons.mpr ⟨hkeep x hvisited, hall⟩, hkeep⟩
      rw [if_neg hvisited, distanceTo_ok hg hon.1, Except.ok_bind] at hrun
      dsimp only at hrun
      split at hrun
      · rw [hg.isDeleted hon.1, Except.ok_bind] at hrun
        set next : Beam :=
          { visited := x :: beam.visited
            candidates := ⟨dist query (g.vector x), x⟩ :: beam.candidates
            results := if !g.deleted x && isAllowed x then
              evict ef (⟨dist query (g.vector x), x⟩ :: beam.results) else beam.results } with hnext
        have hpush : Explores g layer start isAllowed
            (fun n => n ∈ next.candidates.map Candidate.nodeId ∨ n = closest) next := by
          refine (h.push hg.layered hstart hbeam hcount hx hvisited).mono fun n _ hn => Or.inl ?_
          rcases hn with rfl | hn | rfl
          · exact Or.inl List.mem_cons_self
          · exact Or.inl (List.mem_cons_of_mem _ hn)
          · exact Or.inr rfl
        have hbeam' : BeamInv dist g query layer isAllowed next := by
          refine hbeam.pushResult hon hvisited ?_
          split
          · obtain ⟨dropped, hperm, -⟩ :=
              evict_sublist ef (⟨dist query (g.vector x), x⟩ :: beam.results)
            exact ⟨dropped, hperm.symm⟩
          · exact ⟨[], .refl _⟩
        obtain ⟨hex, hall, hkeep⟩ := ih hreach hbeam' hpush hrun
        exact ⟨hex, List.forall_mem_cons.mpr ⟨hkeep x List.mem_cons_self, hall⟩,
          fun y hy => hkeep y (List.mem_cons_of_mem _ hy)⟩
      · rename_i hfull
        rw [Bool.or_eq_true, not_or, decide_eq_true_eq, Nat.not_lt] at hfull
        have hskip := h.skip hg.layered hstart hbeam (hcount.trans hfull.2) hx
        obtain ⟨hex, hall, hkeep⟩ := ih hreach (hbeam.visit hon hvisited) hskip hrun
        exact ⟨hex, List.forall_mem_cons.mpr ⟨hkeep x List.mem_cons_self, hall⟩,
          fun y hy => hkeep y (List.mem_cons_of_mem _ hy)⟩

/-- **A beam that is wide enough finds all that can be found.** -/
theorem runBeam_complete (hg : ReadsAs storage g) (hstart : g.On layer start)
    (hcount : (g.eligible layer start isAllowed).ncard ≤ ef) {fuel : ℕ}
    (hbeam : BeamInv dist g query layer isAllowed beam)
    (h : Explores g layer start isAllowed (fun n => n ∈ beam.candidates.map Candidate.nodeId) beam)
    (hrun : runBeam dist storage query ef layer isAllowed fuel beam = .ok beam') :
    Beam.Complete g layer start isAllowed beam' ∧ ∀ n ∈ beam'.visited, g.Reaches layer start n := by
  induction fuel generalizing beam with
  | zero => cases hrun
  | succ fuel ih =>
      unfold runBeam at hrun
      cases hpop : popMax Candidate.closeCmp beam.candidates with
      -- no candidate waits: what was visited is closed under the lists
      | none =>
          rw [hpop] at hrun
          cases hrun
          refine ⟨?_, h.reach⟩
          rcases h.expanded with hcomplete | hexpanded
          · exact hcomplete
          · intro n hn
            refine h.collected n (hn.1.mem_of_closed h.entered fun a ha b hb => ?_) hn
            rcases hexpanded a ha with hwaits | hall
            · rw [popMax_eq_none.mp hpop] at hwaits
              cases hwaits
            · exact hall b hb
      | some top =>
          obtain ⟨closest, rest⟩ := top
          rw [hpop] at hrun
          dsimp only at hrun
          have hperm := popMax_perm hpop
          have hbeam₁ : BeamInv dist g query layer isAllowed { beam with candidates := rest } :=
            ⟨hbeam.nodup, hbeam.on,
              fun c hc => hbeam.candidates c (hperm.mem_iff.mpr (List.mem_cons_of_mem _ hc)),
              hbeam.results, hbeam.resultsNodup⟩
          have hex₁ : Explores g layer start isAllowed
              (fun n => n ∈ rest.map Candidate.nodeId ∨ n = closest.nodeId)
              { beam with candidates := rest } := by
            refine ⟨h.entered, h.reach, h.collected, h.expanded.imp_right fun hexpanded n hn => ?_⟩
            refine (hexpanded n hn).imp_left fun hwaits => ?_
            have hmem := (hperm.map Candidate.nodeId).mem_iff.mp hwaits
            rw [List.map_cons, List.mem_cons] at hmem
            exact hmem.symm
          split at hrun
          -- the results are as many as wanted, so all that are eligible are among them
          · rename_i hstop
            cases hrun
            rw [Bool.and_eq_true, decide_eq_true_eq] at hstop
            exact ⟨hbeam₁.complete hg.layered hstart h.reach (hcount.trans hstop.2), h.reach⟩
          · have hvisited := (hbeam.candidates closest (hperm.mem_iff.mpr List.mem_cons_self)).1
            have hon : g.On layer closest.nodeId := hbeam.on _ hvisited
            have hneighbors : ∀ x ∈ g.neighbors closest.nodeId layer, g.Reaches layer start x :=
              fun x hx => (h.reach _ hvisited).tail hx
            obtain ⟨beam₂, hexpand, hbeam₂, -⟩ :=
              @expandBeam_ok _ dist _ _ query layer isAllowed _ ef hg _
                (hg.layered layer _ hon) hbeam₁
            rw [hg.neighbors hon, Except.ok_bind, hexpand, Except.ok_bind] at hrun
            obtain ⟨hex₂, hall, -⟩ :=
              expandBeam_explores hg hstart hcount hneighbors hbeam₁ hex₁ hexpand
            refine ih hbeam₂ (hex₂.mono fun n _ hn => ?_) hrun
            rcases hn with hn | rfl
            · exact Or.inl hn
            · exact Or.inr hall

/-! ## Sorting by distance -/

theorem cmpDistance_ne_gt {a b : UInt32} (ha : Binary32.isNaN a = false)
    (hb : Binary32.isNaN b = false) :
    cmpDistance a b ≠ .gt ↔ Binary32.orderKey a ≤ Binary32.orderKey b := by
  unfold cmpDistance Binary32.partialCmp
  rw [ha, hb, Bool.or_self, if_neg Bool.false_ne_true, Option.getD_some, Ne, compare_gt_iff_gt,
    not_lt]

/-- Distances that are numbers are sorted. -/
theorem sortByDistance_ascending {found : List (ℕ × UInt32)}
    (h : ∀ r ∈ found, Binary32.isNaN r.2 = false) :
    (sortByDistance found).Pairwise fun a b => Binary32.orderKey a.2 ≤ Binary32.orderKey b.2 := by
  have hmap := @List.map_insertionSort _ _ (fun a b : ℕ × UInt32 => cmpDistance a.2 b.2 ≠ .gt)
    (fun a b : ℤ => a ≤ b) _ _ (fun r => Binary32.orderKey r.2) found
    fun a ha b hb => cmpDistance_ne_gt (h a ha) (h b hb)
  have hsorted := List.pairwise_insertionSort (fun a b : ℤ => a ≤ b)
    (found.map fun r => Binary32.orderKey r.2)
  rw [← hmap, List.pairwise_map] at hsorted
  exact hsorted

/-! ## A search -/

/-- **A beam search that is wide enough finds all that can be found.** -/
theorem searchLayer_complete (hg : ReadsAs storage g) (hstart : g.On layer start)
    (hcount : (g.eligible layer start isAllowed).ncard ≤ ef)
    (hrun : runBeam dist storage query ef layer isAllowed loopFuel
      (startBeam dist g query isAllowed start) = .ok beam)
    (hbeam : BeamInv dist g query layer isAllowed beam) (n : ℕ) :
    n ∈ (sortedResults order beam).map Prod.fst ↔ n ∈ g.eligible layer start isAllowed := by
  have hexplores : Explores g layer start isAllowed (fun n =>
      n ∈ (startBeam dist g query isAllowed start).candidates.map Candidate.nodeId)
      (startBeam dist g query isAllowed start) := by
    refine ⟨List.mem_singleton_self _, fun n hn => ?_, fun n hn hcounts => ?_,
      Or.inr fun n hn => Or.inl hn⟩
    · rw [List.mem_singleton.mp hn]
      exact .refl
    · obtain rfl := List.mem_singleton.mp hn
      unfold startBeam
      rw [hcounts.2.1, hcounts.2.2]
      exact List.mem_singleton_self _
  obtain ⟨hcomplete, hreach⟩ :=
    runBeam_complete hg hstart hcount (startBeam_inv hstart) hexplores hrun
  have hids := (sortedResults_perm order beam).map Prod.fst
  rw [List.map_map] at hids
  rw [hids.mem_iff]
  refine ⟨fun hn => ?_, hcomplete n⟩
  obtain ⟨r, hr, rfl⟩ := List.mem_map.mp hn
  exact hbeam.eligible hreach hr

/-- What a search that starts at `start` answers, when the beam is `width` wide. -/
structure Answers (dist : List UInt32 → List UInt32 → UInt32) (g : LayeredGraph)
    (query : List UInt32) (isAllowed : ℕ → Bool) (k width start : ℕ)
    (found : List (ℕ × UInt32)) : Prop where
  sound : ∀ r ∈ found, Found dist g query 0 isAllowed r
  nodup : (found.map Prod.fst).Nodup
  ascending : found.Pairwise fun r r' => Binary32.orderKey r.2 ≤ Binary32.orderKey r'.2
  length_le : found.length ≤ k
  nearest : (g.eligible 0 start isAllowed).ncard ≤ width →
    IsKLeast (fun n => Binary32.orderKey (dist query (g.vector n)))
      (g.eligible 0 start isAllowed) k (found.map Prod.fst)

/-- **A search returns live and allowed nodes, in the order of their distances.**  When the beam is
wide enough for the nodes that can be reached, these are the `k` nearest of them.  The graph need
not have levels: see `ReadsAs.of_finite`. -/
theorem search_answers (hg : ReadsAs storage g) {k efSearch entryPoint maxLayer : ℕ}
    (hentry : g.On maxLayer entryPoint)
    (htotal : ∀ n < g.size, Binary32.isNaN (dist query (g.vector n)) = false) :
    ∃ start found, descendTo dist storage entryPoint query maxLayer 0 = .ok start ∧
      search dist storage order query k efSearch entryPoint maxLayer isAllowed = .ok found ∧
      Answers dist g query isAllowed k (max efSearch k) start found := by
  obtain ⟨start, hdescend, hon, -⟩ := @descendTo_ok _ dist _ _ query hg entryPoint maxLayer 0 hentry
  rw [Nat.zero_min] at hon
  obtain ⟨beam, hbeamRun, hrun, hbeam, -⟩ :=
    @searchLayer_runs _ dist _ order _ query 0 isAllowed (max efSearch k) hg start hon
  obtain ⟨found, hrun', hfound, hnodup, -⟩ :=
    @searchLayer_ok _ dist _ order _ query 0 isAllowed (max efSearch k) hg start hon
  obtain rfl : found = sortedResults order beam := by
    rw [hrun] at hrun'
    exact (Except.ok.inj hrun').symm
  have hnumbers : ∀ r ∈ (order.intoIter beam.results).map fun r => (r.nodeId, r.distance),
      Binary32.isNaN r.2 = false := by
    intro r hr
    have hr := hfound r ((sortByDistance_perm _).mem_iff.mpr hr)
    rw [hr.dist_eq]
    exact htotal r.1 hr.on.1
  have hsorted : (sortedResults order beam).Pairwise fun r r' =>
      Binary32.orderKey r.2 ≤ Binary32.orderKey r'.2 := sortByDistance_ascending hnumbers
  refine ⟨start, (sortedResults order beam).take k, hdescend, ?_,
    fun r hr => hfound r (List.mem_of_mem_take hr), ?_,
    hsorted.sublist (List.take_sublist k _), List.length_take_le k _, fun hcount => ?_⟩
  · unfold search
    rw [hdescend, Except.ok_bind, hrun]
    rfl
  · exact hnodup.sublist ((List.take_sublist k _).map Prod.fst)
  · rw [List.map_take]
    refine isKLeast_take hnodup (searchLayer_complete hg hon hcount hbeamRun hbeam) ?_ k
    rw [List.pairwise_map]
    refine hsorted.imp_of_mem fun {r r'} hr hr' hle => ?_
    rwa [← (hfound r hr).dist_eq, ← (hfound r' hr').dist_eq]

end Hnsw

/-- 0.0, 1.0 and 2.0 on a line; the first is deleted. -/
def lineGraph : LayeredGraph where
  size := 3
  level _ := 1
  vector n := [if n = 0 then 0 else if n = 1 then 0x3F800000 else 0x40000000]
  deleted n := n = 0
  neighbors n _ := if n = 2 then [] else [n + 1]

def lineStorage : VectorStorage Unit where
  vector n := .ok (lineGraph.vector n)
  neighbors n layer := .ok (lineGraph.neighbors n layer)
  isDeleted n := .ok (lineGraph.deleted n)
  stuck := ()

/-- From the deleted node, the other two are found. -/
theorem Hnsw.search_answers_line :
    search (lineDistance .euclidean) lineStorage .inOrder [0] 2 1 0 1 (fun _ => true) =
        .ok [(1, 0x3F800000), (2, 0x40800000)] ∧
      ∃ start, Answers (lineDistance .euclidean) lineGraph [0] (fun _ => true) 2 (max 1 2) start
        [(1, 0x3F800000), (2, 0x40800000)] := by
  have hrun : search (lineDistance .euclidean) lineStorage .inOrder [0] 2 1 0 1 (fun _ => true) =
      .ok [(1, 0x3F800000), (2, 0x40800000)] := by
    decide +kernel
  have hclosed : ∀ n < 3, ∀ layer, ∀ x ∈ lineGraph.neighbors n layer, x < 3 := by
    intro n hn layer x hx
    unfold lineGraph at hx
    dsimp only at hx
    split at hx
    · cases hx
    · rw [List.mem_singleton.mp hx]
      omega
  have hreads : ReadsAs lineStorage lineGraph :=
    .of_finite (by decide) (fun _ _ => rfl) (fun _ _ => rfl) (fun _ _ _ => rfl) hclosed 1
  obtain ⟨start, found, -, hsearch, hanswers⟩ :=
    @search_answers Unit (lineDistance .euclidean) lineStorage .inOrder _ [0] (fun _ => true)
      hreads 2 1 0 1 ⟨by decide, le_rfl⟩ (by decide)
  rw [hrun] at hsearch
  cases hsearch
  exact ⟨hrun, start, hanswers⟩

end BoogyDb
