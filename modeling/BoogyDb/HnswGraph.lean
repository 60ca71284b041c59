import BoogyDb.Hnsw
import BoogyDb.Lib.Except
import Mathlib.Data.Finset.Card
import Mathlib.Data.Finset.Range

/-!
# What the graph algorithms do on a layered graph

A `LayeredGraph` has `size` nodes, and a list for each layer of a node up to its level.
It is `Layered` when the list of a node on a layer only names nodes that have that layer.
`ReadsAs` says that a storage reads such a graph; then no algorithm asks for a list above
the level of a node, and none of them fails.

* The greedy walk ends since every move goes to a node that is strictly closer: the number
  of the nodes that are closer still is the measure (`closerCount`).
* The beam search ends since a node enters the candidates when it is visited for the first
  time; every turn takes one candidate away.
-/

namespace BoogyDb

structure LayeredGraph where
  size : ℕ
  level : ℕ → ℕ
  vector : ℕ → List UInt32
  deleted : ℕ → Bool
  /-- The neighbors of a node on a layer. -/
  neighbors : ℕ → ℕ → List ℕ

namespace LayeredGraph

/-- The node has a list on the layer. -/
def On (g : LayeredGraph) (layer n : ℕ) : Prop := n < g.size ∧ layer ≤ g.level n

/-- A list only names nodes that have the layer. -/
def Layered (g : LayeredGraph) : Prop :=
  ∀ layer n, g.On layer n → ∀ x ∈ g.neighbors n layer, g.On layer x

variable {g : LayeredGraph} {layer layer' n : ℕ}

theorem On.mono (h : g.On layer n) (hle : layer' ≤ layer) : g.On layer' n :=
  ⟨h.1, hle.trans h.2⟩

theorem On.zero (h : g.On layer n) : g.On 0 n := h.mono (Nat.zero_le _)

end LayeredGraph

/-- The storage reads the graph. -/
structure ReadsAs {ε : Type} (storage : VectorStorage ε) (g : LayeredGraph) : Prop where
  size_le : g.size ≤ 2 ^ 32
  layered : g.Layered
  vector {n : ℕ} (h : n < g.size) : storage.vector n = .ok (g.vector n)
  isDeleted {n : ℕ} (h : n < g.size) : storage.isDeleted n = .ok (g.deleted n)
  neighbors {layer n : ℕ} (h : g.On layer n) : storage.neighbors n layer = .ok (g.neighbors n layer)

namespace Hnsw

variable {ε : Type} {dist : List UInt32 → List UInt32 → UInt32} {storage : VectorStorage ε}
  {order : HeapOrder} {g : LayeredGraph} {query : List UInt32} {layer n : ℕ}

theorem distanceTo_ok (hg : ReadsAs storage g) (h : n < g.size) :
    distanceTo dist storage query n = .ok (dist query (g.vector n)) := by
  rw [distanceTo, hg.vector h]
  rfl

/-! ## The greedy walk -/

/-- The nodes that are closer than `d`. -/
def closerCount (dist : List UInt32 → List UInt32 → UInt32) (g : LayeredGraph)
    (query : List UInt32) (d : UInt32) : ℕ :=
  ((Finset.range g.size).filter fun n => Binary32.lt (dist query (g.vector n)) d = true).card

theorem closerCount_lt {d : UInt32} (hn : n < g.size)
    (h : Binary32.lt (dist query (g.vector n)) d = true) :
    closerCount dist g query (dist query (g.vector n)) < closerCount dist g query d := by
  apply Finset.card_lt_card
  rw [Finset.ssubset_iff_of_subset]
  · refine ⟨n, Finset.mem_filter.mpr ⟨Finset.mem_range.mpr hn, h⟩, fun hmem => ?_⟩
    have hself := (Finset.mem_filter.mp hmem).2
    rw [Binary32.lt_irrefl] at hself
    cases hself
  · intro x hx
    obtain ⟨hrange, hlt⟩ := Finset.mem_filter.mp hx
    exact Finset.mem_filter.mpr ⟨hrange, Binary32.lt_trans hlt h⟩

theorem closerCount_le (dist : List UInt32 → List UInt32 → UInt32) (g : LayeredGraph)
    (query : List UInt32) (d : UInt32) : closerCount dist g query d ≤ g.size := by
  have h := Finset.card_filter_le (Finset.range g.size)
    fun n => Binary32.lt (dist query (g.vector n)) d = true
  rwa [Finset.card_range] at h

/-- Where a walk may have moved to: it stays, or it is at a live node that is closer. -/
structure MovesTo (dist : List UInt32 → List UInt32 → UInt32) (g : LayeredGraph)
    (query : List UInt32) (start : ℕ × UInt32) (stop : ℕ × UInt32) : Prop where
  dist_eq : start.2 = dist query (g.vector start.1) → stop.2 = dist query (g.vector stop.1)
  live : stop = start ∨ g.deleted stop.1 = false ∧ Binary32.lt stop.2 start.2 = true

theorem MovesTo.refl (walk : ℕ × UInt32) : MovesTo dist g query walk walk := ⟨id, Or.inl rfl⟩

theorem MovesTo.trans {a b c : ℕ × UInt32} (h : MovesTo dist g query a b)
    (h' : MovesTo dist g query b c) : MovesTo dist g query a c := by
  refine ⟨fun ha => h'.dist_eq (h.dist_eq ha), ?_⟩
  rcases h'.live with rfl | ⟨hlive, hlt⟩
  · exact h.live
  · refine Or.inr ⟨hlive, ?_⟩
    rcases h.live with rfl | ⟨-, hlt'⟩
    · exact hlt
    · exact Binary32.lt_trans hlt hlt'

theorem scanNeighbors_ok (hg : ReadsAs storage g) {neighbors : List ℕ}
    (hon : ∀ x ∈ neighbors, g.On layer x) {current : ℕ} {d : UInt32} {b : Bool}
    (hcurrent : g.On layer current) :
    ∃ current' d' b', scanNeighbors dist storage query neighbors (current, d, b) =
        .ok (current', d', b') ∧
      g.On layer current' ∧ MovesTo dist g query (current, d) (current', d') ∧
      (b' = b ∧ (current', d') = (current, d) ∨
        b' = true ∧ g.deleted current' = false ∧ Binary32.lt d' d = true) := by
  induction neighbors generalizing current d b with
  | nil => exact ⟨current, d, b, rfl, hcurrent, .refl _, Or.inl ⟨rfl, rfl⟩⟩
  | cons x neighbors ih =>
      rw [List.forall_mem_cons] at hon
      obtain ⟨hx, hon⟩ := hon
      unfold scanNeighbors
      rw [hg.isDeleted hx.1]
      cases hdel : g.deleted x with
      | true => exact ih hon hcurrent
      | false =>
          rw [distanceTo_ok hg hx.1]
          cases hlt : Binary32.lt (dist query (g.vector x)) d with
          | false =>
              obtain ⟨c', d', i', hrun, hrest⟩ := ih hon hcurrent (d := d) (b := b)
              refine ⟨c', d', i', ?_, hrest⟩
              rw [← hrun]
              exact if_neg (by rw [hlt]; exact Bool.false_ne_true)
          | true =>
              have hmove : MovesTo dist g query (current, d) (x, dist query (g.vector x)) :=
                ⟨fun _ => rfl, Or.inr ⟨hdel, hlt⟩⟩
              obtain ⟨c', d', i', hrun, hon', hmoves, hcase⟩ :=
                ih hon hx (d := dist query (g.vector x)) (b := true)
              refine ⟨c', d', i', ?_, hon', hmove.trans hmoves, Or.inr ?_⟩
              · rw [← hrun]
                exact if_pos hlt
              · rcases hcase with ⟨rfl, heq⟩ | ⟨rfl, hlive, hlt'⟩
                · obtain ⟨rfl, rfl⟩ := Prod.mk.inj heq
                  exact ⟨rfl, hdel, hlt⟩
                · exact ⟨rfl, hlive, Binary32.lt_trans hlt' hlt⟩

theorem walkLayer_ok (hg : ReadsAs storage g) {fuel current : ℕ} {d : UInt32}
    (hcurrent : g.On layer current) (hd : d = dist query (g.vector current))
    (hfuel : closerCount dist g query d < fuel) :
    ∃ current' d', walkLayer dist storage query layer fuel (current, d) = .ok (current', d') ∧
      g.On layer current' ∧ MovesTo dist g query (current, d) (current', d') := by
  induction fuel generalizing current d with
  | zero => exact absurd hfuel (Nat.not_lt_zero _)
  | succ fuel ih =>
      obtain ⟨c', d', b', hscan, hon, hmoves, hcase⟩ :=
        @scanNeighbors_ok _ dist _ _ query _ hg _ (hg.layered layer current hcurrent) current d false
          hcurrent
      unfold walkLayer
      rw [hg.neighbors hcurrent, Except.ok_bind, hscan, Except.ok_bind]
      rcases hcase with ⟨rfl, heq⟩ | ⟨rfl, -, hlt⟩
      · exact ⟨c', d', rfl, hon, hmoves⟩
      · have hd' : d' = dist query (g.vector c') := hmoves.dist_eq hd
        have hcloser : closerCount dist g query d' < closerCount dist g query d := by
          rw [hd'] at hlt ⊢
          exact closerCount_lt hon.1 hlt
        obtain ⟨c'', d'', hwalk, hon', hmoves'⟩ := ih hon hd' (by omega)
        exact ⟨c'', d'', hwalk, hon', hmoves.trans hmoves'⟩

theorem closerCount_lt_loopFuel (hg : ReadsAs storage g) (d : UInt32) :
    closerCount dist g query d < loopFuel := by
  have hle := closerCount_le dist g query d
  have hsize := hg.size_le
  unfold loopFuel
  omega

/-- **The descent ends on the target layer, at the entry point or at a live node.** -/
theorem searchUpperLayers_ok (hg : ReadsAs storage g) {entryPoint top target : ℕ}
    (hentry : g.On top entryPoint) (hle : target ≤ top) :
    ∃ n, searchUpperLayers dist storage entryPoint query top target = .ok n ∧ g.On target n ∧
      (n = entryPoint ∨ g.deleted n = false) := by
  have hdescend : ∀ (k current : ℕ) (d : UInt32), g.On (target + k) current →
      d = dist query (g.vector current) → ∃ current' d',
        (List.range' (target + 1) k).reverse.foldlM (fun walk layer =>
          walkLayer dist storage query layer loopFuel walk) (current, d) = .ok (current', d') ∧
        g.On target current' ∧ MovesTo dist g query (current, d) (current', d') := by
    intro k
    induction k with
    | zero => exact fun current d hon _ => ⟨current, d, rfl, hon, .refl _⟩
    | succ k ih =>
        intro current d hon hd
        have hlayer : target + 1 + k = target + (k + 1) := by omega
        obtain ⟨c', d', hwalk, hon', hmoves⟩ :=
          walkLayer_ok hg hon hd (closerCount_lt_loopFuel hg d)
        obtain ⟨c'', d'', hrest, hon'', hmoves'⟩ :=
          ih c' d' (hon'.mono (by omega)) (hmoves.dist_eq hd)
        refine ⟨c'', d'', ?_, hon'', hmoves.trans hmoves'⟩
        rw [List.range'_1_concat, List.reverse_append, List.reverse_singleton, List.singleton_append,
          List.foldlM_cons, hlayer, hwalk, Except.ok_bind, hrest]
  have htop : g.On (target + (top - target)) entryPoint := hentry.mono (by omega)
  obtain ⟨n, d, hrun, hon, hmoves⟩ := hdescend _ entryPoint _ htop rfl
  refine ⟨n, ?_, hon, ?_⟩
  · unfold searchUpperLayers
    rw [distanceTo_ok hg hentry.1, Except.ok_bind]
    dsimp only
    rw [hrun]
    rfl
  · rcases hmoves.live with heq | ⟨hlive, -⟩
    · exact Or.inl (Prod.mk.inj heq).1
    · exact Or.inr hlive

theorem descendTo_ok (hg : ReadsAs storage g) {entryPoint top target : ℕ}
    (hentry : g.On top entryPoint) :
    ∃ n, descendTo dist storage entryPoint query top target = .ok n ∧ g.On (min target top) n ∧
      (n = entryPoint ∨ g.deleted n = false) := by
  unfold descendTo
  split
  · rename_i hlt
    obtain ⟨n, hrun, hon, hlive⟩ :=
      @searchUpperLayers_ok _ dist _ _ query hg entryPoint top target hentry hlt.le
    exact ⟨n, hrun, hon.mono (min_le_left _ _), hlive⟩
  · exact ⟨entryPoint, rfl, hentry.mono (min_le_right _ _), Or.inl rfl⟩

/-! ## Heaps -/

section

variable {α : Type} {cmp : α → α → Ordering} {l rest : List α} {a : α}

theorem popMax_eq_none : popMax cmp l = none ↔ l = [] := by
  cases l with
  | nil => exact ⟨fun _ => rfl, fun _ => rfl⟩
  | cons a as =>
      refine ⟨fun h => ?_, fun h => nomatch h⟩
      unfold popMax at h
      cases hpop : popMax cmp as with
      | none =>
          rw [hpop] at h
          cases h
      | some b =>
          rw [hpop] at h
          dsimp only at h
          split at h <;> cases h

theorem popMax_perm (h : popMax cmp l = some (a, rest)) : l.Perm (a :: rest) := by
  induction l generalizing a rest with
  | nil => cases h
  | cons x as ih =>
      unfold popMax at h
      cases hpop : popMax cmp as with
      | none =>
          rw [hpop] at h
          cases h
          rw [popMax_eq_none.mp hpop]
      | some b =>
          obtain ⟨b, others⟩ := b
          rw [hpop] at h
          dsimp only at h
          have hperm := ih hpop
          split at h
          · cases h
            exact (hperm.cons x).trans (.swap _ _ _)
          · cases h
            exact hperm.cons x

end

theorem evict_sublist (ef : ℕ) (results : List Candidate) :
    ∃ dropped, results.Perm (dropped ++ evict ef results) ∧
      (0 < ef → results ≠ [] → evict ef results ≠ []) := by
  unfold evict
  split
  · rename_i hlt
    cases hpop : popMax Candidate.farCmp results with
    | none => exact ⟨results, by simp, fun _ hne => absurd (popMax_eq_none.mp hpop) hne⟩
    | some r =>
        obtain ⟨worst, rest⟩ := r
        have hperm := popMax_perm hpop
        refine ⟨[worst], hperm, fun hef _ hnil => ?_⟩
        have hlen := hperm.length_eq
        simp only [Option.map_some, Option.getD_some] at hnil
        rw [hnil, List.length_cons, List.length_nil] at hlen
        omega
  · exact ⟨[], .refl _, fun _ hne => hne⟩

theorem sortByDistance_perm (found : List (ℕ × UInt32)) : (sortByDistance found).Perm found :=
  List.perm_insertionSort _ _

/-! ## Beam search -/

/-- What a beam holds: nodes of the layer, with their distances; the results are live and
allowed. -/
structure BeamInv (dist : List UInt32 → List UInt32 → UInt32) (g : LayeredGraph)
    (query : List UInt32) (layer : ℕ) (isAllowed : ℕ → Bool) (beam : Beam) : Prop where
  nodup : beam.visited.Nodup
  on : ∀ n ∈ beam.visited, g.On layer n
  candidates : ∀ c ∈ beam.candidates,
    c.nodeId ∈ beam.visited ∧ c.distance = dist query (g.vector c.nodeId)
  results : ∀ r ∈ beam.results, r.nodeId ∈ beam.visited ∧
    r.distance = dist query (g.vector r.nodeId) ∧ g.deleted r.nodeId = false ∧
    isAllowed r.nodeId = true
  resultsNodup : (beam.results.map Candidate.nodeId).Nodup

/-- The turns that are left: candidates, and nodes that can become candidates. -/
def Beam.turns (g : LayeredGraph) (beam : Beam) : ℕ :=
  beam.candidates.length + (g.size - beam.visited.length)

variable {isAllowed : ℕ → Bool} {beam : Beam} {ef : ℕ}

theorem BeamInv.visited_lt (h : BeamInv dist g query layer isAllowed beam) {n : ℕ}
    (hn : n < g.size) (hnew : n ∉ beam.visited) : beam.visited.length < g.size := by
  have hsub : (n :: beam.visited).toFinset ⊆ Finset.range g.size := by
    intro x hx
    rw [List.mem_toFinset, List.mem_cons] at hx
    rcases hx with rfl | hx
    · exact Finset.mem_range.mpr hn
    · exact Finset.mem_range.mpr (h.on x hx).1
  have hcard := Finset.card_le_card hsub
  rw [Finset.card_range, List.toFinset_card_of_nodup (List.nodup_cons.mpr ⟨hnew, h.nodup⟩),
    List.length_cons] at hcard
  exact hcard

/-- A node is visited. -/
theorem BeamInv.visit (h : BeamInv dist g query layer isAllowed beam) {n : ℕ}
    (hn : g.On layer n) (hnew : n ∉ beam.visited) :
    BeamInv dist g query layer isAllowed { beam with visited := n :: beam.visited } where
  nodup := List.nodup_cons.mpr ⟨hnew, h.nodup⟩
  on := List.forall_mem_cons.mpr ⟨hn, h.on⟩
  candidates c hc := ⟨List.mem_cons_of_mem _ (h.candidates c hc).1, (h.candidates c hc).2⟩
  results r hr := ⟨List.mem_cons_of_mem _ (h.results r hr).1, (h.results r hr).2⟩
  resultsNodup := h.resultsNodup

/-- A visited node becomes a candidate, and the results are replaced. -/
theorem BeamInv.push (h : BeamInv dist g query layer isAllowed beam) {n : ℕ}
    (hn : n ∈ beam.visited) {results : List Candidate}
    (hresults : ∀ r ∈ results, r ∈ beam.results ∨ r = ⟨dist query (g.vector n), n⟩ ∧
      g.deleted n = false ∧ isAllowed n = true)
    (hnodup : (results.map Candidate.nodeId).Nodup) :
    BeamInv dist g query layer isAllowed
      { beam with
        candidates := ⟨dist query (g.vector n), n⟩ :: beam.candidates
        results } where
  nodup := h.nodup
  on := h.on
  candidates := List.forall_mem_cons.mpr ⟨⟨hn, rfl⟩, h.candidates⟩
  results r hr := by
    rcases hresults r hr with hold | ⟨rfl, hlive, hallowed⟩
    · exact h.results r hold
    · exact ⟨hn, rfl, hlive, hallowed⟩
  resultsNodup := hnodup

/-- The results with the new node, if it counts, after the worst was dropped. -/
theorem BeamInv.pushResult (h : BeamInv dist g query layer isAllowed beam) {n : ℕ}
    (hn : g.On layer n) (hnew : n ∉ beam.visited) {results : List Candidate}
    (hresults : ∃ dropped, (dropped ++ results).Perm
      (if !g.deleted n && isAllowed n then ⟨dist query (g.vector n), n⟩ :: beam.results
        else beam.results)) :
    BeamInv dist g query layer isAllowed
      { visited := n :: beam.visited
        candidates := ⟨dist query (g.vector n), n⟩ :: beam.candidates
        results } := by
  obtain ⟨dropped, hperm⟩ := hresults
  have hnodup : ((if !g.deleted n && isAllowed n then
      ⟨dist query (g.vector n), n⟩ :: beam.results else beam.results).map
        Candidate.nodeId).Nodup := by
    split
    · rw [List.map_cons, List.nodup_cons]
      refine ⟨fun hmem => ?_, h.resultsNodup⟩
      obtain ⟨r, hr, heq⟩ := List.mem_map.mp hmem
      have heq : r.nodeId = n := heq
      exact hnew (heq ▸ (h.results r hr).1)
    · exact h.resultsNodup
  refine (h.visit hn hnew).push List.mem_cons_self (fun r hr => ?_) ?_
  · have hmem := hperm.mem_iff.mp (List.mem_append_right dropped hr)
    split at hmem
    · rename_i hcounts
      rw [Bool.and_eq_true, Bool.not_eq_true'] at hcounts
      rcases List.mem_cons.mp hmem with rfl | hold
      · exact Or.inr ⟨rfl, hcounts⟩
      · exact Or.inl hold
    · exact Or.inl hmem
  · have hall := (hperm.map Candidate.nodeId).nodup_iff.mpr hnodup
    rw [List.map_append] at hall
    exact hall.of_append_right

/-- What a step of the search may do to the beam. -/
structure BeamStep (g : LayeredGraph) (ef : ℕ) (beam beam' : Beam) : Prop where
  turns : beam'.turns g ≤ beam.turns g
  results : 0 < ef → beam.results ≠ [] → beam'.results ≠ []

theorem BeamStep.refl (g : LayeredGraph) (ef : ℕ) (beam : Beam) : BeamStep g ef beam beam :=
  ⟨le_rfl, fun _ => id⟩

theorem BeamStep.trans {beam' beam'' : Beam} (h : BeamStep g ef beam beam')
    (h' : BeamStep g ef beam' beam'') : BeamStep g ef beam beam'' :=
  ⟨h'.turns.trans h.turns, fun hef hne => h'.results hef (h.results hef hne)⟩

theorem expandBeam_ok (hg : ReadsAs storage g) {neighbors : List ℕ}
    (hon : ∀ x ∈ neighbors, g.On layer x) (h : BeamInv dist g query layer isAllowed beam) :
    ∃ beam', expandBeam dist storage query ef isAllowed neighbors beam = .ok beam' ∧
      BeamInv dist g query layer isAllowed beam' ∧ BeamStep g ef beam beam' := by
  induction neighbors generalizing beam with
  | nil => exact ⟨beam, rfl, h, .refl _ _ _⟩
  | cons x neighbors ih =>
      rw [List.forall_mem_cons] at hon
      obtain ⟨hx, hon⟩ := hon
      unfold expandBeam
      by_cases hvisited : x ∈ beam.visited
      · rw [if_pos hvisited]
        exact ih hon h
      · have hroom := h.visited_lt hx.1 hvisited
        rw [if_neg hvisited, distanceTo_ok hg hx.1, Except.ok_bind]
        dsimp only
        split
        · rw [hg.isDeleted hx.1, Except.ok_bind]
          set results : List Candidate := if !g.deleted x && isAllowed x then
            evict ef (⟨dist query (g.vector x), x⟩ :: beam.results) else beam.results with hresults
          have hkeep : (∃ dropped, (dropped ++ results).Perm
              (if !g.deleted x && isAllowed x then ⟨dist query (g.vector x), x⟩ :: beam.results
                else beam.results)) ∧ (0 < ef → beam.results ≠ [] → results ≠ []) := by
            rw [hresults]
            split
            · obtain ⟨dropped, hperm, hne⟩ :=
                evict_sublist ef (⟨dist query (g.vector x), x⟩ :: beam.results)
              exact ⟨⟨dropped, hperm.symm⟩, fun hef _ => hne hef (List.cons_ne_nil _ _)⟩
            · exact ⟨⟨[], .refl _⟩, fun _ => id⟩
          obtain ⟨beam', hrun, hinv, hstep⟩ := ih hon (h.pushResult hx hvisited hkeep.1)
          refine ⟨beam', hrun, hinv, BeamStep.trans ⟨?_, hkeep.2⟩ hstep⟩
          unfold Beam.turns
          simp only [List.length_cons]
          omega
        · obtain ⟨beam', hrun, hinv, hstep⟩ := ih hon (h.visit hx hvisited)
          have hvisit : BeamStep g ef beam { beam with visited := x :: beam.visited } := by
            refine ⟨?_, fun _ => id⟩
            unfold Beam.turns
            simp only [List.length_cons]
            omega
          exact ⟨beam', hrun, hinv, hvisit.trans hstep⟩

theorem runBeam_ok (hg : ReadsAs storage g) {fuel : ℕ}
    (h : BeamInv dist g query layer isAllowed beam) (hfuel : beam.turns g < fuel) :
    ∃ beam', runBeam dist storage query ef layer isAllowed fuel beam = .ok beam' ∧
      BeamInv dist g query layer isAllowed beam' ∧ BeamStep g ef beam beam' := by
  induction fuel generalizing beam with
  | zero => exact absurd hfuel (Nat.not_lt_zero _)
  | succ fuel ih =>
      unfold runBeam
      cases hpop : popMax Candidate.closeCmp beam.candidates with
      | none => exact ⟨beam, rfl, h, .refl _ _ _⟩
      | some top =>
          obtain ⟨closest, rest⟩ := top
          have hperm := popMax_perm hpop
          have hinv : BeamInv dist g query layer isAllowed { beam with candidates := rest } :=
            ⟨h.nodup, h.on, fun c hc => h.candidates c (hperm.mem_iff.mpr (List.mem_cons_of_mem _ hc)),
              h.results, h.resultsNodup⟩
          have hturns : ({ beam with candidates := rest } : Beam).turns g < beam.turns g := by
            have hlen := hperm.length_eq
            rw [List.length_cons] at hlen
            change rest.length + (g.size - beam.visited.length) <
              beam.candidates.length + (g.size - beam.visited.length)
            omega
          dsimp only
          split
          · exact ⟨_, rfl, hinv, hturns.le, fun _ => id⟩
          · have hclosest : g.On layer closest.nodeId :=
              h.on _ (h.candidates closest (hperm.mem_iff.mpr List.mem_cons_self)).1
            obtain ⟨beam', hexpand, hinv', hstep⟩ :=
              @expandBeam_ok _ dist _ _ query layer isAllowed _ ef hg _
                (hg.layered layer _ hclosest) hinv
            obtain ⟨beam'', hrun, hinv'', hstep'⟩ := ih hinv' (by have := hstep.turns; omega)
            refine ⟨beam'', ?_, hinv'', BeamStep.trans ⟨hturns.le, fun _ => id⟩ (hstep.trans hstep')⟩
            rw [hg.neighbors hclosest, Except.ok_bind, hexpand, Except.ok_bind, hrun]

/-- A result of the beam search. -/
structure Found (dist : List UInt32 → List UInt32 → UInt32) (g : LayeredGraph)
    (query : List UInt32) (layer : ℕ) (isAllowed : ℕ → Bool) (r : ℕ × UInt32) : Prop where
  on : g.On layer r.1
  dist_eq : r.2 = dist query (g.vector r.1)
  live : g.deleted r.1 = false
  isAllowed : isAllowed r.1 = true

/-- The beam that a search starts with. -/
def startBeam (dist : List UInt32 → List UInt32 → UInt32) (g : LayeredGraph)
    (query : List UInt32) (isAllowed : ℕ → Bool) (ep : ℕ) : Beam :=
  ⟨[ep], [⟨dist query (g.vector ep), ep⟩],
    if !g.deleted ep && isAllowed ep then [⟨dist query (g.vector ep), ep⟩] else []⟩

theorem startBeam_inv {ep : ℕ} (hep : g.On layer ep) :
    BeamInv dist g query layer isAllowed (startBeam dist g query isAllowed ep) := by
  have hempty : BeamInv dist g query layer isAllowed ⟨[], [], []⟩ :=
    ⟨List.nodup_nil, by simp, by simp, by simp, List.nodup_nil⟩
  exact hempty.pushResult hep List.not_mem_nil ⟨[], .refl _⟩

/-- What the results of a beam are returned as. -/
def sortedResults (order : HeapOrder) (beam : Beam) : List (ℕ × UInt32) :=
  sortByDistance ((order.intoIter beam.results).map fun r => (r.nodeId, r.distance))

theorem sortedResults_perm (order : HeapOrder) (beam : Beam) :
    (sortedResults order beam).Perm (beam.results.map fun r => (r.nodeId, r.distance)) :=
  (sortByDistance_perm _).trans ((order.perm beam.results).map _)

/-- A beam search returns the results of the beam that it ends with. -/
theorem searchLayer_runs (hg : ReadsAs storage g) {ep : ℕ} (hep : g.On layer ep) :
    ∃ beam, runBeam dist storage query ef layer isAllowed loopFuel
        (startBeam dist g query isAllowed ep) = .ok beam ∧
      searchLayer dist storage order [ep] query ef layer isAllowed =
        .ok (sortedResults order beam) ∧
      BeamInv dist g query layer isAllowed beam ∧
      BeamStep g ef (startBeam dist g query isAllowed ep) beam := by
  have hturns : (startBeam dist g query isAllowed ep).turns g < loopFuel := by
    have hsize := hg.size_le
    have hlt := hep.1
    unfold Beam.turns loopFuel
    simp only [startBeam, List.length_cons, List.length_nil]
    omega
  obtain ⟨beam, hrun, hbeam, hstep⟩ := @runBeam_ok _ dist _ _ query layer isAllowed _ ef hg _
    (startBeam_inv hep) hturns
  have henter : enterBeam dist storage query isAllowed [ep] ⟨[], [], []⟩ =
      .ok (startBeam dist g query isAllowed ep) := by
    unfold enterBeam
    rw [if_neg List.not_mem_nil, distanceTo_ok hg hep.1, Except.ok_bind, hg.isDeleted hep.1,
      Except.ok_bind]
    rfl
  refine ⟨beam, hrun, ?_, hbeam, hstep⟩
  unfold searchLayer
  rw [henter, Except.ok_bind, hrun, Except.ok_bind]
  rfl

/-- **The beam search finds live and allowed nodes of the layer**, and finds some when it
starts at one. -/
theorem searchLayer_ok (hg : ReadsAs storage g) {ep : ℕ} (hep : g.On layer ep) :
    ∃ found, searchLayer dist storage order [ep] query ef layer isAllowed = .ok found ∧
      (∀ r ∈ found, Found dist g query layer isAllowed r) ∧ (found.map Prod.fst).Nodup ∧
      (0 < ef → g.deleted ep = false → isAllowed ep = true → found ≠ []) := by
  obtain ⟨beam, -, hrun, hbeam, hstep⟩ :=
    @searchLayer_runs _ dist _ order _ query layer isAllowed ef hg ep hep
  have hperm := sortedResults_perm order beam
  refine ⟨sortedResults order beam, hrun, ?_, ?_, ?_⟩
  · intro r hr
    obtain ⟨c, hc, rfl⟩ := List.mem_map.mp (hperm.mem_iff.mp hr)
    obtain ⟨hmem, hdist, hlive, hallowed⟩ := hbeam.results c hc
    exact ⟨hbeam.on _ hmem, hdist, hlive, hallowed⟩
  · refine (hperm.map Prod.fst).nodup_iff.mpr ?_
    rw [List.map_map]
    exact hbeam.resultsNodup
  · intro hef hlive hallowed hnil
    have hne : (startBeam dist g query isAllowed ep).results ≠ [] := by
      unfold startBeam
      rw [hlive, hallowed]
      exact List.cons_ne_nil _ _
    apply hstep.results hef hne
    rw [hnil, List.nil_perm, List.map_eq_nil_iff] at hperm
    exact hperm

/-! ## Selecting neighbors -/

section

variable {m : ℕ} {candidates sorted : List (ℕ × UInt32)} {selected : List ℕ}

/-- The selection comes from what is given, and is no longer than `m`. -/
structure Selects (m : ℕ) (ids selected out : List ℕ) : Prop where
  mem : ∀ x ∈ out, x ∈ selected ∨ x ∈ ids
  length_le : selected.length ≤ m → out.length ≤ m

theorem selectDiverse_ok (hg : ReadsAs storage g) (hsorted : ∀ c ∈ sorted, c.1 < g.size)
    (hselected : ∀ x ∈ selected, x < g.size) :
    ∃ out, selectDiverse dist storage m sorted selected = .ok out ∧
      Selects m (sorted.map Prod.fst) selected out := by
  induction sorted generalizing selected with
  | nil => exact ⟨selected, rfl, fun x hx => Or.inl hx, id⟩
  | cons c sorted ih =>
      obtain ⟨candId, candDist⟩ := c
      rw [List.forall_mem_cons] at hsorted
      obtain ⟨hcand, hsorted⟩ := hsorted
      have hdominated : ∀ ids : List ℕ, (∀ x ∈ ids, x < g.size) → ∃ b, ids.anyM (fun selId => do
          let selVec ← storage.vector selId
          (pure (Binary32.lt (dist (g.vector candId) selVec) candDist) : Except ε Bool)) = .ok b := by
        intro ids hids
        induction ids with
        | nil => exact ⟨false, rfl⟩
        | cons x ids ihids =>
            rw [List.forall_mem_cons] at hids
            obtain ⟨b, hb⟩ := ihids hids.2
            unfold List.anyM
            rw [hg.vector hids.1, Except.ok_bind]
            cases Binary32.lt (dist (g.vector candId) (g.vector x)) candDist with
            | true => exact ⟨true, rfl⟩
            | false => exact ⟨b, hb⟩
      unfold selectDiverse
      split
      · exact ⟨selected, rfl, fun x hx => Or.inl hx, id⟩
      · rename_i hfull
        obtain ⟨b, hb⟩ := hdominated selected hselected
        rw [hg.vector hcand, Except.ok_bind, hb, Except.ok_bind]
        cases b with
        | true =>
            obtain ⟨out, hrun, hmem, hlen⟩ := ih hsorted hselected
            refine ⟨out, hrun, fun x hx => ?_, hlen⟩
            exact (hmem x hx).imp_right fun h => List.mem_cons_of_mem _ h
        | false =>
            have hnext : ∀ x ∈ selected ++ [candId], x < g.size := by
              intro x hx
              rcases List.mem_append.mp hx with hx | hx
              · exact hselected x hx
              · exact List.mem_singleton.mp hx ▸ hcand
            obtain ⟨out, hrun, hmem, hlen⟩ := ih hsorted hnext
            refine ⟨out, hrun, fun x hx => ?_, fun hle => hlen ?_⟩
            · rcases hmem x hx with hx | hx
              · rcases List.mem_append.mp hx with hx | hx
                · exact Or.inl hx
                · exact Or.inr (List.mem_singleton.mp hx ▸ List.mem_cons_self)
              · exact Or.inr (List.mem_cons_of_mem _ hx)
            · rw [List.length_append, List.length_singleton]
              omega

theorem fillClosest_selects (m : ℕ) (sorted : List (ℕ × UInt32)) (selected : List ℕ) :
    Selects m (sorted.map Prod.fst) selected (fillClosest m sorted selected) := by
  induction sorted generalizing selected with
  | nil => exact ⟨fun x hx => Or.inl hx, id⟩
  | cons c sorted ih =>
      obtain ⟨candId, candDist⟩ := c
      unfold fillClosest
      split
      · exact ⟨fun x hx => Or.inl hx, id⟩
      · rename_i hfull
        split
        · obtain ⟨hmem, hlen⟩ := ih selected
          exact ⟨fun x hx => (hmem x hx).imp_right fun h => List.mem_cons_of_mem _ h, hlen⟩
        · obtain ⟨hmem, hlen⟩ := ih (selected ++ [candId])
          refine ⟨fun x hx => ?_, fun hle => hlen ?_⟩
          · rcases hmem x hx with hx | hx
            · rcases List.mem_append.mp hx with hx | hx
              · exact Or.inl hx
              · exact Or.inr (List.mem_singleton.mp hx ▸ List.mem_cons_self)
            · exact Or.inr (List.mem_cons_of_mem _ hx)
          · rw [List.length_append, List.length_singleton]
            omega

/-- **At most `m` of the candidates are selected.** -/
theorem selectNeighbors_ok (hg : ReadsAs storage g) (hcandidates : ∀ c ∈ candidates, c.1 < g.size) :
    ∃ out, selectNeighbors dist storage candidates m = .ok out ∧
      (∀ x ∈ out, x ∈ candidates.map Prod.fst) ∧ out.length ≤ m := by
  have hperm := sortByDistance_perm candidates
  obtain ⟨selected, hrun, hselected⟩ := @selectDiverse_ok _ dist _ _ m _ [] hg
    (fun c hc => hcandidates c (hperm.mem_iff.mp hc)) (by simp)
  have hfill := fillClosest_selects m (sortByDistance candidates) selected
  refine ⟨fillClosest m (sortByDistance candidates) selected, ?_, fun x hx => ?_, ?_⟩
  · unfold selectNeighbors
    dsimp only
    rw [hrun]
    rfl
  · apply (hperm.map Prod.fst).mem_iff.mp
    rcases hfill.mem x hx with hx | hx
    · exact (hselected.mem x hx).resolve_left List.not_mem_nil
    · exact hx
  · exact hfill.length_le (hselected.length_le (Nat.zero_le _))

theorem scoreLive_ok (hg : ReadsAs storage g) {current : List ℕ}
    (hcurrent : ∀ x ∈ current, x < g.size) :
    scoreLive dist storage query current = .ok ((current.filter fun x => !g.deleted x).map fun x =>
      (x, dist query (g.vector x))) := by
  induction current with
  | nil => rfl
  | cons x current ih =>
      rw [List.forall_mem_cons] at hcurrent
      unfold scoreLive
      rw [hg.isDeleted hcurrent.1, Except.ok_bind]
      cases hdel : g.deleted x with
      | true =>
          rw [List.filter_cons_of_neg (by rw [hdel]; exact Bool.false_ne_true)]
          exact ih hcurrent.2
      | false =>
          rw [List.filter_cons_of_pos (by rw [hdel]; rfl), if_neg Bool.false_ne_true,
            distanceTo_ok hg hcurrent.1, Except.ok_bind, ih hcurrent.2]
          rfl

/-- Pruning drops neighbors. -/
theorem pruneNeighbors_ok (hg : ReadsAs storage g) {current : List ℕ} (hn : n < g.size)
    (hcurrent : ∀ x ∈ current, x < g.size) :
    ∃ out, pruneNeighbors dist storage n current m = .ok out ∧
      (∀ x ∈ out, x ∈ current) ∧ out.length ≤ m := by
  set scored := (current.filter fun x => !g.deleted x).map fun x =>
    (x, dist (g.vector n) (g.vector x)) with hscored
  have hids : scored.map Prod.fst = current.filter fun x => !g.deleted x := by
    rw [hscored, List.map_map]
    exact List.map_id _
  have hlive : ∀ c ∈ scored, c.1 ∈ current := by
    intro c hc
    have hmem := List.mem_map_of_mem (f := Prod.fst) hc
    rw [hids] at hmem
    exact (List.mem_filter.mp hmem).1
  obtain ⟨out, hrun, hmem, hlen⟩ := @selectNeighbors_ok _ dist _ _ m scored hg fun c hc =>
    hcurrent _ (hlive c hc)
  refine ⟨out, ?_, fun x hx => ?_, hlen⟩
  · unfold pruneNeighbors
    rw [hg.vector hn, Except.ok_bind, scoreLive_ok hg hcurrent, Except.ok_bind, hrun]
  · obtain ⟨c, hc, rfl⟩ := List.mem_map.mp (hmem x hx)
    exact hlive c hc

end

/-! ## Insertion and search -/

/-- The list that a connection writes is one of a node on its layer, names nodes that have
the layer, and is no longer than what there is room for. -/
structure Connects (g : LayeredGraph) (m : ℕ) (c : Connection) : Prop where
  on : g.On c.2.1 c.1
  list : ∀ x ∈ c.2.2, g.On c.2.1 x
  length_le : c.2.2.length ≤ if c.2.1 = 0 then 2 * m else m

variable {m nodeId level : ℕ}

theorem linkBack_ok (hg : ReadsAs storage g) {neighbor maxNeighbors : ℕ}
    (hnode : g.On layer nodeId) (hneighbor : g.On layer neighbor) :
    ∃ list, linkBack dist storage nodeId layer maxNeighbors neighbor =
        .ok (neighbor, layer, list) ∧
      (∀ x ∈ list, g.On layer x) ∧ list.length ≤ maxNeighbors := by
  set linked := if nodeId ∈ g.neighbors neighbor layer then g.neighbors neighbor layer
    else g.neighbors neighbor layer ++ [nodeId] with hlinked
  have hon : ∀ x ∈ linked, g.On layer x := by
    intro x hx
    rw [hlinked] at hx
    split at hx
    · exact hg.layered layer neighbor hneighbor x hx
    · rcases List.mem_append.mp hx with hx | hx
      · exact hg.layered layer neighbor hneighbor x hx
      · exact List.mem_singleton.mp hx ▸ hnode
  unfold linkBack
  rw [hg.neighbors hneighbor, Except.ok_bind]
  dsimp only
  rw [← hlinked]
  split
  · obtain ⟨out, hrun, hmem, hlen⟩ := @pruneNeighbors_ok _ dist _ _ neighbor maxNeighbors hg linked
      hneighbor.1 fun x hx => (hon x hx).1
    refine ⟨out, ?_, fun x hx => hon x (hmem x hx), hlen⟩
    rw [hrun]
    rfl
  · rename_i hshort
    exact ⟨linked, rfl, hon, Nat.le_of_not_lt hshort⟩

theorem insertLayer_ok (hg : ReadsAs storage g) {connections : List Connection} {ep ef : ℕ}
    (hnode : g.On layer nodeId) (hep : g.On layer ep) (hconnects : ∀ c ∈ connections, Connects g m c) :
    ∃ connections' ep', insertLayer dist storage order nodeId query m ef (connections, ep) layer =
        .ok (connections', ep') ∧
      g.On layer ep' ∧ ∀ c ∈ connections', Connects g m c := by
  obtain ⟨found, hsearch, hfound, -, -⟩ :=
    @searchLayer_ok _ dist _ order _ query layer (fun _ => true) ef hg ep hep
  obtain ⟨selected, hselect, hmem, hlen⟩ :=
    @selectNeighbors_ok _ dist _ _ (min (if layer = 0 then 2 * m else m) m) found hg
      fun c hc => (hfound c hc).on.1
  have hon : ∀ x ∈ selected, g.On layer x := by
    intro x hx
    obtain ⟨c, hc, rfl⟩ := List.mem_map.mp (hmem x hx)
    exact (hfound c hc).on
  have hlinks : ∀ ids : List ℕ, (∀ x ∈ ids, g.On layer x) → ∃ links,
      ids.mapM (linkBack dist storage nodeId layer (if layer = 0 then 2 * m else m)) = .ok links ∧
        ∀ c ∈ links, Connects g m c := by
    intro ids hids
    induction ids with
    | nil => exact ⟨[], rfl, by simp⟩
    | cons x ids ih =>
        rw [List.forall_mem_cons] at hids
        obtain ⟨list, hc, hlist, hlen⟩ := @linkBack_ok _ dist _ _ layer nodeId hg x
          (if layer = 0 then 2 * m else m) hnode hids.1
        obtain ⟨links, hrest, hall⟩ := ih hids.2
        refine ⟨(x, layer, list) :: links, ?_,
          List.forall_mem_cons.mpr ⟨⟨hids.1, hlist, hlen⟩, hall⟩⟩
        rw [List.mapM_cons, hc, Except.ok_bind, hrest]
        rfl
  obtain ⟨links, hrun, hall⟩ := hlinks selected hon
  refine ⟨connections ++ (nodeId, layer, selected) :: links,
    (found.head?.map Prod.fst).getD ep, ?_, ?_, ?_⟩
  · unfold insertLayer
    dsimp only
    rw [hsearch, Except.ok_bind, hselect, Except.ok_bind, hrun]
    rfl
  · cases found with
    | nil => exact hep
    | cons c found => exact (hfound c List.mem_cons_self).on
  · intro c hc
    rcases List.mem_append.mp hc with hc | hc
    · exact hconnects c hc
    · rcases List.mem_cons.mp hc with rfl | hc
      · exact ⟨hnode, hon, hlen.trans (min_le_left _ _)⟩
      · exact hall c hc

/-- What an insertion says about the entry point: it stays and its layers reach up to the
new node's, or the new node takes its place. -/
structure Inserts (g : LayeredGraph) (m nodeId level : ℕ) (entryPoint : Option ℕ)
    (currentMaxLayer : ℕ) (r : InsertResult) : Prop where
  connects : ∀ c ∈ r.connections, Connects g m c
  entry : (r.newEntryPoint = none ∧ r.newMaxLayer = none ∧ entryPoint.isSome ∧
      level ≤ currentMaxLayer) ∨
    (r.newEntryPoint = some nodeId ∧ r.newMaxLayer = some level)

/-- **An insertion into a layered graph returns, and its lists keep the graph layered.** -/
theorem insert_ok (hg : ReadsAs storage g) {entryPoint : Option ℕ} {currentMaxLayer ef : ℕ}
    (hnode : g.On level nodeId) (hentry : ∀ ep, entryPoint = some ep → g.On currentMaxLayer ep) :
    ∃ r, insert dist storage order nodeId level entryPoint currentMaxLayer m ef = .ok r ∧
      Inserts g m nodeId level entryPoint currentMaxLayer r := by
  unfold insert
  cases entryPoint with
  | none =>
      refine ⟨_, rfl, ⟨fun c hc => ?_, Or.inr ⟨rfl, rfl⟩⟩⟩
      obtain ⟨l, hl, rfl⟩ := List.mem_map.mp hc
      have hle : l ≤ level := Nat.lt_succ_iff.mp (List.mem_range.mp hl)
      exact ⟨hnode.mono hle, by simp, Nat.zero_le _⟩
  | some ep =>
      have hep := hentry ep rfl
      set query := g.vector nodeId with hquery
      have hlayers : ∀ (k : ℕ) (connections : List Connection) (ep : ℕ), k ≤ level + 1 →
          (∀ l, l + 1 = k → g.On l ep) → (∀ c ∈ connections, Connects g m c) →
          ∃ connections' ep', (List.range k).reverse.foldlM
              (insertLayer dist storage order nodeId query m ef) (connections, ep) =
                .ok (connections', ep') ∧ ∀ c ∈ connections', Connects g m c := by
        intro k
        induction k with
        | zero => exact fun connections ep _ _ hall => ⟨connections, ep, rfl, hall⟩
        | succ k ih =>
            intro connections ep hk hon hall
            obtain ⟨connections', ep', hrun, hon', hall'⟩ :=
              @insertLayer_ok _ dist _ order _ query k m nodeId hg connections ep ef
                (hnode.mono (by omega)) (hon k rfl) hall
            obtain ⟨connections'', ep'', hrest, hall''⟩ :=
              ih connections' ep' (by omega) (fun l hl => hon'.mono (by omega)) hall'
            refine ⟨connections'', ep'', ?_, hall''⟩
            rw [List.range_succ, List.reverse_append, List.reverse_singleton,
              List.singleton_append, List.foldlM_cons, hrun, Except.ok_bind, hrest]
      obtain ⟨current, hcurrent, hon, -⟩ :=
        @descendTo_ok _ dist _ _ query hg ep currentMaxLayer level hep
      obtain ⟨connections, last, hrun, hall⟩ := hlayers (min level currentMaxLayer + 1) [] current
        (by omega) (fun l hl => hon.mono (by omega)) (by simp)
      dsimp only
      rw [hg.vector hnode.1, Except.ok_bind, ← hquery, hcurrent, Except.ok_bind, hrun, Except.ok_bind]
      dsimp only
      split
      · exact ⟨_, rfl, hall, Or.inr ⟨rfl, rfl⟩⟩
      · rename_i hle
        exact ⟨_, rfl, hall, Or.inl ⟨rfl, rfl, rfl, Nat.le_of_not_lt hle⟩⟩

/-- **A search of a layered graph returns live and allowed nodes**, and returns some when
it starts at a live node, all are allowed and `k` is positive. -/
theorem search_ok (hg : ReadsAs storage g) {k efSearch entryPoint maxLayer : ℕ}
    {isAllowed : ℕ → Bool} (hentry : g.On maxLayer entryPoint) :
    ∃ found, search dist storage order query k efSearch entryPoint maxLayer isAllowed = .ok found ∧
      (∀ r ∈ found, Found dist g query 0 isAllowed r) ∧
      (0 < k → g.deleted entryPoint = false → (∀ n, isAllowed n = true) → found ≠ []) := by
  obtain ⟨ep, hep, hon, hlive⟩ := @descendTo_ok _ dist _ _ query hg entryPoint maxLayer 0 hentry
  rw [Nat.zero_min] at hon
  obtain ⟨found, hrun, hfound, -, hne⟩ :=
    @searchLayer_ok _ dist _ order _ query 0 isAllowed (max efSearch k) hg ep hon
  refine ⟨found.take k, ?_, fun r hr => hfound r (List.mem_of_mem_take hr), ?_⟩
  · unfold search
    rw [hep, Except.ok_bind, hrun]
    rfl
  · intro hk hentryLive hall hnil
    have hepLive : g.deleted ep = false := by
      rcases hlive with rfl | hlive
      · exact hentryLive
      · exact hlive
    refine hne (lt_of_lt_of_le hk (le_max_right _ _)) hepLive (hall ep) ?_
    rcases List.take_eq_nil_iff.mp hnil with hzero | hnil
    · omega
    · exact hnil

end Hnsw

end BoogyDb
